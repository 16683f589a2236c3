import Mathlib.Algebra.BigOperators.Fin
import Mathlib.Algebra.Field.ZMod
import Mathlib.Logic.Function.Iterate
/-!
# ShiftReg — cyclic redundancy checks as shift registers

A register of `w` bits over the field of two elements, divided by the polynomial of degree `w` whose lower coefficients
are `g`: a step shifts the register up and takes the polynomial away when a bit falls out, and each bit of a message is
added at the top before its step.  `feed` is linear, so that what a register makes of an error tells whether it is
detected: a burst of at most `w` bits, an odd number of bits when the polynomial has an even number of terms, and two
bits nearer to each other than the order of the top bit.
-/
namespace ShiftReg

open Finset

variable {w : Nat}

/-- The bit that falls out next. -/
def top (w : Nat) : BitVec w := BitVec.twoPow w (w - 1)

def step (g r : BitVec w) : BitVec w := if r.msb then (r <<< 1) ^^^ g else r <<< 1

/-- One bit of a message. -/
def push (g r : BitVec w) (b : Bool) : BitVec w := step g (if b then r ^^^ top w else r)

def feed (g r : BitVec w) (bits : List Bool) : BitVec w := bits.foldl (push g) r

/-! ## Linearity -/

theorem xor_swap (a b c d : BitVec w) : (a ^^^ b) ^^^ (c ^^^ d) = (a ^^^ c) ^^^ (b ^^^ d) := by
  rw [BitVec.xor_assoc, ← BitVec.xor_assoc b, BitVec.xor_comm b c, BitVec.xor_assoc c, ← BitVec.xor_assoc]

theorem xor_eq_zero {a b : BitVec w} (h : a ^^^ b = 0#w) : a = b := by
  have := congrArg (· ^^^ b) h
  simpa [BitVec.xor_assoc] using this

/-- `c` when `b` holds. -/
def sel (b : Bool) (c : BitVec w) : BitVec w := if b then c else 0#w

theorem sel_xor (a b : Bool) (c : BitVec w) : sel (a ^^ b) c = sel a c ^^^ sel b c := by
  cases a <;> cases b <;> simp [sel]

theorem step_eq (g r : BitVec w) : step g r = (r <<< 1) ^^^ sel r.msb g := by
  unfold step sel
  cases r.msb <;> simp

theorem push_eq (g r : BitVec w) (b : Bool) : push g r b = step g (r ^^^ sel b (top w)) := by
  unfold push sel
  cases b <;> simp

theorem step_xor (g r s : BitVec w) : step g (r ^^^ s) = step g r ^^^ step g s := by
  rw [step_eq, step_eq, step_eq, BitVec.msb_xor, sel_xor, BitVec.shiftLeft_xor_distrib, xor_swap]

@[simp] theorem step_zero (g : BitVec w) : step g 0#w = 0#w := by simp [step]

theorem push_xor (g r s : BitVec w) (a b : Bool) : push g (r ^^^ s) (a ^^ b) = push g r a ^^^ push g s b := by
  rw [push_eq, push_eq, push_eq, sel_xor, xor_swap, step_xor]

theorem feed_append (g r : BitVec w) (as bs : List Bool) : feed g r (as ++ bs) = feed g (feed g r as) bs :=
  List.foldl_append

/-- **The register is linear** in its content and the message. -/
theorem feed_xor (g : BitVec w) : ∀ (as bs : List Bool) (r s : BitVec w), as.length = bs.length →
    feed g (r ^^^ s) (List.zipWith xor as bs) = feed g r as ^^^ feed g s bs
  | [], [], r, s, _           => rfl
  | a :: as, b :: bs, r, s, h => by
    have ih := feed_xor g as bs (push g r a) (push g s b) (Nat.succ.inj h)
    rw [List.zipWith_cons_cons]
    show feed g (push g (r ^^^ s) (a ^^ b)) _ = _
    rw [push_xor]
    exact ih

theorem iterate_xor (g : BitVec w) : ∀ (n : Nat) (r s : BitVec w),
    (step g)^[n] (r ^^^ s) = (step g)^[n] r ^^^ (step g)^[n] s
  | 0, _, _     => rfl
  | n + 1, r, s => by
    rw [Function.iterate_succ_apply, Function.iterate_succ_apply, Function.iterate_succ_apply, step_xor, iterate_xor g n]

theorem feed_zeros (g r : BitVec w) : ∀ n, feed g r (List.replicate n false) = (step g)^[n] r
  | 0     => rfl
  | n + 1 => by
    rw [List.replicate_succ', feed_append, feed_zeros g r n, Function.iterate_succ_apply']
    rfl

@[simp] theorem iterate_zero (g : BitVec w) (n : Nat) : (step g)^[n] 0#w = 0#w := Function.iterate_fixed (step_zero g) n

/-! ## No content is lost -/

section

variable {g : BitVec w} (hg : g.getLsbD 0 = true)
include hg

theorem width_pos : 0 < w := by
  by_contra hw
  rw [BitVec.getLsbD_of_ge g 0 (by omega)] at hg
  cases hg

theorem eq_zero_of_step {r : BitVec w} (h : step g r = 0#w) : r = 0#w := by
  have hw := width_pos hg
  have hbit : ∀ i, (step g r).getLsbD i = false := fun i => by
    rw [h]
    exact BitVec.getLsbD_zero
  have hmsb : r.msb = false := by
    cases hr : r.msb with
    | false => rfl
    | true =>
      have hlow := hbit 0
      rw [step_eq, hr, BitVec.getLsbD_xor, BitVec.getLsbD_shiftLeft] at hlow
      simp only [sel, if_true, hg] at hlow
      simp at hlow
  apply BitVec.eq_of_getLsbD_eq
  intro i hi
  rw [BitVec.getLsbD_zero]
  by_cases hlast : i = w - 1
  · rw [hlast, ← BitVec.msb_eq_getLsbD_last, hmsb]
  · have hup := hbit (i + 1)
    rw [step_eq, hmsb, BitVec.getLsbD_xor, BitVec.getLsbD_shiftLeft] at hup
    simpa [sel, show i + 1 < w by omega] using hup

theorem step_injective : Function.Injective (step g) := by
  intro r s h
  refine xor_eq_zero (eq_zero_of_step hg ?_)
  rw [step_xor, h, BitVec.xor_self]

theorem iterate_eq_zero {n : Nat} {r : BitVec w} (h : (step g)^[n] r = 0#w) : r = 0#w :=
  (step_injective hg).iterate n (h.trans (iterate_zero g n).symm)

end

/-! ## A burst -/

/-- The first bits of a message, at the top of a register. -/
def window : List Bool → BitVec w
  | []      => 0#w
  | b :: bs => sel b (top w) ^^^ (window bs >>> 1)

theorem getMsbD_sel_top (b : Bool) (i : Nat) (h : i < w) : (sel b (top w)).getMsbD i = (b && decide (i = 0)) := by
  cases b with
  | false => simp [sel]
  | true =>
    rw [sel, if_pos rfl, top, BitVec.getMsbD_twoPow, Bool.true_and, decide_eq_true (show w - 1 < w by omega),
      Bool.true_and]
    congr 1
    exact propext (by omega)

/-- The window shows the message, the first bit at the top. -/
theorem getMsbD_window : ∀ (bs : List Bool) (i : Nat), i < w → (window bs : BitVec w).getMsbD i = bs[i]?.getD false
  | [], i, _          => by simp [window]
  | b :: bs, 0, h     => by
    rw [window, BitVec.getMsbD_xor, getMsbD_sel_top b 0 h, BitVec.getMsbD_ushiftRight]
    simp
  | b :: bs, i + 1, h => by
    have ih := getMsbD_window bs i (by omega)
    rw [window, BitVec.getMsbD_xor, getMsbD_sel_top b (i + 1) h, BitVec.getMsbD_ushiftRight, Nat.add_sub_cancel, ih]
    simp [h]

theorem window_eq_zero {bs : List Bool} (hlen : bs.length ≤ w) (h : (window bs : BitVec w) = 0#w) : ∀ b ∈ bs, b = false := by
  intro b hb
  obtain ⟨i, hi, rfl⟩ := List.getElem_of_mem hb
  have hbit := getMsbD_window bs i (Nat.lt_of_lt_of_le hi hlen)
  rw [h, List.getElem?_eq_getElem hi, BitVec.getMsbD_zero] at hbit
  exact hbit.symm

/-- A step undoes a shift down that loses no bit. -/
theorem step_ushiftRight (g : BitVec w) {r : BitVec w} (h : r.getLsbD 0 = false) : step g (r >>> 1) = r := by
  have hmsb : (r >>> 1).msb = false := by
    rw [BitVec.msb_ushiftRight]
    rfl
  rw [step_eq, hmsb]
  apply BitVec.eq_of_getLsbD_eq
  intro i hi
  rw [BitVec.getLsbD_xor, BitVec.getLsbD_shiftLeft, BitVec.getLsbD_ushiftRight]
  cases i with
  | zero   => simp [sel, h]
  | succ i => simp [sel, hi, Nat.add_comm 1 i]

/-- **As long as the register is wide the message may be added at once**, before all steps. -/
theorem feed_window (g : BitVec w) : ∀ (bs : List Bool) (r : BitVec w), bs.length ≤ w →
    feed g r bs = (step g)^[bs.length] (r ^^^ window bs)
  | [], r, _      => by simp [feed, window]
  | b :: bs, r, h => by
    rw [List.length_cons] at h
    have ih := feed_window g bs (push g r b) (by omega)
    have hlow : (window bs : BitVec w).getLsbD 0 = false := by
      have hlast : w - 1 < w := by omega
      have hbit := getMsbD_window bs (w - 1) hlast
      rw [List.getElem?_eq_none (show bs.length ≤ w - 1 by omega), BitVec.getMsbD_eq_getLsbD] at hbit
      simpa [hlast] using hbit
    show feed g (push g r b) bs = _
    rw [ih, push_eq, List.length_cons, Function.iterate_succ_apply, window, ← BitVec.xor_assoc]
    congr 1
    rw [step_xor g (r ^^^ sel b (top w)), step_ushiftRight g hlow]

/-- **A burst is detected**: no message of zeros but for `w` bits in a row leaves an empty register, unless it is all
zeros. -/
theorem feed_burst {g : BitVec w} (hg : g.getLsbD 0 = true) {bits : List Bool} {s : Nat}
    (hin : ∀ k, bits[k]? = some true → s ≤ k ∧ k < s + w) (h : feed g 0#w bits = 0#w) : ∀ b ∈ bits, b = false := by
  have hzeros : ∀ l : List Bool, (∀ b ∈ l, b = false) → l = List.replicate l.length false := fun l hl =>
    List.eq_replicate_length.2 hl
  have hmid : ((bits.drop s).take w).length ≤ w := by
    rw [List.length_take]
    exact Nat.min_le_left _ _
  -- what precedes the burst, and what follows it
  have hpre : ∀ b ∈ bits.take s, b = false := by
    intro b hb
    obtain ⟨k, hk, rfl⟩ := List.getElem_of_mem hb
    rw [List.length_take] at hk
    rw [List.getElem_take]
    cases hbit : bits[k] with
    | false => rfl
    | true =>
      have := hin k (List.getElem?_eq_some_iff.2 ⟨by omega, hbit⟩)
      omega
  have hpost : ∀ b ∈ (bits.drop s).drop w, b = false := by
    intro b hb
    obtain ⟨k, hk, rfl⟩ := List.getElem_of_mem hb
    rw [List.length_drop, List.length_drop] at hk
    rw [List.getElem_drop, List.getElem_drop]
    cases hbit : bits[s + (w + k)] with
    | false => rfl
    | true =>
      have := hin (s + (w + k)) (List.getElem?_eq_some_iff.2 ⟨by omega, hbit⟩)
      omega
  have hsplit : bits = bits.take s ++ (bits.drop s).take w ++ (bits.drop s).drop w := by
    rw [List.append_assoc, List.take_append_drop, List.take_append_drop]
  have hburst : window ((bits.drop s).take w) = 0#w := by
    rw [hsplit, feed_append, feed_append, hzeros _ hpost, feed_zeros, hzeros _ hpre, feed_zeros, iterate_zero,
      feed_window g _ _ hmid, BitVec.zero_xor] at h
    exact iterate_eq_zero hg (iterate_eq_zero hg h)
  intro b hb
  rw [hsplit, List.mem_append, List.mem_append] at hb
  rcases hb with (hb | hb) | hb
  · exact hpre b hb
  · exact window_eq_zero hmid hburst b hb
  · exact hpost b hb

/-! ## An odd number of bits -/

def bit (b : Bool) : ZMod 2 := if b then 1 else 0

theorem bit_xor (a b : Bool) : bit (a ^^ b) = bit a + bit b := by cases a <;> cases b <;> rfl

/-- The parity of the number of bits that are set. -/
def parity (r : BitVec w) : ZMod 2 := ∑ i ∈ range w, bit (r.getLsbD i)

theorem parity_xor (r s : BitVec w) : parity (r ^^^ s) = parity r + parity s := by
  unfold parity
  rw [← sum_add_distrib]
  exact sum_congr rfl (fun i _ => by rw [BitVec.getLsbD_xor, bit_xor])

@[simp] theorem parity_zero : parity 0#w = 0 := by
  unfold parity
  exact sum_eq_zero (fun i _ => by rw [BitVec.getLsbD_zero]; rfl)

theorem parity_sel (b : Bool) (c : BitVec w) : parity (sel b c) = bit b * parity c := by
  cases b <;> simp [sel, bit]

theorem parity_top (hw : 0 < w) : parity (top w) = 1 := by
  unfold parity top
  rw [sum_eq_single (w - 1)]
  · rw [BitVec.getLsbD_twoPow]
    simp [bit, hw]
  · intro i _ hne
    rw [BitVec.getLsbD_twoPow]
    simp [bit, Ne.symm hne]
  · intro hn
    exact absurd (mem_range.2 (by omega)) hn

theorem parity_shiftLeft (r : BitVec w) : parity (r <<< 1) + bit r.msb = parity r := by
  cases w with
  | zero   => simp [parity, bit, BitVec.msb_eq_getLsbD_last]
  | succ n =>
    unfold parity
    rw [sum_range_succ', sum_range_succ]
    have hlow : bit ((r <<< 1).getLsbD 0) = 0 := by
      rw [BitVec.getLsbD_shiftLeft]
      simp [bit]
    have hup : ∀ i ∈ range n, bit ((r <<< 1).getLsbD (i + 1)) = bit (r.getLsbD i) := fun i hi => by
      have := mem_range.1 hi
      rw [BitVec.getLsbD_shiftLeft]
      simp [this]
    rw [hlow, add_zero, sum_congr rfl hup, BitVec.msb_eq_getLsbD_last]
    rfl

/-- With an odd number of lower coefficients a step keeps the parity. -/
theorem parity_step {g : BitVec w} (hg : parity g = 1) (r : BitVec w) : parity (step g r) = parity r := by
  rw [step_eq, parity_xor, parity_sel, hg, mul_one, parity_shiftLeft]

theorem parity_feed {g : BitVec w} (hw : 0 < w) (hg : parity g = 1) : ∀ (bits : List Bool) (r : BitVec w),
    parity (feed g r bits) = parity r + (bits.count true : ZMod 2)
  | [], r        => by simp [feed]
  | b :: bits, r => by
    have ih := parity_feed hw hg bits (push g r b)
    show parity (feed g (push g r b) bits) = _
    rw [ih, push_eq, parity_step hg, parity_xor, parity_sel, parity_top hw, mul_one, add_assoc]
    congr 1
    cases b with
    | false => simp [bit]
    | true =>
      rw [List.count_cons_self, Nat.cast_add, Nat.cast_one, add_comm]
      rfl

/-- **An odd number of bits is detected.** -/
theorem feed_odd {g : BitVec w} (hw : 0 < w) (hg : parity g = 1) {bits : List Bool} (h : feed g 0#w bits = 0#w) :
    Even (bits.count true) := by
  have hpar := parity_feed hw hg bits 0#w
  rw [h, parity_zero, zero_add] at hpar
  exact (ZMod.natCast_eq_zero_iff_even).1 hpar.symm

/-! ## Two bits -/

/-- The register is never `t` within `n` steps from `r`. -/
def avoids (g t : BitVec w) : Nat → BitVec w → Bool
  | 0, _     => true
  | n + 1, r => if step g r = t then false else avoids g t n (step g r)

theorem avoids_iterate {g t : BitVec w} : ∀ {n : Nat} {r : BitVec w}, avoids g t n r = true → ∀ d, 0 < d → d ≤ n →
    (step g)^[d] r ≠ t
  | 0, r, _, d, hpos, hle     => by omega
  | n + 1, r, h, d, hpos, hle => by
    rw [avoids] at h
    split at h
    · cases h
    · rename_i hne
      obtain ⟨d, rfl⟩ := Nat.exists_eq_succ_of_ne_zero (Nat.pos_iff_ne_zero.1 hpos)
      rw [Function.iterate_succ_apply]
      cases d with
      | zero   => exact hne
      | succ d => exact avoids_iterate h (d + 1) (Nat.succ_pos d) (by omega)

/-- The first bit that is set. -/
theorem exists_first : ∀ {bits : List Bool} {n : Nat}, bits.count true = n + 1 →
    ∃ a rest, bits = List.replicate a false ++ true :: rest ∧ rest.count true = n
  | [], n, h           => by simp at h
  | true :: bits, n, h => ⟨0, bits, rfl, by rwa [List.count_cons_self, Nat.add_right_cancel_iff] at h⟩
  | false :: bits, n, h => by
    have hcount : bits.count true = n + 1 := by simpa using h
    obtain ⟨a, rest, rfl, hrest⟩ := exists_first hcount
    exact ⟨a + 1, rest, rfl, hrest⟩

theorem eq_zeros {bits : List Bool} (h : bits.count true = 0) : bits = List.replicate bits.length false :=
  List.eq_replicate_length.2 (fun b hb => by
    cases b with
    | false => rfl
    | true  => exact absurd hb (List.count_eq_zero.1 h))

/-- **Two bits are detected** that are nearer to each other than the order of the top bit. -/
theorem feed_two {g : BitVec w} (hg : g.getLsbD 0 = true) {bits : List Bool} {n : Nat}
    (horder : ∀ d, 0 < d → d < n → (step g)^[d] (top w) ≠ top w) (hn : bits.length ≤ n) (hcount : bits.count true = 2) :
    feed g 0#w bits ≠ 0#w := by
  obtain ⟨a, rest, rfl, hrest⟩ := exists_first hcount
  obtain ⟨b, last, rfl, hlast⟩ := exists_first hrest
  intro h
  rw [eq_zeros hlast] at h
  have hpush : ∀ r, push g r true = step g (r ^^^ top w) := fun r => push_eq g r true
  have hcons : ∀ r bits, feed g r (true :: bits) = feed g (push g r true) bits := fun _ _ => rfl
  rw [feed_append, feed_zeros, iterate_zero, hcons, feed_append, feed_zeros, hcons, feed_zeros, hpush, hpush,
    BitVec.zero_xor] at h
  have hret := eq_zero_of_step hg (iterate_eq_zero hg h)
  rw [← Function.iterate_succ_apply] at hret
  refine horder (b + 1) (Nat.succ_pos b) ?_ (xor_eq_zero hret)
  simp only [List.length_append, List.length_replicate, List.length_cons] at hn
  omega

/-- **At most three bits are detected.** -/
theorem feed_few {g : BitVec w} (hg : g.getLsbD 0 = true) (hodd : parity g = 1) {bits : List Bool} {n : Nat}
    (horder : ∀ d, 0 < d → d < n → (step g)^[d] (top w) ≠ top w) (hn : bits.length ≤ n) (hpos : 0 < bits.count true)
    (hfew : bits.count true ≤ 3) : feed g 0#w bits ≠ 0#w := by
  intro h
  have heven := feed_odd (width_pos hg) hodd h
  have htwo : bits.count true = 2 := by
    obtain ⟨k, hk⟩ := heven
    omega
  exact feed_two hg horder hn htwo h

end ShiftReg
