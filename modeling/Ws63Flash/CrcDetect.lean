import Ws63Flash.CrcBits
import Ws63Flash.Fwpkg
/-!
# CrcDetect — damage that `fwpkg_read_header` detects

A burst of up to sixteen bits, or up to three bits anywhere, in the bytes of a package that its checksum covers
(`fwpkgReadHeader_detects`).  What follows a row of bits depends on how the bits of a byte are counted; the checksum
takes the most significant first, and it detects a burst in either order.
-/
namespace Ws63Flash

open Octets ShiftReg

/-! ## Altered bits -/

/-- How the bits of a byte are counted. -/
inductive BitOrder where
  | msbFirst
  | lsbFirst
deriving DecidableEq

def BitOrder.bits : BitOrder → UInt8 → List Bool
  | .msbFirst, b => byteBits b
  | .lsbFirst, b => (byteBits b).reverse

/-- The bits of a file. -/
def fileBits (o : BitOrder) (f : List UInt8) : List Bool := f.flatMap o.bits

/-- The numbers of the bits in which `f'` differs from `f`. -/
def altered (o : BitOrder) (f f' : List UInt8) : List Nat :=
  (List.range (8 * f.length)).filter (fun k => (fileBits o f)[k]? ≠ (fileBits o f')[k]?)

/-- The bits lie in a row of sixteen, or they are at most three. -/
def Few (ks : List Nat) : Prop := (∃ s, ∀ k ∈ ks, s ≤ k ∧ k < s + 16) ∨ ks.length ≤ 3

/-- The bytes' exclusive or: its bits are those that differ. -/
def diff (f f' : List UInt8) : List UInt8 := List.zipWith (· ^^^ ·) f f'

theorem diff_length {f f' : List UInt8} (h : f.length = f'.length) : (diff f f').length = f.length := by
  rw [diff, List.length_zipWith, ← h, Nat.min_self]

@[simp] theorem BitOrder.bits_length (o : BitOrder) (b : UInt8) : (o.bits b).length = 8 := by
  cases o with
  | msbFirst => exact byteBits_length b
  | lsbFirst => exact (List.length_reverse).trans (byteBits_length b)

theorem fileBits_cons (o : BitOrder) (b : UInt8) (f : List UInt8) : fileBits o (b :: f) = o.bits b ++ fileBits o f :=
  List.flatMap_cons

@[simp] theorem fileBits_length (o : BitOrder) : ∀ f : List UInt8, (fileBits o f).length = 8 * f.length
  | []     => rfl
  | b :: f => by
    rw [fileBits_cons, List.length_append, fileBits_length o f, BitOrder.bits_length, List.length_cons]
    omega

/-- The bit `j` of the byte `i`. -/
theorem getElem?_fileBits (o : BitOrder) : ∀ (f : List UInt8) (i j : Nat), j < 8 →
    (fileBits o f)[8 * i + j]? = f[i]?.bind (fun b => (o.bits b)[j]?)
  | [], i, j, _          => by simp [fileBits]
  | b :: f, 0, j, hj     => by
    rw [fileBits_cons, List.getElem?_append_left (by rw [BitOrder.bits_length]; omega), Nat.mul_zero, Nat.zero_add]
    rfl
  | b :: f, i + 1, j, hj => by
    have ih := getElem?_fileBits o f i j hj
    rw [fileBits_cons, List.getElem?_append_right (by rw [BitOrder.bits_length]; omega), BitOrder.bits_length,
      show 8 * (i + 1) + j - 8 = 8 * i + j by omega, ih]
    rfl

theorem BitOrder.bits_xor (o : BitOrder) (a b : UInt8) : o.bits (a ^^^ b) = List.zipWith xor (o.bits a) (o.bits b) := by
  cases o with
  | msbFirst => exact byteBits_xor a b
  | lsbFirst =>
    show (byteBits (a ^^^ b)).reverse = _
    rw [byteBits_xor, List.reverse_zipWith (by rw [byteBits_length, byteBits_length])]
    rfl

theorem fileBits_diff (o : BitOrder) : ∀ f f' : List UInt8, f.length = f'.length →
    fileBits o (diff f f') = List.zipWith xor (fileBits o f) (fileBits o f')
  | [], [], _            => rfl
  | b :: f, b' :: f', h => by
    have ih := fileBits_diff o f f' (Nat.succ.inj h)
    show fileBits o ((b ^^^ b') :: diff f f') = _
    rw [fileBits_cons, fileBits_cons, fileBits_cons, BitOrder.bits_xor, ih,
      List.zipWith_append (by rw [BitOrder.bits_length, BitOrder.bits_length])]

theorem mem_altered {o : BitOrder} {f f' : List UInt8} (h : f.length = f'.length) {k : Nat} :
    k ∈ altered o f f' ↔ (fileBits o (diff f f'))[k]? = some true := by
  have hdiff : ∀ a b : Bool, a ≠ b ↔ (a ^^ b) = true := by decide
  unfold altered
  rw [List.mem_filter, List.mem_range, fileBits_diff o f f' h, decide_eq_true_eq]
  by_cases hk : k < 8 * f.length
  · have h1 : k < (fileBits o f).length := by rw [fileBits_length]; exact hk
    have h2 : k < (fileBits o f').length := by rw [fileBits_length, ← h]; exact hk
    have hbit : (List.zipWith xor (fileBits o f) (fileBits o f'))[k]?
        = some ((fileBits o f)[k] ^^ (fileBits o f')[k]) := by
      rw [List.getElem?_zipWith, List.getElem?_eq_getElem h1, List.getElem?_eq_getElem h2]
    rw [hbit, List.getElem?_eq_getElem h1, List.getElem?_eq_getElem h2, and_iff_right hk, ne_eq, Option.some_inj,
      Option.some_inj]
    exact hdiff _ _
  · have hbit : (List.zipWith xor (fileBits o f) (fileBits o f'))[k]? = none := by
      refine List.getElem?_eq_none ?_
      rw [List.length_zipWith, fileBits_length, fileBits_length, ← h]
      omega
    rw [hbit]
    exact ⟨fun hn => absurd hn.1 hk, fun hn => by cases hn⟩

/-! ## How many they are -/

/-- The numbers of the bits that are set are as many as the bits. -/
theorem length_filter_range : ∀ l : List Bool,
    ((List.range l.length).filter (fun k => l[k]? = some true)).length = l.count true
  | []     => rfl
  | b :: l => by
    have ih := length_filter_range l
    have hrest : (List.filter (fun k => decide ((b :: l)[k]? = some true)) ((List.range l.length).map Nat.succ)).length
        = l.count true := by
      rw [List.filter_map, List.length_map, ← ih]
      rfl
    rw [List.length_cons, List.range_succ_eq_map, List.filter_cons]
    cases b with
    | true  => rw [if_pos (by simp), List.length_cons, hrest, List.count_cons_self]
    | false => rw [if_neg (by simp), hrest, List.count_cons_of_ne (by decide)]

/-- The byte of an altered bit is another one. -/
theorem altered_byte_ne {o : BitOrder} {f f' : List UInt8} {k : Nat} (hk : k ∈ altered o f f') :
    k / 8 < f.length ∧ f[k / 8]? ≠ f'[k / 8]? := by
  obtain ⟨hlt, hbit⟩ := List.mem_filter.1 hk
  have hlt := List.mem_range.1 hlt
  refine ⟨by omega, fun heq => of_decide_eq_true hbit ?_⟩
  rw [← Nat.div_add_mod k 8, getElem?_fileBits _ _ _ _ (Nat.mod_lt k (by decide)),
    getElem?_fileBits _ _ _ _ (Nat.mod_lt k (by decide)), heq]

theorem altered_length {o : BitOrder} {f f' : List UInt8} (h : f.length = f'.length) :
    (altered o f f').length = (fileBits o (diff f f')).count true := by
  have hsame : altered o f f' = (List.range (fileBits o (diff f f')).length).filter
      (fun k => (fileBits o (diff f f'))[k]? = some true) := by
    rw [fileBits_length, diff_length h]
    refine List.filter_congr (fun k hk => ?_)
    have hmem := mem_altered (o := o) h (k := k)
    unfold altered at hmem
    rw [List.mem_filter, and_iff_right hk, decide_eq_true_eq] at hmem
    exact decide_eq_decide.2 hmem
  rw [hsame, length_filter_range]

/-- The order of the bits does not change how many are set. -/
theorem count_fileBits (o : BitOrder) : ∀ f : List UInt8, (fileBits o f).count true = (f.flatMap byteBits).count true
  | []     => rfl
  | b :: f => by
    have hb : (o.bits b).count true = (byteBits b).count true := by
      cases o with
      | msbFirst => rfl
      | lsbFirst => exact List.count_reverse
    rw [fileBits_cons, List.flatMap_cons, List.count_append, List.count_append, hb, count_fileBits o f]

/-! ## What the checksum makes of them -/

theorem toBitVec_xor_eq {a b : UInt16} : a = b ↔ a.toBitVec ^^^ b.toBitVec = 0#16 := by
  rw [← UInt16.toBitVec_inj]
  constructor
  · intro h
    rw [h, BitVec.xor_self]
  · exact xor_eq_zero

/-- **The checksum is linear**: equal checksums, and the differing bits leave an empty register. -/
theorem crc_eq_iff {f f' : List UInt8} (h : f.length = f'.length) :
    crc16Xmodem f = crc16Xmodem f' ↔ feed crcPoly 0#16 ((diff f f').flatMap byteBits) = 0#16 := by
  have hbits := fileBits_diff .msbFirst f f' h
  have hxor := feed_xor crcPoly (fileBits .msbFirst f) (fileBits .msbFirst f') 0#16 0#16 (by simp [h])
  rw [BitVec.xor_zero, ← hbits] at hxor
  rw [toBitVec_xor_eq, crc16Xmodem_bits, crc16Xmodem_bits]
  show feed crcPoly 0#16 (fileBits .msbFirst f) ^^^ feed crcPoly 0#16 (fileBits .msbFirst f') = 0#16 ↔
    feed crcPoly 0#16 (fileBits .msbFirst (diff f f')) = 0#16
  rw [hxor]

theorem crcPoly_low : crcPoly.getLsbD 0 = true := by decide

theorem crcPoly_parity : parity crcPoly = 1 := by decide

/-- Longer than the checksum of any table, and than a block: 1026 bytes of eight bits. -/
theorem crcPoly_order : ∀ d, 0 < d → d < 8209 → (step crcPoly)^[d] (top 16) ≠ top 16 := by
  have havoids : avoids crcPoly (top 16) 8208 (top 16) = true := by decide +kernel
  exact fun d hpos hlt => avoids_iterate havoids d hpos (Nat.le_of_lt_succ hlt)

/-! ## A burst counted from the least significant bit -/

/-- A bit of a byte, counted from the least significant. -/
theorem bits_lsbFirst (b : UInt8) {j : Nat} (hj : j < 8) : (BitOrder.lsbFirst.bits b)[j]? = some (b.toBitVec.getLsbD j) := by
  show (byteBits b).reverse[j]? = _
  have h7 : 8 - 1 - j < 8 := by omega
  rw [List.getElem?_reverse (by rw [byteBits_length]; exact hj), byteBits_length, byteBits, List.getElem?_map,
    List.getElem?_range h7, Option.map_some, BitVec.getMsbD_eq_getLsbD, decide_eq_true h7, Bool.true_and,
    show 8 - 1 - (8 - 1 - j) = j by omega]

theorem eq_zero_of_bits {b : UInt8} (h : ∀ j < 8, b.toBitVec.getLsbD j = false) : b = 0 := by
  apply UInt8.toBitVec_inj.1
  apply BitVec.eq_of_getLsbD_eq
  intro j hj
  rw [h j hj]
  simp

theorem flatMap_zeros {f : List UInt8} (h : ∀ b ∈ f, b = 0) : f.flatMap byteBits = List.replicate (8 * f.length) false := by
  have hzero : byteBits 0 = List.replicate 8 false := by decide
  induction f with
  | nil => rfl
  | cons b f ih =>
    rw [List.flatMap_cons, h b List.mem_cons_self, hzero, ih (fun b' hb => h b' (List.mem_cons_of_mem _ hb)),
      List.replicate_append_replicate, List.length_cons]
    congr 1
    omega

/-- Three bytes that leave an empty register: the last two are the checksum of the first. -/
theorem feed_three {a b c : UInt8} (h : feed crcPoly 0#16 ([a, b, c].flatMap byteBits) = 0#16) :
    (∀ j < 8, b.toBitVec.getLsbD j = (feed crcPoly 0#16 (byteBits a)).getLsbD (8 + j)) ∧
    (∀ j < 8, c.toBitVec.getLsbD j = (feed crcPoly 0#16 (byteBits a)).getLsbD j) := by
  have hlen : (byteBits b ++ byteBits c).length = 16 := by
    rw [List.length_append, byteBits_length, byteBits_length]
  have hsplit : [a, b, c].flatMap byteBits = byteBits a ++ (byteBits b ++ byteBits c) := by
    simp only [List.flatMap_cons, List.flatMap_nil, List.append_nil]
  rw [hsplit, feed_append, feed_window crcPoly _ _ (Nat.le_of_eq hlen)] at h
  have hreg := xor_eq_zero (iterate_eq_zero crcPoly_low h)
  have hbit : ∀ i < 16, (feed crcPoly 0#16 (byteBits a)).getMsbD i = (byteBits b ++ byteBits c)[i]?.getD false :=
    fun i hi => by rw [hreg, getMsbD_window _ i hi]
  have hbyte : ∀ (x : UInt8) (j : Nat), j < 8 → (byteBits x)[7 - j]?.getD false = x.toBitVec.getLsbD j := fun x j hj => by
    have hrev := bits_lsbFirst x hj
    rw [show BitOrder.lsbFirst.bits x = (byteBits x).reverse from rfl,
      List.getElem?_reverse (by rw [byteBits_length]; exact hj), byteBits_length] at hrev
    rw [show 7 - j = 8 - 1 - j by omega, hrev]
    rfl
  constructor
  · intro j hj
    have := hbit (7 - j) (by omega)
    rw [List.getElem?_append_left (by rw [byteBits_length]; omega), hbyte b j hj, BitVec.getMsbD_eq_getLsbD,
      decide_eq_true (show 7 - j < 16 by omega), Bool.true_and, show 16 - 1 - (7 - j) = 8 + j by omega] at this
    exact this.symm
  · intro j hj
    have := hbit (15 - j) (by omega)
    rw [List.getElem?_append_right (by rw [byteBits_length]; omega), byteBits_length, show 15 - j - 8 = 7 - j by omega,
      hbyte c j hj, BitVec.getMsbD_eq_getLsbD, decide_eq_true (show 15 - j < 16 by omega), Bool.true_and,
      show 16 - 1 - (15 - j) = j by omega] at this
    exact this.symm

/-- A byte and the lower half of its checksum do not fit sixteen bits in a row. -/
theorem byte_burst (a : UInt8) (t : Nat) (ht : t < 8) (hlow : ∀ j < t, a.toBitVec.getLsbD j = false)
    (hhigh : ∀ j < 8, t ≤ j → (feed crcPoly 0#16 (byteBits a)).getLsbD j = false) : a = 0 := by
  have hall : ∀ (i : Fin 256) (t : Fin 8), (∀ j < t.val, (UInt8.ofFin i).toBitVec.getLsbD j = false) →
      (∀ j < 8, t.val ≤ j → (feed crcPoly 0#16 (byteBits (UInt8.ofFin i))).getLsbD j = false) → UInt8.ofFin i = 0 := by
    decide +kernel
  exact hall a.toFin ⟨t, ht⟩ hlow hhigh

/-- Three bytes with sixteen bits in a row: they are zeros. -/
theorem three_burst {a b c : UInt8} {t : Nat} (ht : t < 8) (hlow : ∀ j < t, a.toBitVec.getLsbD j = false)
    (hhigh : ∀ j < 8, t ≤ j → c.toBitVec.getLsbD j = false)
    (h : feed crcPoly 0#16 ([a, b, c].flatMap byteBits) = 0#16) : a = 0 ∧ b = 0 ∧ c = 0 := by
  have hempty : feed crcPoly 0#16 (byteBits 0) = 0#16 := by decide
  obtain ⟨hb, hc⟩ := feed_three h
  have ha : a = 0 := byte_burst a t ht hlow (fun j hj hle => by rw [← hc j hj]; exact hhigh j hj hle)
  rw [ha, hempty] at hb hc
  refine ⟨ha, eq_zero_of_bits (fun j hj => ?_), eq_zero_of_bits (fun j hj => ?_)⟩
  · rw [hb j hj, BitVec.getLsbD_zero]
  · rw [hc j hj, BitVec.getLsbD_zero]

theorem burst_lsbFirst {f : List UInt8} {s : Nat}
    (hin : ∀ k, (fileBits .lsbFirst f)[k]? = some true → s ≤ k ∧ k < s + 16)
    (h : feed crcPoly 0#16 (f.flatMap byteBits) = 0#16) : ∀ b ∈ f, b = 0 := by
  -- the bits of the byte `i`
  have hbit : ∀ i b j, f[i]? = some b → j < 8 → ¬ (s ≤ 8 * i + j ∧ 8 * i + j < s + 16) → b.toBitVec.getLsbD j = false := by
    intro i b j hb hj hout
    cases hset : b.toBitVec.getLsbD j with
    | false => rfl
    | true =>
      refine absurd (hin (8 * i + j) ?_) hout
      rw [getElem?_fileBits _ f i j hj, hb, Option.bind_some, bits_lsbFirst b hj, hset]
  have houter : ∀ i b, f[i]? = some b → i < s / 8 ∨ s / 8 + 2 < i → b = 0 := fun i b hb hi =>
    eq_zero_of_bits (fun j hj => hbit i b j hb hj (by omega))
  have hpre : ∀ b ∈ f.take (s / 8), b = 0 := by
    intro b hb
    obtain ⟨i, hi, rfl⟩ := List.getElem_of_mem hb
    rw [List.length_take] at hi
    rw [List.getElem_take]
    exact houter i _ (List.getElem?_eq_getElem (by omega)) (Or.inl (by omega))
  -- the bytes from the burst on, with zeros after the last
  have hget : ∀ i b, (f.drop (s / 8) ++ [0, 0, 0])[i]? = some b → b = 0 ∨ f[s / 8 + i]? = some b := by
    intro i b hb
    by_cases hi : i < (f.drop (s / 8)).length
    · rw [List.getElem?_append_left hi, List.getElem?_drop] at hb
      exact Or.inr hb
    · rw [List.getElem?_append_right (Nat.le_of_not_lt hi)] at hb
      exact Or.inl (by simpa using List.mem_of_getElem? hb)
  have hfeed : feed crcPoly 0#16 ((f.drop (s / 8) ++ [0, 0, 0]).flatMap byteBits) = 0#16 := by
    rw [← List.take_append_drop (s / 8) f, List.flatMap_append, feed_append, flatMap_zeros hpre, feed_zeros,
      iterate_zero] at h
    rw [List.flatMap_append, feed_append, h, flatMap_zeros (by simp), feed_zeros, iterate_zero]
  have hzero : ∀ b ∈ f.drop (s / 8) ++ [0, 0, 0], b = 0 := by
    obtain ⟨a, b, c, rest, hl⟩ : ∃ a b c rest, f.drop (s / 8) ++ [0, 0, 0] = a :: b :: c :: rest := by
      rcases f.drop (s / 8) with _ | ⟨x, _ | ⟨y, _ | ⟨z, r⟩⟩⟩ <;> exact ⟨_, _, _, _, rfl⟩
    rw [hl] at hget hfeed ⊢
    have hzbit : ∀ j, (0 : UInt8).toBitVec.getLsbD j = false := fun j => BitVec.getLsbD_zero
    have hrest : ∀ b ∈ rest, b = 0 := by
      intro x hx
      obtain ⟨i, hi, rfl⟩ := List.getElem_of_mem hx
      refine (hget (i + 3) rest[i] (List.getElem?_eq_getElem hi)).elim id (fun hf => ?_)
      exact houter _ _ hf (Or.inr (by omega))
    have hlow : ∀ j < s % 8, a.toBitVec.getLsbD j = false := by
      intro j hj
      rcases hget 0 a rfl with rfl | ha
      · exact hzbit j
      · exact hbit _ a j ha (by omega) (by omega)
    have hhigh : ∀ j < 8, s % 8 ≤ j → c.toBitVec.getLsbD j = false := by
      intro j hj hle
      rcases hget 2 c rfl with rfl | hc
      · exact hzbit j
      · exact hbit _ c j hc hj (by omega)
    have hthree : feed crcPoly 0#16 ([a, b, c].flatMap byteBits) = 0#16 := by
      rw [show a :: b :: c :: rest = [a, b, c] ++ rest from rfl, List.flatMap_append, feed_append, flatMap_zeros hrest,
        feed_zeros] at hfeed
      exact iterate_eq_zero crcPoly_low hfeed
    obtain ⟨rfl, rfl, rfl⟩ := three_burst (Nat.mod_lt s (by decide)) hlow hhigh hthree
    simpa using hrest
  intro b hb
  rw [← List.take_append_drop (s / 8) f, List.mem_append] at hb
  exact hb.elim (hpre b) (fun hb => hzero b (List.mem_append_left _ hb))

/-! ## Detection -/

/-- **`crc16_xmodem` detects** a row of sixteen altered bits, and up to three altered bits, in texts of up to 1026
bytes. -/
theorem crc16Xmodem_detects (o : BitOrder) {f f' : List UInt8} (h : f.length = f'.length) (hlen : f.length ≤ 1026)
    (hne : altered o f f' ≠ []) (hfew : Few (altered o f f')) : crc16Xmodem f ≠ crc16Xmodem f' := by
  intro hcrc
  have hfeed := (crc_eq_iff h).1 hcrc
  obtain ⟨k, hk⟩ := List.exists_mem_of_ne_nil _ hne
  have hset := (mem_altered h).1 hk
  rcases hfew with ⟨s, hrow⟩ | hcount
  · have hin : ∀ k, (fileBits o (diff f f'))[k]? = some true → s ≤ k ∧ k < s + 16 :=
      fun k hk => hrow k ((mem_altered h).2 hk)
    cases o with
    | msbFirst =>
      have := feed_burst crcPoly_low hin hfeed true (List.mem_of_getElem? hset)
      cases this
    | lsbFirst =>
      have hbytes := burst_lsbFirst hin hfeed
      have hbits : ∀ b ∈ fileBits .lsbFirst (diff f f'), b = false := by
        intro b hb
        obtain ⟨x, hx, hbx⟩ := List.mem_flatMap.1 hb
        rw [hbytes x hx] at hbx
        have hall : ∀ b ∈ BitOrder.lsbFirst.bits 0, b = false := by decide
        exact hall b hbx
      have := hbits true (List.mem_of_getElem? hset)
      cases this
  · rw [altered_length h, count_fileBits] at hcount
    have hpos : 0 < ((diff f f').flatMap byteBits).count true := by
      rw [← count_fileBits o, List.count_pos_iff]
      exact List.mem_of_getElem? hset
    refine feed_few crcPoly_low crcPoly_parity crcPoly_order ?_ hpos hcount hfeed
    have hbits := fileBits_length .msbFirst (diff f f')
    rw [diff_length h] at hbits
    show (fileBits .msbFirst (diff f f')).length ≤ _
    omega

/-! ## Packages -/

theorem mem_altered_slice {o : BitOrder} {f f' : List UInt8} (h : f.length = f'.length) {a n k : Nat} :
    k ∈ altered o (slice f a n) (slice f' a n) ↔ k < 8 * n ∧ 8 * a + k ∈ altered o f f' := by
  have hslice : diff (slice f a n) (slice f' a n) = slice (diff f f') a n := by
    unfold diff slice
    rw [List.drop_zipWith, List.take_zipWith]
  have hlen : (slice f a n).length = (slice f' a n).length := by
    unfold slice
    rw [List.length_take, List.length_take, List.length_drop, List.length_drop, h]
  have hk : k = 8 * (k / 8) + k % 8 := by omega
  have hk' : 8 * a + k = 8 * (a + k / 8) + k % 8 := by omega
  rw [mem_altered hlen, mem_altered h, hslice, hk', getElem?_fileBits _ _ _ _ (Nat.mod_lt k (by decide)), hk,
    getElem?_fileBits _ _ _ _ (by omega), ← hk, slice, List.getElem?_take]
  by_cases hlt : k < 8 * n
  · rw [if_pos (by omega), List.getElem?_drop, and_iff_right hlt]
  · rw [if_neg (by omega)]
    constructor
    · intro hn
      cases hn
    · exact fun hn => absurd hn.1 hlt

theorem Few.slice {o : BitOrder} {f f' : List UInt8} (h : f.length = f'.length) (a n : Nat) (hfew : Few (altered o f f')) :
    Few (altered o (slice f a n) (slice f' a n)) := by
  rcases hfew with ⟨s, hrow⟩ | hcount
  · refine Or.inl ⟨s - 8 * a, fun k hk => ?_⟩
    have := hrow _ ((mem_altered_slice h).1 hk).2
    omega
  · refine Or.inr (Nat.le_trans ?_ hcount)
    have hnodup : ((altered o (Octets.slice f a n) (Octets.slice f' a n)).map (8 * a + ·)).Nodup :=
      (List.nodup_range.filter _).map (fun _ _ heq => Nat.add_left_cancel heq)
    have hsub : (altered o (Octets.slice f a n) (Octets.slice f' a n)).map (8 * a + ·) ⊆ altered o f f' := by
      intro k hk
      obtain ⟨k', hk', rfl⟩ := List.mem_map.1 hk
      exact ((mem_altered_slice h).1 hk').2
    have := (hnodup.subperm hsub).length_le
    rwa [List.length_map] at this

/-- Bytes without an altered bit are the same. -/
theorem take_eq_of_altered {o : BitOrder} {f f' : List UInt8} (h : f.length = f'.length) {n : Nat}
    (hin : ∀ k ∈ altered o f f', 8 * n ≤ k) : f'.take n = f.take n := by
  have hzero : ∀ b : UInt8, (∀ j < 8, (o.bits b)[j]? ≠ some true) → b = 0 := by
    have hall : ∀ i : Fin 256, (∀ j < 8, (o.bits (UInt8.ofFin i))[j]? ≠ some true) → UInt8.ofFin i = 0 := by
      cases o <;> decide +kernel
    exact fun b => hall b.toFin
  refine List.ext_getElem (by rw [List.length_take, List.length_take, h]) (fun i hi' hi => ?_)
  rw [List.length_take] at hi hi'
  rw [List.getElem_take, List.getElem_take]
  have hdiff : (diff f f')[i]? = some (f[i] ^^^ f'[i]) := by
    rw [diff, List.getElem?_zipWith, List.getElem?_eq_getElem (show i < f.length by omega),
      List.getElem?_eq_getElem (show i < f'.length by omega)]
  have hxor : f[i] ^^^ f'[i] = 0 := by
    refine hzero _ (fun j hj hset => ?_)
    have hbit := getElem?_fileBits o (diff f f') i j hj
    rw [hdiff, Option.bind_some, hset] at hbit
    have := hin _ ((mem_altered h).2 hbit)
    omega
  exact (UInt8.xor_eq_zero_iff.1 hxor).symm

/-- **A damaged package is refused**: bits altered behind the count and within what the checksum covers, in a row of
sixteen or at most three of them. -/
theorem fwpkgReadHeader_detects (o : BitOrder) {f f' : List UInt8} {header : FwpkgHeader}
    (hacc : fwpkgReadHeader f = .ret (some header)) (hlen : f'.length = f.length)
    (hin : ∀ k ∈ altered o f f', 8 * 8 ≤ k ∧ k < 8 * (12 + 52 * header.cnt.toNat)) (hne : altered o f f' ≠ [])
    (hfew : (∃ s, ∀ k ∈ altered o f f', s ≤ k ∧ k < s + 16) ∨ (altered o f f').length ≤ 3) :
    fwpkgReadHeader f' = .ret none := by
  obtain ⟨hsize, rfl, hmgc, hcnt, hrecs, hcrc⟩ := fwpkgReadHeader_eq_some.1 hacc
  have htake : f'.take 8 = f.take 8 := take_eq_of_altered hlen.symm (fun k hk => (hin k hk).1)
  have hslice : ∀ off len, off + len ≤ 8 → slice f' off len = slice f off len := fun off len hle => by
    rw [← slice_take hle, htake, slice_take hle]
  have hhead : ∀ g : List UInt8, (FwpkgHeader.ofBytes g).mgc = ofLe32 (slice g 0 4) ∧
      (FwpkgHeader.ofBytes g).crc = ofLe16 (slice g 4 2) ∧ (FwpkgHeader.ofBytes g).cnt = ofLe16 (slice g 6 2) :=
    fun g => ⟨rfl, rfl, rfl⟩
  have hmgc' : (FwpkgHeader.ofBytes f').mgc = (FwpkgHeader.ofBytes f).mgc := by
    rw [(hhead f').1, (hhead f).1, hslice 0 4 (by decide)]
  have hcrc' : (FwpkgHeader.ofBytes f').crc = (FwpkgHeader.ofBytes f).crc := by
    rw [(hhead f').2.1, (hhead f).2.1, hslice 4 2 (by decide)]
  have hcnt' : (FwpkgHeader.ofBytes f').cnt = (FwpkgHeader.ofBytes f).cnt := by
    rw [(hhead f').2.2, (hhead f).2.2, hslice 6 2 (by decide)]
  generalize FwpkgHeader.ofBytes f = header at *
  have hroom : 12 + 52 * header.cnt.toNat ≤ f.length := (table_le hsize).1 hrecs
  have hregion : (slice f 6 (52 * header.cnt.toNat + 6)).length = 52 * header.cnt.toNat + 6 := slice_length (by omega)
  have hregion' : (slice f' 6 (52 * header.cnt.toNat + 6)).length = 52 * header.cnt.toNat + 6 := slice_length (by omega)
  have hdetect := crc16Xmodem_detects o (hregion.trans hregion'.symm)
    (by rw [hregion]; unfold MAX_PARTITION_CNT at hcnt; omega) ?_ (Few.slice hlen.symm 6 _ hfew)
  · unfold fwpkgReadHeader
    rw [if_neg (by rw [hlen]; omega)]
    dsimp only
    rw [hmgc', hcnt', hcrc', if_neg (fun hn => hn hmgc), if_neg (fun hn => hn hcnt)]
    split
    · rfl
    · rw [if_pos (fun heq => hdetect (hcrc.trans heq.symm))]
  · obtain ⟨k, hk⟩ := List.exists_mem_of_ne_nil _ hne
    obtain ⟨hlow, hhigh⟩ := hin k hk
    refine List.ne_nil_of_mem (a := k - 48) ((mem_altered_slice hlen.symm).2 ⟨by omega, ?_⟩)
    rwa [show 8 * 6 + (k - 48) = k by omega]

def soleBin : FwpkgBinInfo where
  name := padTo 32 [0x61]
  offset := 64
  length := 1
  burnAddr := 0x230000
  burnSize := 0x1000
  type2 := 1
  name_length := padTo_length (show 1 ≤ 32 by decide)

def soleHeader : FwpkgHeader := ⟨0xefbeaddf, 0xa874, 1, 65⟩

/-- A package with one record. -/
def solePkg : List UInt8 := soleHeader.bytes ++ soleBin.bytes ++ [0x41]

theorem solePkg_head : fwpkgReadHeader solePkg = .ret (some soleHeader) := by decide +kernel

/-- The upper half of its address inverted, a burst of sixteen bits. -/
def damagedPkg : List UInt8 := setRange solePkg 54 [0xdc, 0xff]

theorem fwpkgReadHeader_detects_record : fwpkgReadHeader damagedPkg = .ret none := by
  have hsame : ∀ i < solePkg.length, i < 54 ∨ 56 ≤ i → solePkg[i]? = damagedPkg[i]? := by decide +kernel
  have hburst : ∀ k ∈ altered .msbFirst solePkg damagedPkg, 432 ≤ k ∧ k < 448 := by
    intro k hk
    obtain ⟨hlt, hne⟩ := altered_byte_ne hk
    have hin : ¬ (k / 8 < 54 ∨ 56 ≤ k / 8) := fun hout => hne (hsame _ hlt hout)
    omega
  have hlen : damagedPkg.length = solePkg.length := by decide +kernel
  refine fwpkgReadHeader_detects .msbFirst solePkg_head hlen (fun k hk => ?_) ?_ (Or.inl ⟨432, hburst⟩)
  · obtain ⟨hlow, hhigh⟩ := hburst k hk
    have hcnt : soleHeader.cnt.toNat = 1 := rfl
    omega
  · exact List.ne_nil_of_mem (a := 432) ((mem_altered hlen.symm).2 (by decide +kernel))

end Ws63Flash
