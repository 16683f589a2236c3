import Ws63Flash.Lib.Fips180
import Ws63Flash.Sha256
/-!
# Sha256Block — `sha256_process_block` against the standard

The code keeps the working variables where they are and lets their names go round, and 16 words of the schedule in a
ring.  After 64 lines the names are back, and the words have been the schedule's (`blockPass_compress`).  The tables are
the roots of primes (`K_eq`, `initState_view`).
-/
namespace Ws63Flash

open Octets Absorb Fips180

/-! ## The functions of a round -/

theorem rol_eq (x n : UInt32) : rol x n = rotr x (32 - n) := by
  have hsub : 32 - (32 - n) = n := by grind
  rw [rol, rotr, hsub, UInt32.or_comm]

theorem S0_eq (x : UInt32) : S0 x = smallSigma0 x := by
  simp only [S0, rol_eq]
  rfl

theorem S1_eq (x : UInt32) : S1 x = smallSigma1 x := by
  simp only [S1, rol_eq]
  rfl

theorem SS0_eq (x : UInt32) : SS0 x = bigSigma0 x := by
  simp only [SS0, rol_eq]
  rfl

theorem SS1_eq (x : UInt32) : SS1 x = bigSigma1 x := by
  simp only [SS1, rol_eq]
  rfl

theorem F1_eq (e f g : UInt32) : F1 e f g = ch e f g := by
  apply UInt32.eq_of_toBitVec_eq
  ext i
  simp only [F1, ch, UInt32.toBitVec_xor, UInt32.toBitVec_and, UInt32.toBitVec_not, BitVec.getElem_xor, BitVec.getElem_and,
    BitVec.getElem_not]
  cases e.toBitVec[i] <;> cases f.toBitVec[i] <;> cases g.toBitVec[i] <;> rfl

theorem F2_eq (a b c : UInt32) : F2 a b c = maj a b c := by
  apply UInt32.eq_of_toBitVec_eq
  ext i
  simp only [F2, maj, UInt32.toBitVec_xor, UInt32.toBitVec_and, UInt32.toBitVec_or, BitVec.getElem_xor, BitVec.getElem_and,
    BitVec.getElem_or]
  cases a.toBitVec[i] <;> cases b.toBitVec[i] <;> cases c.toBitVec[i] <;> rfl

/-! ## The names that go round -/

/-- The variables `a` … `h` before the `t`-th line. -/
def view (t : Nat) (v : List UInt32) : Vars :=
  let reg := fun j => v.getD (regAt t j) 0
  ⟨reg 0, reg 1, reg 2, reg 3, reg 4, reg 5, reg 6, reg 7⟩

theorem getD_set (v : List UInt32) (i j : Nat) (x : UInt32) (h : i < v.length) :
    (v.set i x).getD j 0 = if i = j then x else v.getD j 0 := by
  rw [List.getD_eq_getElem?_getD, List.getElem?_set, List.getD_eq_getElem?_getD]
  by_cases hij : i = j
  · rw [if_pos hij, if_pos hij, if_pos h]
    rfl
  · rw [if_neg hij, if_neg hij]

theorem regAt_lt (t j : Nat) : regAt t j < 8 := Nat.mod_lt _ (by decide)

/-- The names move on by one place. -/
theorem regAt_succ (t j : Nat) : regAt (t + 1) (j + 1) = regAt t j := by
  simp only [regAt]
  omega

theorem regAt_succ_zero (t : Nat) : regAt (t + 1) 0 = regAt t 7 := by
  simp only [regAt]
  omega

theorem regAt_inj (t : Nat) {i j : Nat} (hi : i < 8) (hj : j < 8) : regAt t i = regAt t j ↔ i = j := by
  simp only [regAt]
  omega

@[simp] theorem R_length (v : List UInt32) (t : Nat) (k m : UInt32) : (R v t k m).length = v.length := by
  simp [R]

/-- **One line is one round**: the two registers it changes are the next line's `a` and `e`. -/
theorem R_round {v : List UInt32} (hv : v.length = 8) (t : Nat) (k m : UInt32) :
    view (t + 1) (R v t k m) = round k m (view t v) := by
  have h3 : regAt t 3 < v.length := by rw [hv]; exact regAt_lt t 3
  have h7 : ∀ x, regAt t 7 < (v.set (regAt t 3) x).length := fun x => by rw [List.length_set, hv]; exact regAt_lt t 7
  have hreg : ∀ {j}, j < 8 → (R v t k m).getD (regAt t j) 0 =
      if j = 7 then (round k m (view t v)).a else if j = 3 then (round k m (view t v)).e else v.getD (regAt t j) 0 := by
    intro j hj
    simp only [R]
    rw [getD_set _ _ _ _ (h7 _), getD_set _ _ _ _ h3, SS0_eq, SS1_eq, F1_eq, F2_eq, UInt32.add_comm (bigSigma0 _ + _)]
    simp only [regAt_inj t (show 7 < 8 by decide) hj, regAt_inj t (show 3 < 8 by decide) hj, eq_comm (b := j)]
    rfl
  simp only [view, regAt_succ_zero, regAt_succ]
  rw [hreg (show 7 < 8 by decide), hreg (show 0 < 8 by decide), hreg (show 1 < 8 by decide), hreg (show 2 < 8 by decide),
    hreg (show 3 < 8 by decide), hreg (show 4 < 8 by decide), hreg (show 5 < 8 by decide), hreg (show 6 < 8 by decide)]
  rfl

/-! ## The ring of 16 words -/

/-- Before the `n`-th line the ring holds the last 16 words of the schedule `w`; before the 16th, the first 16. -/
structure Ring (w : Nat → UInt32) (n : Nat) (x : List UInt32) : Prop where
  length : x.length = 16
  word : ∀ i, i < max n 16 → max n 16 ≤ i + 16 → x.getD (i % 16) 0 = w i

theorem M_schedule {m : Nat → UInt32} {n : Nat} {x : List UInt32} (h : Ring (schedule m) n x) (hn : 16 ≤ n) :
    M x n = schedule m n := by
  have hmod : n % 16 = (n - 16) % 16 := by omega
  rw [M, schedule_ge hn, S0_eq, S1_eq, h.word (n - 2) (by omega) (by omega), h.word (n - 7) (by omega) (by omega),
    h.word (n - 15) (by omega) (by omega), hmod, h.word (n - 16) (by omega) (by omega)]

theorem Ring.next {m : Nat → UInt32} {n : Nat} {x : List UInt32} (h : Ring (schedule m) n x) :
    Ring (schedule m) (n + 1) (if n < 16 then x else x.set (n % 16) (M x n)) := by
  by_cases hn : n < 16
  · rw [if_pos hn]
    exact ⟨h.length, fun i hi hi' => h.word i (by omega) (by omega)⟩
  · rw [if_neg hn]
    refine ⟨by rw [List.length_set, h.length], fun i hi hi' => ?_⟩
    rw [getD_set _ _ _ _ (by rw [h.length]; exact Nat.mod_lt _ (by decide)), M_schedule h (by omega)]
    by_cases hin : i = n
    · rw [if_pos (by rw [hin]), hin]
    · rw [if_neg (by omega)]
      exact h.word i (by omega) (by omega)

/-- The word of a line is the schedule's. -/
theorem Ring.current {m : Nat → UInt32} {n : Nat} {x : List UInt32} (h : Ring (schedule m) (n + 1) x) :
    x.getD (n % 16) 0 = schedule m n := h.word n (by omega) (by omega)

/-! ## The tables -/

theorem K_eq {t : Nat} (ht : t < 64) : K t = k256 t := by
  have htable : ∀ t < 64, ∃ i < 7, (2 ^ 32 * i + (K t).toNat) ^ 3 ≤ primes.getD t 0 * 2 ^ (32 * 3) ∧
      primes.getD t 0 * 2 ^ (32 * 3) < (2 ^ 32 * i + (K t).toNat + 1) ^ 3 := by decide +kernel
  obtain ⟨i, _, hle, hlt⟩ := htable t ht
  rw [k256, primeRoot_eq (by decide) ht hle hlt, UInt32.ofNat_add, UInt32.ofNat_mul, UInt32.ofNat_toNat]
  show K t = 0 * UInt32.ofNat i + K t
  rw [UInt32.zero_mul, UInt32.zero_add]

/-- The state of a context before its first byte. -/
def initState : List UInt32 := (sha256InitCtx (Vector.replicate 128 0)).state

theorem initState_view : view 0 initState = h256 := by
  have htable : ∀ t < 8, ∃ i < 5, (2 ^ 32 * i + (initState.getD t 0).toNat) ^ 2 ≤ primes.getD t 0 * 2 ^ (32 * 2) ∧
      primes.getD t 0 * 2 ^ (32 * 2) < (2 ^ 32 * i + (initState.getD t 0).toNat + 1) ^ 2 := by
    decide +kernel
  have hroot : ∀ t < 8, initState.getD t 0 = primeRoot 2 t := by
    intro t ht
    obtain ⟨i, _, hle, hlt⟩ := htable t ht
    rw [primeRoot_eq (by decide) (by omega) hle hlt, UInt32.ofNat_add, UInt32.ofNat_mul, UInt32.ofNat_toNat]
    show _ = 0 * UInt32.ofNat i + _
    rw [UInt32.zero_mul, UInt32.zero_add]
  simp only [h256, ← hroot 0 (by decide), ← hroot 1 (by decide), ← hroot 2 (by decide), ← hroot 3 (by decide),
    ← hroot 4 (by decide), ← hroot 5 (by decide), ← hroot 6 (by decide), ← hroot 7 (by decide)]
  rfl

/-! ## A pass of the loop -/

/-- **The lines are the rounds**: the first `n`, with the words of the schedule. -/
theorem foldl_roundLine {m : Nat → UInt32} {v x : List UInt32} (hv : v.length = 8) (hx : Ring (schedule m) 0 x) :
    ∀ {n : Nat}, n ≤ 64 →
      ((List.range n).foldl roundLine (v, x)).1.length = 8 ∧
      Ring (schedule m) n ((List.range n).foldl roundLine (v, x)).2 ∧
      view n ((List.range n).foldl roundLine (v, x)).1 = rounds k256 (schedule m) n (view 0 v)
  | 0, _     => ⟨hv, hx, rfl⟩
  | n + 1, h => by
    obtain ⟨hlen, hring, hview⟩ := foldl_roundLine hv hx (Nat.le_of_succ_le h)
    have hnext := hring.next
    rw [List.range_succ, List.foldl_append, List.foldl_cons, List.foldl_nil]
    refine ⟨by rw [roundLine, R_length, hlen], hnext, ?_⟩
    rw [rounds_succ, ← hview, ← K_eq (by omega), ← hnext.current]
    exact R_round hlen n _ _

/-- The words a pass reads. -/
theorem SWAP_ofLe32 {bs : List UInt8} (h : bs.length = 4) : SWAP (ofLe32 bs) = ofLe32 bs.reverse := by
  rw [SWAP, le32_ofLe32 h]

theorem ring_zero {words : List UInt8} (h : words.length = 64) :
    Ring (schedule (word words)) 0 ((List.range 16).map (fun t => SWAP (ofLe32 (slice words (4 * t) 4)))) := by
  refine ⟨by simp, fun i hi _ => ?_⟩
  have hi : i < 16 := by omega
  rw [schedule_lt hi, Nat.mod_eq_of_lt hi, List.getD_eq_getElem _ _ (by simpa using hi), List.getElem_map, List.getElem_range,
    SWAP_ofLe32 (slice_length (by omega)), word]

@[simp] theorem blockPass_length (state : List UInt32) (words : List UInt8) : (blockPass state words).length = 8 := by
  simp [blockPass]

/-- **One pass compresses one block.** -/
theorem blockPass_compress {state : List UInt32} (hs : state.length = 8) {words : List UInt8} (h : words.length = 64) :
    view 0 (blockPass state words) = compress k256 (view 0 state) words := by
  obtain ⟨_, _, hview⟩ := foldl_roundLine hs (ring_zero h) (Nat.le_refl 64)
  rw [compress, ← hview, blockPass]
  generalize (List.range 64).foldl roundLine _ = s
  rfl

end Ws63Flash
