import Mathlib.Analysis.SpecialFunctions.Pow.Real
import Mathlib.Data.Nat.Nth
import Mathlib.Data.Nat.Prime.Basic
import Ws63Flash.Lib.Absorb
import Ws63Flash.Lib.Octets
/-!
# Fips180 — SHA-256 as the standard states it

The functions of a round, the schedule of a block, padding, and the digest of a message.  The constants are what the
standard calls them: the first 32 bits of the fractional parts of the cube roots of the first 64 primes, and of the
square roots of the first 8.
-/
namespace Fips180

open Octets

/-! ## Rounds -/

def rotr (x n : UInt32) : UInt32 := (x >>> n) ||| (x <<< (32 - n))

def ch (e f g : UInt32) : UInt32 := (e &&& f) ^^^ (~~~e &&& g)
def maj (a b c : UInt32) : UInt32 := (a &&& b) ^^^ (a &&& c) ^^^ (b &&& c)
def bigSigma0 (x : UInt32) : UInt32 := rotr x 2 ^^^ rotr x 13 ^^^ rotr x 22
def bigSigma1 (x : UInt32) : UInt32 := rotr x 6 ^^^ rotr x 11 ^^^ rotr x 25
def smallSigma0 (x : UInt32) : UInt32 := rotr x 7 ^^^ rotr x 18 ^^^ x >>> 3
def smallSigma1 (x : UInt32) : UInt32 := rotr x 17 ^^^ rotr x 19 ^^^ x >>> 10

/-- The working variables, and a hash value. -/
@[ext] structure Vars where
  a : UInt32
  b : UInt32
  c : UInt32
  d : UInt32
  e : UInt32
  f : UInt32
  g : UInt32
  h : UInt32
deriving DecidableEq

def round (k w : UInt32) (s : Vars) : Vars :=
  let t1 := s.h + bigSigma1 s.e + ch s.e s.f s.g + k + w
  let t2 := bigSigma0 s.a + maj s.a s.b s.c
  ⟨t1 + t2, s.a, s.b, s.c, s.d + t1, s.e, s.f, s.g⟩

/-- The first `n` rounds. -/
def rounds (k w : Nat → UInt32) (n : Nat) (s : Vars) : Vars :=
  (List.range n).foldl (fun s t => round (k t) (w t) s) s

theorem rounds_succ (k w : Nat → UInt32) (n : Nat) (s : Vars) :
    rounds k w (n + 1) s = round (k n) (w n) (rounds k w n s) := by
  simp only [rounds, List.range_succ, List.foldl_append, List.foldl_cons, List.foldl_nil]

def Vars.add (s t : Vars) : Vars :=
  ⟨s.a + t.a, s.b + t.b, s.c + t.c, s.d + t.d, s.e + t.e, s.f + t.f, s.g + t.g, s.h + t.h⟩

/-! ## Blocks -/

/-- The `i`-th word of a block. -/
def word (block : List UInt8) (i : Nat) : UInt32 := ofLe32 (slice block (4 * i) 4).reverse

/-- The schedule of a block of the words `m`. -/
def schedule (m : Nat → UInt32) (t : Nat) : UInt32 :=
  if t < 16 then m t
  else smallSigma1 (schedule m (t - 2)) + schedule m (t - 7) + smallSigma0 (schedule m (t - 15)) + schedule m (t - 16)
termination_by t

theorem schedule_lt {m : Nat → UInt32} {t : Nat} (h : t < 16) : schedule m t = m t := by rw [schedule, if_pos h]

theorem schedule_ge {m : Nat → UInt32} {t : Nat} (h : 16 ≤ t) : schedule m t =
    smallSigma1 (schedule m (t - 2)) + schedule m (t - 7) + smallSigma0 (schedule m (t - 15)) + schedule m (t - 16) := by
  rw [schedule, if_neg (by omega)]

def compress (k : Nat → UInt32) (s : Vars) (block : List UInt8) : Vars :=
  s.add (rounds k (schedule (word block)) 64 s)

/-! ## Messages -/

def be32 (x : UInt32) : List UInt8 := (le32 x).reverse

/-- A one bit, zero bits, and the length of the message in bits as a word of 64. -/
def padding (len : Nat) : List UInt8 :=
  0x80 :: (List.replicate ((119 - len % 64) % 64) 0 ++ (leBytes 8 (8 * len)).reverse)

def digest (s : Vars) : List UInt8 := [s.a, s.b, s.c, s.d, s.e, s.f, s.g, s.h].flatMap be32

/-- The digest of `msg` with the round constants `k`, from the hash value `s`. -/
def hashFrom (k : Nat → UInt32) (s : Vars) (msg : List UInt8) : List UInt8 :=
  let padded := msg ++ padding msg.length
  digest (Absorb.absorb 64 (compress k) (padded.length / 64) s padded)

theorem padding_length (len : Nat) : (padding len).length = (119 - len % 64) % 64 + 9 := by
  rw [padding, List.length_cons, List.length_append, List.length_replicate, List.length_reverse, leBytes_length]

@[simp] theorem be32_length (x : UInt32) : (be32 x).length = 4 := by rw [be32, List.length_reverse, le32_length]

theorem digest_length (s : Vars) : (digest s).length = 32 := by
  simp [digest]

/-! ## Constants -/

noncomputable section

/-- The first 32 bits of the fractional part. -/
def fracBits (x : ℝ) : Nat := ⌊2 ^ 32 * Int.fract x⌋₊

def primeRoot (n t : Nat) : UInt32 := UInt32.ofNat (fracBits ((Nat.nth Nat.Prime t : ℝ) ^ (n : ℝ)⁻¹))

def k256 (t : Nat) : UInt32 := primeRoot 3 t

def h256 : Vars :=
  ⟨primeRoot 2 0, primeRoot 2 1, primeRoot 2 2, primeRoot 2 3, primeRoot 2 4, primeRoot 2 5, primeRoot 2 6, primeRoot 2 7⟩

def sha256 (msg : List UInt8) : List UInt8 := hashFrom k256 h256 msg

end

theorem sha256_length (msg : List UInt8) : (sha256 msg).length = 32 := digest_length _

theorem fracBits_floor {x : ℝ} {m r : Nat} (hle : 2 ^ 32 * (m : ℝ) + r ≤ 2 ^ 32 * x)
    (hlt : 2 ^ 32 * x < 2 ^ 32 * (m : ℝ) + r + 1) (hr : (r : ℝ) + 1 ≤ 2 ^ 32) : fracBits x = r := by
  have hr0 : (0 : ℝ) ≤ r := Nat.cast_nonneg r
  have hfloor : ⌊x⌋ = (m : ℤ) := by
    rw [Int.floor_eq_iff, Int.cast_natCast]
    constructor <;> linarith
  rw [fracBits, Nat.floor_eq_iff (mul_nonneg (by positivity) (Int.fract_nonneg x)), Int.fract, hfloor, Int.cast_natCast]
  constructor <;> linarith

/-- The bits are the low ones of the integer root of the scaled number. -/
theorem fracBits_root {n p q : Nat} (hn : n ≠ 0) (hle : q ^ n ≤ p * 2 ^ (32 * n)) (hlt : p * 2 ^ (32 * n) < (q + 1) ^ n) :
    fracBits ((p : ℝ) ^ (n : ℝ)⁻¹) = q % 2 ^ 32 := by
  have hx0 : (0 : ℝ) ≤ (p : ℝ) ^ (n : ℝ)⁻¹ := Real.rpow_nonneg (Nat.cast_nonneg p) _
  have hpow : (2 ^ 32 * (p : ℝ) ^ (n : ℝ)⁻¹) ^ n = ((p * 2 ^ (32 * n) : ℕ) : ℝ) := by
    rw [mul_pow, Real.rpow_inv_natCast_pow (Nat.cast_nonneg p) hn, ← pow_mul]
    push_cast
    ring
  have hqy : (q : ℝ) ≤ 2 ^ 32 * (p : ℝ) ^ (n : ℝ)⁻¹ := by
    refine le_of_pow_le_pow_left₀ hn (by positivity) ?_
    rw [hpow]
    exact_mod_cast hle
  have hyq : 2 ^ 32 * (p : ℝ) ^ (n : ℝ)⁻¹ < (q : ℝ) + 1 := by
    refine lt_of_pow_lt_pow_left₀ n (by positivity) ?_
    rw [hpow]
    exact_mod_cast hlt
  have hdiv : 2 ^ 32 * ((q / 2 ^ 32 : ℕ) : ℝ) + ((q % 2 ^ 32 : ℕ) : ℝ) = q := by
    exact_mod_cast Nat.div_add_mod q (2 ^ 32)
  have hmod : ((q % 2 ^ 32 : ℕ) : ℝ) + 1 ≤ 2 ^ 32 := by exact_mod_cast Nat.mod_lt q (by positivity)
  exact fracBits_floor (hdiv.le.trans hqy) (by rw [hdiv]; exact hyq) hmod

/-- The `t`-th number with a property is the `t`-th of those below any bound. -/
theorem nth_filter_range (p : Nat → Prop) [DecidablePred p] :
    ∀ (n t : Nat) (h : t < ((List.range n).filter p).length), Nat.nth p t = ((List.range n).filter p)[t]
  | 0, t, h     => by simp at h
  | n + 1, t, h => by
    by_cases hp : p n
    · have hfilter : (List.range (n + 1)).filter p = (List.range n).filter p ++ [n] := by
        rw [List.range_succ, List.filter_append, List.filter_singleton, decide_eq_true hp]
        rfl
      simp only [hfilter] at h ⊢
      by_cases ht : t < ((List.range n).filter p).length
      · rw [List.getElem_append_left ht]
        exact nth_filter_range p n t ht
      · have hlast : t = Nat.count p n := by
          rw [Nat.count_eq_card_filter_range]
          show t = ((List.range n).filter p).length
          rw [List.length_append, List.length_singleton] at h
          omega
        rw [List.getElem_append_right (by omega), List.getElem_singleton, hlast]
        exact Nat.nth_count hp
    · have hfilter : (List.range (n + 1)).filter p = (List.range n).filter p := by
        rw [List.range_succ, List.filter_append, List.filter_singleton, decide_eq_false hp]
        exact List.append_nil _
      simp only [hfilter] at h ⊢
      exact nth_filter_range p n t h

/-- The first 64 primes. -/
def primes : List Nat :=
  [2, 3, 5, 7, 11, 13, 17, 19, 23, 29, 31, 37, 41, 43, 47, 53, 59, 61, 67, 71, 73, 79, 83, 89, 97, 101, 103, 107, 109, 113,
   127, 131, 137, 139, 149, 151, 157, 163, 167, 173, 179, 181, 191, 193, 197, 199, 211, 223, 227, 229, 233, 239, 241, 251,
   257, 263, 269, 271, 277, 281, 283, 293, 307, 311]

theorem prime_iff_small {p : Nat} (h : p < 324) : Nat.Prime p ↔ 2 ≤ p ∧ ∀ m < 18, 2 ≤ m → m * m ≤ p → p % m ≠ 0 := by
  rw [Nat.prime_def_le_sqrt]
  refine and_congr_right (fun _ => ⟨fun hm m _ h2 hsq h0 => hm m h2 (Nat.le_sqrt.2 hsq) (Nat.dvd_of_mod_eq_zero h0),
    fun hm m h2 hsq hdvd => ?_⟩)
  have hmm := Nat.le_sqrt.1 hsq
  exact hm m (by nlinarith) h2 hmm (Nat.mod_eq_zero_of_dvd hdvd)

theorem primes_eq : (List.range 312).filter Nat.Prime = primes := by
  have hsmall : (List.range 312).filter Nat.Prime =
      (List.range 312).filter (fun p => 2 ≤ p ∧ ∀ m < 18, 2 ≤ m → m * m ≤ p → p % m ≠ 0) := by
    apply List.filter_congr
    intro p hp
    exact decide_eq_decide.2 (prime_iff_small (by have := List.mem_range.1 hp; omega))
  rw [hsmall]
  decide +kernel

theorem nth_prime {t : Nat} (ht : t < 64) : Nat.nth Nat.Prime t = primes.getD t 0 := by
  have hlen : t < primes.length := ht
  rw [nth_filter_range Nat.Prime 312 t (by rw [primes_eq]; exact hlen), List.getD_eq_getElem _ _ hlen]
  simp only [primes_eq]

/-- The integer root gives the constant. -/
theorem primeRoot_eq {n t q : Nat} (hn : n ≠ 0) (ht : t < 64) (hle : q ^ n ≤ primes.getD t 0 * 2 ^ (32 * n))
    (hlt : primes.getD t 0 * 2 ^ (32 * n) < (q + 1) ^ n) : primeRoot n t = UInt32.ofNat q := by
  rw [primeRoot, nth_prime ht, fracBits_root hn hle hlt]
  apply UInt32.toNat_inj.1
  rw [UInt32.toNat_ofNat', UInt32.toNat_ofNat', Nat.mod_mod]

end Fips180
