import Mathlib.Data.List.Basic
import Mathlib.Data.List.TakeWhile
import Mathlib.Tactic.Ring
import Mathlib.Tactic.Linarith
/-!
# Octets — bytes, words, text and buffers

Little-endian words, hexadecimal text, NUL-terminated strings, and the two ways a C program touches a buffer: reading a
slice of it and overwriting a range of it.
-/
namespace Octets

/-! ## Words -/

/-- The low `w` bytes of `n`, the least significant first. -/
def leBytes : Nat → Nat → List UInt8
  | 0, _     => []
  | w + 1, n => UInt8.ofNat n :: leBytes w (n / 256)

def leNat : List UInt8 → Nat
  | []      => 0
  | b :: bs => b.toNat + 256 * leNat bs

@[simp] theorem leBytes_length : ∀ (w n : Nat), (leBytes w n).length = w
  | 0, _     => rfl
  | w + 1, n => by rw [leBytes, List.length_cons, leBytes_length w]

/-- Only the low bytes matter. -/
theorem leBytes_congr : ∀ {w n m : Nat}, n % 256 ^ w = m % 256 ^ w → leBytes w n = leBytes w m
  | 0, _, _, _     => rfl
  | w + 1, n, m, h => by
    rw [Nat.pow_succ, Nat.mul_comm, Nat.mod_mul, Nat.mod_mul] at h
    have hlow : n % 256 = m % 256 := by omega
    have hbyte : UInt8.ofNat n = UInt8.ofNat m := UInt8.toNat_inj.1 (by rw [UInt8.toNat_ofNat', UInt8.toNat_ofNat']; exact hlow)
    rw [leBytes, leBytes, hbyte, leBytes_congr (show n / 256 % 256 ^ w = m / 256 % 256 ^ w by omega)]

theorem leBytes_add : ∀ (w v n : Nat), leBytes (w + v) n = leBytes w n ++ leBytes v (n / 256 ^ w)
  | 0, v, n     => by rw [Nat.zero_add, Nat.pow_zero, Nat.div_one]; rfl
  | w + 1, v, n => by
    rw [Nat.add_right_comm, leBytes, leBytes, leBytes_add w v, Nat.div_div_eq_div_mul, Nat.pow_succ, Nat.mul_comm 256]
    rfl

theorem leNat_lt : ∀ bs : List UInt8, leNat bs < 256 ^ bs.length
  | []      => by simp [leNat]
  | b :: bs => by
    have hb : b.toNat < 256 := b.toNat_lt
    have := leNat_lt bs
    rw [leNat, List.length_cons, Nat.pow_succ]
    omega

theorem leNat_leBytes : ∀ (w n : Nat), leNat (leBytes w n) = n % 256 ^ w
  | 0, n     => by simp [leBytes, leNat, Nat.mod_one]
  | w + 1, n => by
    rw [leBytes, leNat, leNat_leBytes w, Nat.pow_succ, Nat.mul_comm (256 ^ w) 256, Nat.mod_mul]
    rfl

theorem leBytes_leNat : ∀ bs : List UInt8, leBytes bs.length (leNat bs) = bs
  | []      => rfl
  | b :: bs => by
    have hb : b.toNat < 256 := b.toNat_lt
    have hlow : UInt8.ofNat (b.toNat + 256 * leNat bs) = b := by
      apply UInt8.toNat_inj.1
      rw [UInt8.toNat_ofNat']
      omega
    have hhigh : (b.toNat + 256 * leNat bs) / 256 = leNat bs := by omega
    rw [List.length_cons, leNat, leBytes, hlow, hhigh, leBytes_leNat bs]

def le16 (x : UInt16) : List UInt8 := leBytes 2 x.toNat
def le32 (x : UInt32) : List UInt8 := leBytes 4 x.toNat
def be16 (x : UInt16) : List UInt8 := (leBytes 2 x.toNat).reverse

def ofLe16 (bs : List UInt8) : UInt16 := UInt16.ofNat (leNat bs)
def ofLe32 (bs : List UInt8) : UInt32 := UInt32.ofNat (leNat bs)

@[simp] theorem le16_length (x : UInt16) : (le16 x).length = 2 := leBytes_length 2 _
@[simp] theorem le32_length (x : UInt32) : (le32 x).length = 4 := leBytes_length 4 _
@[simp] theorem be16_length (x : UInt16) : (be16 x).length = 2 := by rw [be16, List.length_reverse, leBytes_length]

@[simp] theorem ofLe16_le16 (x : UInt16) : ofLe16 (le16 x) = x := by
  rw [ofLe16, le16, leNat_leBytes, Nat.mod_eq_of_lt (show x.toNat < 256 ^ 2 from x.toNat_lt), UInt16.ofNat_toNat]

@[simp] theorem ofLe32_le32 (x : UInt32) : ofLe32 (le32 x) = x := by
  rw [ofLe32, le32, leNat_leBytes, Nat.mod_eq_of_lt (show x.toNat < 256 ^ 4 from x.toNat_lt), UInt32.ofNat_toNat]

theorem le16_ofLe16 {bs : List UInt8} (h : bs.length = 2) : le16 (ofLe16 bs) = bs := by
  have hlt := leNat_lt bs
  rw [h] at hlt
  rw [le16, ofLe16, UInt16.toNat_ofNat', Nat.mod_eq_of_lt (show leNat bs < 2 ^ 16 from hlt), ← h, leBytes_leNat]

theorem le32_ofLe32 {bs : List UInt8} (h : bs.length = 4) : le32 (ofLe32 bs) = bs := by
  have hlt := leNat_lt bs
  rw [h] at hlt
  rw [le32, ofLe32, UInt32.toNat_ofNat', Nat.mod_eq_of_lt (show leNat bs < 2 ^ 32 from hlt), ← h, leBytes_leNat]

/-! ## Buffers -/

def slice (bs : List UInt8) (off len : Nat) : List UInt8 := (bs.drop off).take len

/-- `src` stored into `buf` from the index `i` on. -/
def setRange (buf : List UInt8) (i : Nat) (src : List UInt8) : List UInt8 :=
  buf.take i ++ src ++ buf.drop (i + src.length)

/-- `bs` filled up with zero bytes to the length `n`. -/
def padTo (n : Nat) (bs : List UInt8) : List UInt8 := bs ++ List.replicate (n - bs.length) 0

theorem slice_length {bs : List UInt8} {off len : Nat} (h : off + len ≤ bs.length) : (slice bs off len).length = len := by
  rw [slice, List.length_take, List.length_drop]; omega

theorem slice_append_mid {a b : List UInt8} {i n : Nat} (c : List UInt8) (ha : a.length = i) (hb : b.length = n) :
    slice (a ++ b ++ c) i n = b := by
  rw [slice, List.append_assoc, List.drop_left' ha, List.take_left' hb]

theorem slice_append_left {a b : List UInt8} {off len : Nat} (h : off + len ≤ a.length) :
    slice (a ++ b) off len = slice a off len := by
  rw [slice, List.drop_append_of_le_length (by omega), List.take_append_of_le_length (by rw [List.length_drop]; omega)]
  rfl

theorem slice_append_right {a b : List UInt8} {off len : Nat} (h : a.length ≤ off) :
    slice (a ++ b) off len = slice b (off - a.length) len := by
  rw [slice, slice, List.drop_append, List.drop_eq_nil_of_le h, List.nil_append]

theorem slice_drop (bs : List UInt8) (n off len : Nat) : slice (bs.drop n) off len = slice bs (n + off) len := by
  rw [slice, slice, List.drop_drop]

theorem slice_eq_drop_take (bs : List UInt8) (off len : Nat) : slice bs off len = (bs.take (off + len)).drop off := by
  rw [slice, List.drop_take, Nat.add_sub_cancel_left]

theorem slice_take {bs : List UInt8} {n off len : Nat} (h : off + len ≤ n) : slice (bs.take n) off len = slice bs off len := by
  rw [slice_eq_drop_take, slice_eq_drop_take, List.take_take, Nat.min_eq_left h]

theorem slice_slice {bs : List UInt8} {a n off len : Nat} (h : off + len ≤ n) :
    slice (slice bs a n) off len = slice bs (a + off) len := by
  show slice ((bs.drop a).take n) off len = _
  rw [slice_take h, slice_drop]

/-- Adjoining slices. -/
theorem slice_append (bs : List UInt8) {off n off' m : Nat} (h : off + n = off') :
    slice bs off n ++ slice bs off' m = slice bs off (n + m) := by
  rw [slice, slice, slice, ← h, ← List.drop_drop, ← List.take_add]

/-- Two buffers that start with the same bytes have the same slices there. -/
theorem slice_of_take {buf bs : List UInt8} (h : buf.take bs.length = bs) {off len : Nat} (hle : off + len ≤ bs.length) :
    slice buf off len = slice bs off len := by
  have htake : bs.take (off + len) = buf.take (off + len) := by
    rw [← h, List.take_take, Nat.min_eq_left hle]
  rw [slice_eq_drop_take, slice_eq_drop_take, htake]

@[simp] theorem setRange_length {buf src : List UInt8} {i : Nat} (h : i + src.length ≤ buf.length) :
    (setRange buf i src).length = buf.length := by
  simp only [setRange, List.length_append, List.length_take, List.length_drop]; omega

theorem setRange_append {a b s : List UInt8} {i : Nat} (c : List UInt8) (ha : a.length = i)
    (h : s.length = b.length) : setRange (a ++ b ++ c) i s = a ++ s ++ c := by
  rw [setRange, List.append_assoc a b c, List.take_left' ha, ← ha, List.drop_append, List.drop_eq_nil_of_le (by omega),
    Nat.add_sub_cancel_left, List.drop_left' h.symm, List.nil_append]

theorem setRange_zero {buf src : List UInt8} (h : buf.length ≤ src.length) : setRange buf 0 src = src := by
  rw [setRange, List.take_zero, List.nil_append, List.drop_eq_nil_of_le (by omega), List.append_nil]

/-- A range is stored at or after its index, and no byte is lost. -/
theorem setRange_keeps {buf : List UInt8} {n i : Nat} (src : List UInt8) (hi : n ≤ i) (hn : n ≤ buf.length) :
    (setRange buf i src).take n = buf.take n ∧ buf.length ≤ (setRange buf i src).length := by
  have hlen : n ≤ (buf.take i).length := by rw [List.length_take]; omega
  constructor
  · rw [setRange, List.append_assoc, List.take_append_of_le_length hlen, List.take_take, Nat.min_eq_left hi]
  · simp only [setRange, List.length_append, List.length_take, List.length_drop]
    omega

/-- What was stored is read back. -/
theorem slice_setRange {buf : List UInt8} {i n : Nat} (src : List UInt8) (hi : i ≤ buf.length) (hn : src.length = n) :
    slice (setRange buf i src) i n = src := by
  have hlen : (buf.take i).length = i := by rw [List.length_take]; omega
  exact slice_append_mid _ hlen hn

/-- What follows a stored range is read as it was. -/
theorem slice_setRange_after {buf : List UInt8} {i off : Nat} (src : List UInt8) (n : Nat) (hi : i ≤ buf.length)
    (h : i + src.length ≤ off) : slice (setRange buf i src) off n = slice buf off n := by
  have hlen : (buf.take i ++ src).length = i + src.length := by
    rw [List.length_append, List.length_take]
    omega
  rw [setRange, slice_append_right (by omega), hlen, slice_drop]
  congr 1
  omega

theorem padTo_length {n : Nat} {bs : List UInt8} (h : bs.length ≤ n) : (padTo n bs).length = n := by
  rw [padTo, List.length_append, List.length_replicate]; omega

theorem take_padTo {n : Nat} (bs : List UInt8) : (padTo n bs).take bs.length = bs := by rw [padTo, List.take_left]

/-- **The `k`-byte slices of `bs`, each filled up, are `bs` filled up.** -/
theorem flatMap_chunks (k : Nat) : ∀ (n : Nat) (bs : List UInt8), bs.length ≤ k * n →
    (List.range n).flatMap (fun i => padTo k (slice bs (k * i) k)) = padTo (k * n) bs
  | 0, bs, h     => by
    have hnil : bs = [] := List.length_eq_zero_iff.1 (by omega)
    rw [hnil]; rfl
  | n + 1, bs, h => by
    have hshift : (fun i => padTo k (slice bs (k * (i + 1)) k)) = fun i => padTo k (slice (bs.drop k) (k * i) k) := by
      funext i
      rw [slice, slice, List.drop_drop, Nat.mul_add_one, Nat.add_comm]
    rw [List.range_succ_eq_map, List.flatMap_cons, List.flatMap_map]
    show padTo k (slice bs 0 k) ++ (List.range n).flatMap (fun i => padTo k (slice bs (k * (i + 1)) k)) = _
    rw [Nat.mul_add_one] at h
    rw [hshift, flatMap_chunks k n (bs.drop k) (by rw [List.length_drop]; omega), slice, List.drop_zero]
    by_cases hk : bs.length ≤ k
    · rw [List.take_of_length_le hk, List.drop_eq_nil_of_le hk, padTo, padTo, padTo, List.nil_append, List.append_assoc,
        List.replicate_append_replicate, Nat.mul_add_one]
      congr 2
      simp only [List.length_nil]
      omega
    · have hfull : (bs.take k).length = k := by rw [List.length_take]; omega
      rw [padTo, hfull, Nat.sub_self, List.replicate_zero, List.append_nil, padTo, ← List.append_assoc,
        List.take_append_drop, padTo, List.length_drop, Nat.mul_add_one]
      congr 2
      omega

/-! ## Hexadecimal text -/

/-- The lower-case digit of a value below 16. -/
def hexDigit (d : Nat) : UInt8 := if d < 10 then UInt8.ofNat (48 + d) else UInt8.ofNat (87 + d)

def hexVal (c : UInt8) : Option Nat :=
  if 48 ≤ c ∧ c ≤ 57 then some (c.toNat - 48)
  else if 97 ≤ c ∧ c ≤ 102 then some (c.toNat - 87)
  else if 65 ≤ c ∧ c ≤ 70 then some (c.toNat - 55)
  else none

def hexGo : Nat → Nat → List UInt8
  | 0, _     => []
  | k + 1, n => if n = 0 then [] else hexGo k (n / 16) ++ [hexDigit (n % 16)]

/-- The digits of `n`, without leading zeros; `0` has one. -/
def hexText (n : Nat) : List UInt8 := if n = 0 then [48] else hexGo n n

/-- The value of a digit string, a digit at a time. -/
def hexFold (acc : Nat) (cs : List UInt8) : Nat := cs.foldl (fun a c => a * 16 + (hexVal c).getD 0) acc

theorem hexVal_hexDigit : ∀ d, d < 16 → hexVal (hexDigit d) = some d := by decide

theorem hexGo_fold : ∀ (k n : Nat), n < 16 ^ k → hexFold 0 (hexGo k n) = n
  | 0, n, h     => by simp only [Nat.pow_zero] at h; simp [hexGo, hexFold]; omega
  | k + 1, n, h => by
    rw [hexGo]
    split
    · rename_i hn; rw [hn]; rfl
    · have hdiv : n / 16 < 16 ^ k := by rw [Nat.pow_succ] at h; omega
      rw [hexFold, List.foldl_append, show List.foldl _ 0 (hexGo k (n / 16)) = _ from hexGo_fold k _ hdiv]
      simp only [List.foldl_cons, List.foldl_nil, hexVal_hexDigit _ (Nat.mod_lt n (by decide)), Option.getD_some]
      omega

theorem hexGo_isSome : ∀ (k n : Nat), ∀ c ∈ hexGo k n, (hexVal c).isSome
  | 0, _, c, h     => by simp [hexGo] at h
  | k + 1, n, c, h => by
    rw [hexGo] at h
    split at h
    · simp at h
    · rcases List.mem_append.1 h with h | h
      · exact hexGo_isSome k _ c h
      · rw [List.mem_singleton.1 h, hexVal_hexDigit _ (Nat.mod_lt n (by decide))]; rfl

theorem hexGo_length : ∀ (k n j : Nat), n < 16 ^ j → (hexGo k n).length ≤ j
  | 0, _, _, _     => Nat.zero_le _
  | k + 1, n, j, h => by
    rw [hexGo]
    split
    · exact Nat.zero_le _
    · rename_i hn
      cases j with
      | zero => simp only [Nat.pow_zero] at h; omega
      | succ j =>
        have hdiv : n / 16 < 16 ^ j := by rw [Nat.pow_succ] at h; omega
        have := hexGo_length k (n / 16) j hdiv
        simp only [List.length_append, List.length_cons, List.length_nil]
        omega

theorem hexText_fold (n : Nat) : hexFold 0 (hexText n) = n := by
  rw [hexText]
  split
  · rename_i hn; rw [hn]; rfl
  · exact hexGo_fold n n (Nat.lt_pow_self (by decide))

theorem hexText_isSome (n : Nat) : ∀ c ∈ hexText n, (hexVal c).isSome := by
  intro c hc
  rw [hexText] at hc
  split at hc
  · rw [List.mem_singleton.1 hc]; rfl
  · exact hexGo_isSome n n c hc

theorem hexText_length {n j : Nat} (hj : 0 < j) (h : n < 16 ^ j) : (hexText n).length ≤ j := by
  rw [hexText]
  split
  · exact hj
  · exact hexGo_length n n j h

theorem hexText_ne_nil (n : Nat) : hexText n ≠ [] := by
  rw [hexText]
  split
  · exact List.cons_ne_nil _ _
  · rename_i hn
    obtain ⟨m, rfl⟩ := Nat.exists_eq_succ_of_ne_zero hn
    rw [hexGo, if_neg hn]
    exact List.append_ne_nil_of_right_ne_nil _ (List.cons_ne_nil _ _)

end Octets

/-! ## Strings -/

/-- What precedes the first NUL. -/
theorem takeWhile_nul {bs : List UInt8} (h : 0 ∉ bs) (rest : List UInt8) :
    (bs ++ 0 :: rest).takeWhile (fun b => b ≠ 0) = bs := by
  have hall : ∀ b ∈ bs, decide (b ≠ 0) = true := by
    intro b hb
    rw [decide_eq_true_eq]
    rintro rfl
    exact h hb
  rw [List.takeWhile_append_of_pos hall, List.takeWhile_cons, if_neg (by decide), List.append_nil]

/-- A C string, without its terminating NUL. -/
structure CStr where
  bytes : List UInt8
  noNul : 0 ∉ bytes
deriving DecidableEq

namespace CStr

def strlen (s : CStr) : Nat := s.bytes.length

theorem noNul_takeWhile (bs : List UInt8) : 0 ∉ bs.takeWhile (fun b => b ≠ 0) := by
  intro h
  have := List.all_eq_true.1 (List.all_takeWhile (p := fun b : UInt8 => decide (b ≠ 0)) (l := bs)) 0 h
  simp at this

/-- The string that starts an array of characters: what precedes its first NUL. -/
def ofField (bs : List UInt8) : CStr := ⟨bs.takeWhile (fun b => b ≠ 0), noNul_takeWhile bs⟩

@[ext] theorem ext {s t : CStr} (h : s.bytes = t.bytes) : s = t := by
  cases s; cases t; simpa using h

/-- What follows a NUL is not read. -/
theorem ofField_append {bs : List UInt8} (h : 0 ∈ bs) (rest : List UInt8) : ofField (bs ++ rest) = ofField bs := by
  obtain ⟨before, after, rfl, hno⟩ := List.eq_append_cons_of_mem h
  apply ext
  show ((before ++ 0 :: after) ++ rest).takeWhile _ = (before ++ 0 :: after).takeWhile _
  rw [takeWhile_nul hno, List.append_assoc, List.cons_append, takeWhile_nul hno]

/-- The string ends in the array exactly when there is a NUL. -/
theorem strlen_ofField_lt {bs : List UInt8} : (ofField bs).strlen < bs.length ↔ 0 ∈ bs := by
  have hle : (bs.takeWhile (fun b => b ≠ 0)).length ≤ bs.length := (List.takeWhile_prefix _).length_le
  show (bs.takeWhile (fun b => b ≠ 0)).length < _ ↔ _
  constructor
  · intro hlt
    by_contra hn
    refine Nat.ne_of_lt hlt (congrArg List.length (List.takeWhile_eq_self_iff.2 (fun b hb => ?_)))
    rw [decide_eq_true_eq]
    rintro rfl
    exact hn hb
  · intro hmem
    obtain ⟨before, after, rfl, hno⟩ := List.eq_append_cons_of_mem hmem
    rw [takeWhile_nul hno, List.length_append, List.length_cons]
    omega

end CStr
