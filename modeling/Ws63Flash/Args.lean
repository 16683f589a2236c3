import Mathlib.Data.List.DropRight
import Mathlib.Data.List.Forall2
import Ws63Flash.Fwpkg
import Ws63Flash.Tty
/-!
# Args — the command line of `ws63flash` and the host

What `parse_opt` refuses, how a `BIN@ADDR` argument is taken apart, and what the program finds outside the line: the
files, the loaderboot it is built with, and SHA-256.
-/
namespace Ws63Flash

open Octets

inductive Verb where
  | flash
  | write
  | erase
  | writeProg
deriving DecidableEq

/-- `arguments`, with the non-option arguments in a list; past its end the array holds NULL. -/
structure Args where
  args : List CStr
  baud : UInt32
  lateBaud : Bool

structure Host where
  /-- The terminal can be opened. -/
  tty : Bool
  /-- The bytes of a file. -/
  fopen : CStr → Except Errno (List UInt8)
  /-- `st_size`. -/
  stat : CStr → Except Errno Nat
  /-- Temporary files can be made and written. -/
  tmpfile : Bool
  /-- `ws63_loaderboot_signed_bin`. -/
  loaderboot : List UInt8
  sha256 : List UInt8 → List UInt8
  sha256_length : ∀ m, (sha256 m).length = 32

/-! ## `parse_opt` -/

/-- `ARGP_KEY_ARG` is refused for the argument number `n`. -/
def argRefused : Verb → Nat → Bool
  | .flash, n     => n ≥ MAX_PARTITION_CNT
  | .write, n     => n ≥ MAX_PARTITION_CNT
  | .erase, n     => n > 0
  | .writeProg, n => n > 1

/-- `ARGP_KEY_END` is refused after `n` arguments. -/
def endRefused : Verb → Nat → Bool
  | .flash, n     => n < 2
  | .write, n     => n < 3
  | .erase, n     => n < 1
  | .writeProg, n => n < 2

/-- `parse_opt` lets the arguments pass, one by one and then their number. -/
def parseOpt (verb : Verb) (n : Nat) : Bool := (List.range n).all (fun i => !argRefused verb i) && !endRefused verb n

/-- The status `argp_usage` exits with. -/
def EX_USAGE : Int := 64

/-! ## A loop that may return -/

section

variable {α β ε : Type} {f : α → Except ε β}

/-- The loop that ends has made each of its results. -/
theorem mapM_eq_ok : ∀ {xs : List α} {ys : List β}, xs.mapM f = .ok ys ↔ List.Forall₂ (fun x y => f x = .ok y) xs ys
  | [], ys      => by
    rw [List.forall₂_nil_left_iff]
    exact ⟨fun h => (Except.ok.inj h).symm, fun h => h ▸ rfl⟩
  | x :: xs, ys => by
    rw [List.mapM_cons, List.forall₂_cons_left_iff]
    cases hx : f x with
    | error e =>
      constructor
      · exact fun h => nomatch h
      · rintro ⟨y, ys', hy, _⟩
        cases hy
    | ok y =>
      cases hxs : xs.mapM f with
      | error e =>
        constructor
        · exact fun h => nomatch h
        · rintro ⟨y', ys', _, hall, _⟩
          rw [mapM_eq_ok.2 hall] at hxs
          cases hxs
      | ok ys' =>
        constructor
        · intro h
          cases h
          exact ⟨y, ys', rfl, mapM_eq_ok.1 hxs, rfl⟩
        · rintro ⟨_, ys'', hy, hall, rfl⟩
          rw [mapM_eq_ok.2 hall] at hxs
          cases hy
          cases hxs
          rfl

/-- The loop that returns does so at one of its turns. -/
theorem mapM_eq_error {e : ε} : ∀ {xs : List α}, xs.mapM f = .error e → ∃ x ∈ xs, f x = .error e
  | [], h      => nomatch h
  | x :: xs, h => by
    rw [List.mapM_cons] at h
    cases hx : f x with
    | error e' =>
      rw [hx] at h
      cases h
      exact ⟨x, List.mem_cons_self, hx⟩
    | ok y =>
      cases hxs : xs.mapM f with
      | error e' =>
        rw [hx, hxs] at h
        cases h
        obtain ⟨x', hmem, he⟩ := mapM_eq_error hxs
        exact ⟨x', List.mem_cons_of_mem _ hmem, he⟩
      | ok ys =>
        rw [hx, hxs] at h
        cases h

end

/-! ## `BIN@ADDR` -/

def isSpace (c : UInt8) : Bool := c = 0x20 ∨ (0x09 ≤ c ∧ c ≤ 0x0d)

def stripSign (cs : List UInt8) : Bool × List UInt8 :=
  match cs with
  | 0x2d :: cs => (true, cs)
  | 0x2b :: cs => (false, cs)
  | cs         => (false, cs)

/-- `0x` or `0X` is passed over; its 0 counts as a digit when none follows. -/
def stripHexMark : List UInt8 → Bool × List UInt8
  | 0x30 :: 0x78 :: cs => (true, cs)
  | 0x30 :: 0x58 :: cs => (true, cs)
  | cs                 => (false, cs)

/-- `sscanf(cs, "%zx", &addr) == 1`, and `addr`: spaces, a sign, digits up to the first other character; a value beyond
`size_t` is its largest, a negative one wraps. -/
def sscanfZx (cs : List UInt8) : Option Nat :=
  let (neg, cs) := stripSign (cs.dropWhile isSpace)
  let (mark, cs) := stripHexMark cs
  let digits := cs.takeWhile (fun c => (hexVal c).isSome)
  if ¬ mark ∧ digits = [] then none
  else
    let v := hexFold 0 digits
    if v ≥ 2 ^ 64 then some (2 ^ 64 - 1)
    else if neg then some ((2 ^ 64 - v) % 2 ^ 64)
    else some v

structure Wobj where
  name : CStr
  length : Nat
  /-- Not set, 0 here, for the first argument when it has no `@`; then it is only printed. -/
  addr : Nat

theorem notMem_take {bs : List UInt8} (h : 0 ∉ bs) (p : UInt8 → Bool) : 0 ∉ bs.takeWhile p :=
  fun hm => h ((List.takeWhile_prefix p).subset hm)

/-- What precedes the first `@`. -/
def beforeAt (arg : CStr) : CStr := ⟨arg.bytes.takeWhile (· ≠ 0x40), notMem_take arg.noNul _⟩

/-- What follows the first `@`. -/
def afterAt (arg : CStr) : Option (List UInt8) :=
  if 0x40 ∈ arg.bytes then some ((arg.bytes.dropWhile (· ≠ 0x40)).drop 1) else none

/-- One turn of the parsing loop of `verb_write` and `verb_inject`; `bare` lets an argument without an address pass.
An error is what the verb returns. -/
def parseWobj (h : Host) (bare : Bool) (arg : CStr) : Except Int Wobj := do
  let addr ← match afterAt arg with
    | none      => if bare then .ok 0 else .error 1
    | some text => match sscanfZx text with
      | none      => .error 1
      | some addr => .ok addr
  match h.stat (beforeAt arg) with
  | .error _   => .error (-1)
  | .ok st_size => .ok ⟨beforeAt arg, st_size, addr⟩

/-- `basename` of `libgen.h`, on the bytes of a path. -/
def basenameBytes (path : List UInt8) : List UInt8 :=
  if path = [] then [0x2e]
  else
    let path := path.rdropWhile (· = 0x2f)
    if path = [] then [0x2f] else path.rtakeWhile (· ≠ 0x2f)

theorem basenameBytes_noNul {path : List UInt8} (h : 0 ∉ path) : 0 ∉ basenameBytes path := by
  unfold basenameBytes
  split
  · decide
  · dsimp only
    split
    · decide
    · exact fun hm => h ((List.rdropWhile_prefix _ _).subset ((List.rtakeWhile_suffix _ _).subset hm))

def basename (path : CStr) : CStr := ⟨basenameBytes path.bytes, basenameBytes_noNul path.noNul⟩

/-- The path as `basename` leaves it, without the slashes at its end. -/
def basenameCut (path : CStr) : CStr :=
  if path.bytes.rdropWhile (· = 0x2f) = [] then path
  else ⟨path.bytes.rdropWhile (· = 0x2f), fun hm => path.noNul ((List.rdropWhile_prefix _ _).subset hm)⟩

/-! ## Arguments as a shell script prints them -/

theorem isSpace_false {c : UInt8} (h : (hexVal c).isSome) : isSpace c = false := by
  have hlow : 48 ≤ c := by
    rw [UInt8.le_iff_toNat_le]
    unfold hexVal at h
    simp only [UInt8.le_iff_toNat_le] at h
    split at h
    · rename_i hc; exact hc.1
    split at h
    · rename_i hc; exact Nat.le_trans (by decide) hc.1
    split at h
    · rename_i hc; exact Nat.le_trans (by decide) hc.1
    · exact nomatch h
  rw [UInt8.le_iff_toNat_le] at hlow
  have hval : (48 : UInt8).toNat = 48 := rfl
  unfold isSpace
  rw [decide_eq_false_iff_not, UInt8.le_iff_toNat_le, UInt8.le_iff_toNat_le, ← UInt8.toNat_inj]
  simp only [UInt8.reduceToNat]
  omega

theorem takeWhile_all {α : Type} {p : α → Bool} {cs : List α} (h : ∀ c ∈ cs, p c) : cs.takeWhile p = cs :=
  List.takeWhile_eq_self_iff.2 h

/-- Digits are neither spaces, nor a sign, nor the mark. -/
theorem strip_digits {cs : List UInt8} (h : ∀ c ∈ cs, (hexVal c).isSome) :
    cs.dropWhile isSpace = cs ∧ stripSign cs = (false, cs) ∧ stripHexMark cs = (false, cs) := by
  cases cs with
  | nil => exact ⟨rfl, rfl, rfl⟩
  | cons c cs =>
    have hc := h c List.mem_cons_self
    refine ⟨by rw [List.dropWhile_cons, if_neg (by simp [isSpace_false hc])], ?_, ?_⟩
    · unfold stripSign
      split
      · rename_i heq
        rw [(List.cons.inj heq).1] at hc
        exact absurd hc (by decide)
      · rename_i heq
        rw [(List.cons.inj heq).1] at hc
        exact absurd hc (by decide)
      · rfl
    · unfold stripHexMark
      split
      · rename_i heq
        have hx := h 0x78 (by rw [heq]; simp)
        exact absurd hx (by decide)
      · rename_i heq
        have hx := h 0x58 (by rw [heq]; simp)
        exact absurd hx (by decide)
      · rfl

/-- `printf "%x"`, or `printf "0x%x"` with the mark. -/
def addrText (mark : Bool) (n : Nat) : List UInt8 := (if mark then [0x30, 0x78] else []) ++ hexText n

/-- **What was printed is read back.** -/
theorem sscanfZx_addrText (mark : Bool) {n : Nat} (h : n < 2 ^ 64) : sscanfZx (addrText mark n) = some n := by
  have hdig := hexText_isSome n
  obtain ⟨hspace, hsign, hmark⟩ := strip_digits hdig
  unfold sscanfZx addrText
  cases mark with
  | false =>
    simp only [Bool.false_eq_true, if_false, List.nil_append, hspace, hsign, hmark, takeWhile_all hdig, hexText_fold]
    rw [if_neg (fun hn => hexText_ne_nil n hn.2), if_neg (by omega)]
  | true =>
    have hs : ([0x30, 0x78] ++ hexText n).dropWhile isSpace = [0x30, 0x78] ++ hexText n := rfl
    have hg : stripSign ([0x30, 0x78] ++ hexText n) = (false, [0x30, 0x78] ++ hexText n) := rfl
    have hm : stripHexMark ([0x30, 0x78] ++ hexText n) = (true, hexText n) := rfl
    simp only [if_true, hs, hg, hm, takeWhile_all hdig, hexText_fold]
    rw [if_neg (fun hn => hn.1 trivial), if_neg (by omega)]
    rfl

theorem addrText_noNul (mark : Bool) (n : Nat) : 0 ∉ addrText mark n := by
  intro h
  rcases List.mem_append.1 h with h | h
  · cases mark
    · exact nomatch h
    · exact absurd h (by decide)
  · exact absurd (hexText_isSome n 0 h) (by decide)

/-- `BIN@ADDR`. -/
def atAddr (path : CStr) (mark : Bool) (n : Nat) : CStr where
  bytes := path.bytes ++ 0x40 :: addrText mark n
  noNul := by
    intro h
    rcases List.mem_append.1 h with h | h
    · exact path.noNul h
    · rcases List.mem_cons.1 h with h | h
      · exact absurd h (by decide)
      · exact addrText_noNul mark n h

theorem beforeAt_self {path : CStr} (h : 0x40 ∉ path.bytes) : beforeAt path = path :=
  CStr.ext (takeWhile_all (fun c hc => by simp only [decide_eq_true_eq]; exact fun he => h (he ▸ hc)))

theorem afterAt_self {path : CStr} (h : 0x40 ∉ path.bytes) : afterAt path = none := if_neg h

theorem beforeAt_of_bytes {arg path : CStr} {text : List UInt8} (h : 0x40 ∉ path.bytes)
    (harg : arg.bytes = path.bytes ++ 0x40 :: text) : beforeAt arg = path := by
  have hall : ∀ c ∈ path.bytes, decide (c ≠ 0x40) = true := fun c hc => by
    simp only [decide_eq_true_eq]
    exact fun he => h (he ▸ hc)
  refine CStr.ext ?_
  show arg.bytes.takeWhile (· ≠ 0x40) = path.bytes
  rw [harg, List.takeWhile_append_of_pos hall, List.takeWhile_cons, if_neg (by decide), List.append_nil]

theorem afterAt_of_bytes {arg path : CStr} {text : List UInt8} (h : 0x40 ∉ path.bytes)
    (harg : arg.bytes = path.bytes ++ 0x40 :: text) : afterAt arg = some text := by
  have hall : ∀ c ∈ path.bytes, decide (c ≠ 0x40) = true := fun c hc => by
    simp only [decide_eq_true_eq]
    exact fun he => h (he ▸ hc)
  have hdrop : arg.bytes.dropWhile (· ≠ 0x40) = 0x40 :: text := by
    rw [harg, List.dropWhile_append_of_pos hall, List.dropWhile_cons, if_neg (by decide)]
  have hmem : 0x40 ∈ arg.bytes := by
    rw [harg]
    exact List.mem_append_right _ List.mem_cons_self
  rw [afterAt, if_pos hmem, hdrop]
  rfl

theorem beforeAt_atAddr {path : CStr} (h : 0x40 ∉ path.bytes) (mark : Bool) (n : Nat) :
    beforeAt (atAddr path mark n) = path := beforeAt_of_bytes h rfl

theorem afterAt_atAddr {path : CStr} (h : 0x40 ∉ path.bytes) (mark : Bool) (n : Nat) :
    afterAt (atAddr path mark n) = some (addrText mark n) := afterAt_of_bytes h rfl

theorem parseWobj_bare {h : Host} {path : CStr} {n : Nat} (hat : 0x40 ∉ path.bytes) (hstat : h.stat path = .ok n) :
    parseWobj h true path = .ok ⟨path, n, 0⟩ := by
  unfold parseWobj
  rw [afterAt_self hat, beforeAt_self hat, hstat]
  rfl

theorem parseWobj_atAddr {h : Host} {path : CStr} {n addr : Nat} (bare mark : Bool) (hat : 0x40 ∉ path.bytes)
    (hstat : h.stat path = .ok n) (haddr : addr < 2 ^ 64) :
    parseWobj h bare (atAddr path mark addr) = .ok ⟨path, n, addr⟩ := by
  unfold parseWobj
  rw [afterAt_atAddr hat, beforeAt_atAddr hat, hstat]
  simp only [sscanfZx_addrText mark haddr]
  rfl

/-- A turn stores what precedes the `@` and what `stat` says of it, or returns with an error. -/
theorem parseWobj_cases (h : Host) (bare : Bool) (arg : CStr) :
    (∃ n addr, parseWobj h bare arg = .ok ⟨beforeAt arg, n, addr⟩) ∨ ∃ r, r ≠ 0 ∧ parseWobj h bare arg = .error r := by
  unfold parseWobj
  cases afterAt arg with
  | none =>
    cases bare with
    | false => exact Or.inr ⟨1, by decide, rfl⟩
    | true =>
      cases h.stat (beforeAt arg) with
      | error e => exact Or.inr ⟨-1, by decide, rfl⟩
      | ok n    => exact Or.inl ⟨n, 0, rfl⟩
  | some text =>
    dsimp only
    cases sscanfZx text with
    | none => exact Or.inr ⟨1, by decide, rfl⟩
    | some addr =>
      cases h.stat (beforeAt arg) with
      | error e => exact Or.inr ⟨-1, by decide, rfl⟩
      | ok n    => exact Or.inl ⟨n, addr, rfl⟩

/-- `path` leads to `name` in some directory. -/
structure Leads (path : CStr) (name : List UInt8) : Prop where
  split : ∃ dir, path.bytes = dir ++ name ∧ (dir = [] ∨ dir.getLast? = some 0x2f)
  slash : 0x2f ∉ name
  nonempty : name ≠ []

theorem Leads.rdropWhile {path : CStr} {name : List UInt8} (h : Leads path name) :
    path.bytes.rdropWhile (· = 0x2f) = path.bytes := by
  obtain ⟨dir, hpath, _⟩ := h.split
  rw [List.rdropWhile_eq_self_iff, hpath]
  intro hne hlast
  rw [List.getLast_append_of_ne_nil hne h.nonempty, decide_eq_true_eq] at hlast
  exact h.slash (hlast ▸ List.getLast_mem h.nonempty)

theorem Leads.ne_nil {path : CStr} {name : List UInt8} (h : Leads path name) : path.bytes ≠ [] := by
  obtain ⟨dir, hpath, _⟩ := h.split
  rw [hpath]
  exact List.append_ne_nil_of_right_ne_nil dir h.nonempty

theorem Leads.basenameCut {path : CStr} {name : List UInt8} (h : Leads path name) : basenameCut path = path := by
  unfold Ws63Flash.basenameCut
  simp only [h.rdropWhile]
  rw [if_neg h.ne_nil]

theorem Leads.basename {path : CStr} {name : List UInt8} (h : Leads path name) : (basename path).bytes = name := by
  show basenameBytes path.bytes = name
  unfold basenameBytes
  rw [if_neg h.ne_nil]
  simp only [h.rdropWhile]
  rw [if_neg h.ne_nil]
  obtain ⟨dir, hpath, hdir⟩ := h.split
  have hname : name.reverse.takeWhile (fun c => decide (c ≠ 0x2f)) = name.reverse := by
    refine takeWhile_all (fun c hc => ?_)
    simp only [decide_eq_true_eq]
    exact fun he => h.slash (he ▸ List.mem_reverse.1 hc)
  rw [hpath, List.rtakeWhile, List.reverse_append, List.takeWhile_append_of_pos (List.takeWhile_eq_self_iff.1 hname)]
  have hrest : dir.reverse.takeWhile (fun c => decide (c ≠ 0x2f)) = [] := by
    rcases hdir with rfl | hlast
    · rfl
    · obtain ⟨dir', rfl⟩ := List.getLast?_eq_some_iff.1 hlast
      rw [List.reverse_append]
      rfl
  rw [hrest, List.append_nil, List.reverse_reverse]

end Ws63Flash
