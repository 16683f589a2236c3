import Ws63Flash.FwpkgMain
import Ws63Flash.Lib.Noted
import Ws63Flash.Verbs
/-!
# ParseOpt — `parse_opt` of both programs, call by call

`argp_parse` calls `parse_opt` for each option, then for each argument with its number, and at the end.  An argument is
stored at its number, and only a verb bounds the number: without one the argument 19 is stored past the array, before `main`
sees that no verb was given (`parseOpt_stores_iff`).
-/
namespace Ws63Flash

open Octets Noted

/-! ## `argp_parse` -/

/-- What `parse_opt` is called with: an option, an argument and its number, the end and the number of the arguments. -/
inductive Key (ο : Type) where
  | opt (o : ο)
  | arg (arg_num : Nat) (arg : CStr)
  | fin (arg_num : Nat)

/-- A word of the command line. -/
inductive Word (ο : Type) where
  | opt (o : ο)
  /-- An option of `argp` that ends the program, or one that it refuses: there is no call. -/
  | own (status : Int)
  | arg (arg : CStr)

/-- A call of `parse_opt`, or the status with which `argp` ends the program. -/
abbrev ArgpCall (ο : Type) : Type := Except Int (Key ο)

def Word.opt? {ο : Type} : Word ο → Option (ArgpCall ο)
  | .opt o      => some (.ok (.opt o))
  | .own status => some (.error status)
  | .arg _      => none

def Word.arg? {ο : Type} : Word ο → Option CStr
  | .arg a => some a
  | _      => none

/-- The arguments of the line. -/
def argsOf {ο : Type} (line : List (Word ο)) : List CStr := line.filterMap Word.arg?

/-- The arguments are numbered from `arg_num` on, and the end has their number. -/
def argCalls {ο : Type} : Nat → List CStr → List (ArgpCall ο)
  | arg_num, []          => [.ok (.fin arg_num)]
  | arg_num, arg :: args => .ok (.arg arg_num arg) :: argCalls (arg_num + 1) args

/-- The options come first, wherever they stand. -/
def argpCalls {ο : Type} (line : List (Word ο)) : List (ArgpCall ο) := line.filterMap Word.opt? ++ argCalls 0 (argsOf line)

/-- A process that notes the index of each store into `args->args`; nothing outside answers it. -/
abbrev ArgpProc (α : Type) : Type := Noted Unit Unit Nat α

/-- An error is the status the program exits with. -/
def argpParse {ο σ : Type} (parse_opt : Key ο → σ → ArgpProc (Except Int σ)) :
    List (ArgpCall ο) → σ → ArgpProc (Except Int σ)
  | [], s                 => return .ok s
  | .error status :: _, _ => return .error status
  | .ok key :: ts, s      => do
    match ← parse_opt key s with
    | .error status => return .error status
    | .ok s         => argpParse parse_opt ts s

/-! ## What the two programs share -/

/-- `struct args`; `rest` are the fields that only one of the programs has. -/
structure ParsedArgs (υ ρ : Type) where
  verb : Option υ
  args : List (Option CStr)
  sized : args.length = MAX_PARTITION_CNT + 3
  argsCnt : Nat
  rest : ρ

/-- `arguments` is static: without a verb, and all its slots NULL. -/
def ParsedArgs.start {υ ρ : Type} (rest : ρ) : ParsedArgs υ ρ where
  verb := none
  args := List.replicate (MAX_PARTITION_CNT + 3) none
  sized := List.length_replicate
  argsCnt := 0
  rest := rest

def ParsedArgs.store {υ ρ : Type} (s : ParsedArgs υ ρ) (i : Nat) (arg : CStr) : ParsedArgs υ ρ where
  verb := s.verb
  args := s.args.set i (some arg)
  sized := by rw [List.length_set, s.sized]
  argsCnt := s.argsCnt
  rest := s.rest

/-- A second verb is refused. -/
def setVerb {υ ρ : Type} (verb : υ) (s : ParsedArgs υ ρ) : Except Int (ParsedArgs υ ρ) :=
  if s.verb.isSome then .error EX_USAGE else .ok { s with verb := some verb }

/-- What the verb, if there is one, limits of a number of arguments. -/
def ParsedArgs.limits {υ ρ : Type} (s : ParsedArgs υ ρ) (p : υ → Nat → Bool) (arg_num : Nat) : Bool :=
  s.verb.any (fun verb => p verb arg_num)

/-- `ARGP_KEY_ARG`. -/
def keyArg {υ ρ : Type} (refused : υ → Nat → Bool) (arg_num : Nat) (arg : CStr) (s : ParsedArgs υ ρ) :
    ArgpProc (Except Int (ParsedArgs υ ρ)) :=
  if s.limits refused arg_num then return .error EX_USAGE
  else do
    note [arg_num]
    if arg_num < MAX_PARTITION_CNT + 3 then return .ok (s.store arg_num arg) else quiet (Proc.halt .undefined)

/-- `ARGP_KEY_END`. -/
def keyEnd {υ ρ : Type} (refused : υ → Nat → Bool) (arg_num : Nat) (s : ParsedArgs υ ρ) : Except Int (ParsedArgs υ ρ) :=
  if s.limits refused arg_num then .error EX_USAGE else .ok { s with argsCnt := arg_num }

/-- `parse_opt` of a program with these options and these limits for its verbs. -/
def parseKey {ο υ ρ : Type} (opt : ο → ParsedArgs υ ρ → Except Int (ParsedArgs υ ρ))
    (argRefused endRefused : υ → Nat → Bool) : Key ο → ParsedArgs υ ρ → ArgpProc (Except Int (ParsedArgs υ ρ))
  | .opt o, s           => return opt o s
  | .arg arg_num arg, s => keyArg argRefused arg_num arg s
  | .fin arg_num, s     => return keyEnd endRefused arg_num s

/-! ## `ws63flash.c` -/

inductive FlashOpt where
  | lateBaud
  | baud (arg : Option CStr)
  | verbose
  | verb (verb : Verb)

structure FlashFields where
  verbose : Nat
  baud : Int
  lateBaud : Bool

abbrev FlashArgs : Type := ParsedArgs Verb FlashFields

/-- What the program is built with. -/
structure Build where
  /-- `HAVE_DECL_B230400` and the others. -/
  haveDecl : Nat → Bool
  /-- A speed that is not in the table is refused; not so on a Mac. -/
  speedChecked : Bool

/-- The speeds of `avail_baud_tbl`. -/
def Build.availBaud (b : Build) : List Nat :=
  115200 :: [230400, 460800, 500000, 576000, 921600, 1000000, 1152000, 1500000, 2000000].filter b.haveDecl

/-- `atoi`: spaces, a sign and digits up to the first other character, as `strtol` reads them, cut to an `int`. -/
def atoi (cs : List UInt8) : Int :=
  let (neg, cs) := stripSign (cs.dropWhile isSpace)
  let digits := cs.takeWhile (fun c => 0x30 ≤ c ∧ c ≤ 0x39)
  let v : Int := digits.foldl (fun v c => 10 * v + (c.toNat - 0x30)) 0
  let v := if neg then max (-v) (-2 ^ 63) else min v (2 ^ 63 - 1)
  v.bmod (2 ^ 32)

/-- The speed is not found, which ends the program. -/
def Build.speedRefused (b : Build) (baud : Int) : Bool := b.speedChecked ∧ ∀ n ∈ b.availBaud, (n : Int) ≠ baud

def flashOpt (b : Build) : FlashOpt → FlashArgs → Except Int FlashArgs
  | .lateBaud, s        => .ok { s with rest.lateBaud := true }
  | .baud none, _       => .error EX_USAGE
  | .baud (some arg), s =>
    if b.speedRefused (atoi arg.bytes) then .error EXIT_FAILURE else .ok { s with rest.baud := atoi arg.bytes }
  | .verbose, s         => .ok { s with rest.verbose := s.rest.verbose + 1 }
  | .verb verb, s       => setVerb verb s

def flashParseOpt (b : Build) : Key FlashOpt → FlashArgs → ArgpProc (Except Int FlashArgs) :=
  parseKey (flashOpt b) argRefused endRefused

/-- The `argp_parse` of `main`. -/
def flashLine (b : Build) (line : List (Word FlashOpt)) : ArgpProc (Except Int FlashArgs) :=
  argpParse (flashParseOpt b) (argpCalls line) (.start ⟨0, 115200, false⟩)

/-! ## `ws63fwpkg.c` -/

inductive FwpkgVerb where
  | inject

inductive FwpkgOpt where
  | out (arg : Option CStr)
  | inject

/-- The field is `outfd`. -/
abbrev FwpkgArgs : Type := ParsedArgs FwpkgVerb Int

/-- `open` gives the descriptor of a file, or -1. -/
def fwpkgOpt (openFd : CStr → Int) : FwpkgOpt → FwpkgArgs → Except Int FwpkgArgs
  | .out none, _       => .error EX_USAGE
  | .out (some arg), s => if arg.bytes = [0x2d] then .ok s else .ok { s with rest := openFd arg }
  | .inject, s         => setVerb .inject s

def injectArgRefused : FwpkgVerb → Nat → Bool
  | .inject, n => n ≥ MAX_PARTITION_CNT

def injectEndRefused : FwpkgVerb → Nat → Bool
  | .inject, n => n < 2

def fwpkgParseOpt (openFd : CStr → Int) : Key FwpkgOpt → FwpkgArgs → ArgpProc (Except Int FwpkgArgs) :=
  parseKey (fwpkgOpt openFd) injectArgRefused injectEndRefused

/-- The `argp_parse` of `main`, the output being standard output. -/
def fwpkgLine (openFd : CStr → Int) (line : List (Word FwpkgOpt)) : ArgpProc (Except Int FwpkgArgs) :=
  argpParse (fwpkgParseOpt openFd) (argpCalls line) (.start 1)

/-! ## The options -/

section

variable {ο υ ρ : Type} {opt : ο → ParsedArgs υ ρ → Except Int (ParsedArgs υ ρ)} {argRefused endRefused : υ → Nat → Bool}
  {plain : ο → Bool}

/-- What the options do: one that is `plain` sets a field of its own at most, any other one sets a verb or ends the
program. -/
structure OptsSet (opt : ο → ParsedArgs υ ρ → Except Int (ParsedArgs υ ρ)) (plain : ο → Bool) : Prop where
  ends : ∀ o s status, opt o s = .error status → plain o = false
  sets : ∀ o s t, opt o s = .ok t → t.args = s.args ∧ (t.verb.isSome ↔ s.verb.isSome ∨ plain o = false)

/-- An option that sets a verb or ends the program. -/
def Word.Decides (plain : ο → Bool) : Word ο → Prop
  | .opt o => plain o = false
  | .own _ => True
  | .arg _ => False

theorem argpParse_opt_error {o : ο} {s : ParsedArgs υ ρ} {status : Int} (h : opt o s = .error status)
    (ts : List (ArgpCall ο)) : argpParse (parseKey opt argRefused endRefused) (.ok (.opt o) :: ts) s = pure (.error status) := by
  rw [argpParse, parseKey, h]
  exact quiet_pure_bind _ _

theorem argpParse_opt_ok {o : ο} {s t : ParsedArgs υ ρ} (h : opt o s = .ok t) (ts : List (ArgpCall ο)) :
    argpParse (parseKey opt argRefused endRefused) (.ok (.opt o) :: ts) s
      = argpParse (parseKey opt argRefused endRefused) ts t := by
  rw [argpParse, parseKey, h]
  exact quiet_pure_bind _ _

/-- **The options** end the program, or leave the slots as they were and a verb if one of them decides. -/
theorem argpParse_opts (argRefused endRefused : υ → Nat → Bool) (hopt : OptsSet opt plain) : ∀ (line : List (Word ο)) (s : ParsedArgs υ ρ),
    ((∃ w ∈ line, w.Decides plain) ∧ ∃ status, ∀ ts,
      argpParse (parseKey opt argRefused endRefused) (line.filterMap Word.opt? ++ ts) s = pure (.error status)) ∨
    ∃ t, t.args = s.args ∧ (t.verb.isSome ↔ s.verb.isSome ∨ ∃ w ∈ line, w.Decides plain) ∧ ∀ ts,
      argpParse (parseKey opt argRefused endRefused) (line.filterMap Word.opt? ++ ts) s
        = argpParse (parseKey opt argRefused endRefused) ts t
  | [], s      => Or.inr ⟨s, rfl, by simp, fun _ => rfl⟩
  | w :: ws, s => by
    cases w with
    | arg a =>
      rcases argpParse_opts argRefused endRefused hopt ws s with ⟨⟨w, hw, hdec⟩, hend⟩ | ⟨t, hargs, hverb, hon⟩
      · exact Or.inl ⟨⟨w, List.mem_cons_of_mem _ hw, hdec⟩, hend⟩
      · refine Or.inr ⟨t, hargs, ?_, hon⟩
        simpa [Word.Decides] using hverb
    | own status => exact Or.inl ⟨⟨_, List.mem_cons_self, trivial⟩, status, fun _ => rfl⟩
    | opt o =>
      cases ht : opt o s with
      | error status =>
        exact Or.inl ⟨⟨_, List.mem_cons_self, hopt.ends o s status ht⟩, status, fun ts => argpParse_opt_error ht _⟩
      | ok t =>
        have hstep : ∀ ts, argpParse (parseKey opt argRefused endRefused) ((Word.opt o :: ws).filterMap Word.opt? ++ ts) s
            = argpParse (parseKey opt argRefused endRefused) (ws.filterMap Word.opt? ++ ts) t :=
          fun ts => argpParse_opt_ok ht _
        rcases argpParse_opts argRefused endRefused hopt ws t with ⟨⟨w, hw, hdec⟩, status, hend⟩ | ⟨t', hargs', hverb', hon⟩
        · exact Or.inl ⟨⟨w, List.mem_cons_of_mem _ hw, hdec⟩, status, fun ts => (hstep ts).trans (hend ts)⟩
        · obtain ⟨hargs, hverb⟩ := hopt.sets o s t ht
          refine Or.inr ⟨t', hargs'.trans hargs, ?_, fun ts => (hstep ts).trans (hon ts)⟩
          rw [hverb', hverb]
          simp [Word.Decides, or_assoc]

/-! ## The arguments -/

/-- The slots that hold the arguments `xs`. -/
def slotsOf (xs : List CStr) : List (Option CStr) := xs.map some ++ List.replicate (MAX_PARTITION_CNT + 3 - xs.length) none

theorem slotsOf_set {xs : List CStr} (h : xs.length < MAX_PARTITION_CNT + 3) (arg : CStr) :
    (slotsOf xs).set xs.length (some arg) = slotsOf (xs ++ [arg]) := by
  have hlen : xs.length = (xs.map some).length := (List.length_map _).symm
  have hrep : MAX_PARTITION_CNT + 3 - xs.length = MAX_PARTITION_CNT + 3 - (xs ++ [arg]).length + 1 := by
    rw [List.length_append, List.length_singleton]
    omega
  unfold slotsOf
  rw [hrep, List.replicate_succ, List.map_append, List.append_assoc]
  conv => lhs; rw [hlen]
  rw [List.set_append_right _ _ (Nat.le_refl _), Nat.sub_self]
  rfl

/-- How the calls for the arguments `as` end, the first `xs` being stored, and the indices that they store to. -/
inductive ArgsRun (argRefused endRefused : Nat → Bool) (s : ParsedArgs υ ρ) (xs as : List CStr) :
    Out (Except Int (ParsedArgs υ ρ)) → List Nat → Prop
  | parsed (t : ParsedArgs υ ρ) (hargs : t.args = slotsOf (xs ++ as)) (hcnt : t.argsCnt = xs.length + as.length)
      (hverb : t.verb = s.verb) (hrest : t.rest = s.rest)
      (hfit : xs.length + as.length ≤ MAX_PARTITION_CNT + 3) (hend : endRefused (xs.length + as.length) = false)
      (hpassed : ∀ i, xs.length ≤ i → i < xs.length + as.length → argRefused i = false) :
      ArgsRun argRefused endRefused s xs as (.ret (.ok t)) (List.range' xs.length as.length)
  | refused (k : Nat) (hk : k ≤ as.length) (hfit : xs.length + k ≤ MAX_PARTITION_CNT + 3)
      (hpassed : ∀ i, xs.length ≤ i → i < xs.length + k → argRefused i = false)
      (href : k < as.length ∧ argRefused (xs.length + k) = true ∨ k = as.length ∧ endRefused (xs.length + k) = true) :
      ArgsRun argRefused endRefused s xs as (.ret (.error EX_USAGE)) (List.range' xs.length k)
  | outside (hfull : xs.length ≤ MAX_PARTITION_CNT + 3) (hmore : MAX_PARTITION_CNT + 3 < xs.length + as.length)
      (hpassed : ∀ i, xs.length ≤ i → i ≤ MAX_PARTITION_CNT + 3 → argRefused i = false) :
      ArgsRun argRefused endRefused s xs as (.stop .undefined)
        (List.range' xs.length (MAX_PARTITION_CNT + 4 - xs.length))

theorem argpParse_arg_refused {arg_num : Nat} {s : ParsedArgs υ ρ} (h : s.limits argRefused arg_num = true) (arg : CStr)
    (ts : List (ArgpCall ο)) :
    argpParse (parseKey opt argRefused endRefused) (.ok (.arg arg_num arg) :: ts) s = pure (.error EX_USAGE) := by
  rw [argpParse, parseKey, keyArg, if_pos h]
  exact quiet_pure_bind _ _

/-- A call for an argument that is not refused. -/
theorem argpParse_arg {arg_num : Nat} {s : ParsedArgs υ ρ} (h : s.limits argRefused arg_num = false) (arg : CStr)
    (ts : List (ArgpCall ο)) :
    argpParse (parseKey opt argRefused endRefused) (.ok (.arg arg_num arg) :: ts) s = note [arg_num] >>= fun _ =>
      if arg_num < MAX_PARTITION_CNT + 3 then argpParse (parseKey opt argRefused endRefused) ts (s.store arg_num arg)
      else quiet (Proc.halt .undefined) := by
  rw [argpParse, parseKey, keyArg, if_neg (by simp [h]), bind_assoc_run]
  by_cases hfit : arg_num < MAX_PARTITION_CNT + 3
  · simp only [if_pos hfit]
    exact congrArg _ (funext fun _ => quiet_pure_bind _ _)
  · simp only [if_neg hfit]
    rfl

theorem argpParse_end (arg_num : Nat) (s : ParsedArgs υ ρ) :
    argpParse (parseKey opt argRefused endRefused) [.ok (.fin arg_num)] s = pure (keyEnd endRefused arg_num s) := by
  rw [argpParse, parseKey]
  cases keyEnd endRefused arg_num s <;> exact quiet_pure_bind _ _

/-- One argument more has been stored. -/
theorem ArgsRun.step {argRefused endRefused : Nat → Bool} {s : ParsedArgs υ ρ} {xs as : List CStr} {arg : CStr}
    {o : Out (Except Int (ParsedArgs υ ρ))} {l : List Nat} (hpass : argRefused xs.length = false)
    (hrun : ArgsRun argRefused endRefused (s.store xs.length arg) (xs ++ [arg]) as o l) :
    ArgsRun argRefused endRefused s xs (arg :: as) o (xs.length :: l) := by
  have hlen : (xs ++ [arg]).length = xs.length + 1 := List.length_append
  -- the argument that is stored passes too
  have hfirst : ∀ {m i : Nat}, (∀ i, (xs ++ [arg]).length ≤ i → i < m → argRefused i = false) → xs.length ≤ i → i < m →
      argRefused i = false := by
    intro m i hrest hle hlt
    rcases Nat.eq_or_lt_of_le hle with rfl | hgt
    · exact hpass
    · exact hrest i (by omega) hlt
  cases hrun with
  | parsed t hargs hcnt hverb hrest hfit hend hpassed =>
    rw [hlen, ← List.range'_succ]
    rw [List.append_assoc] at hargs
    have hcount : (xs ++ [arg]).length + as.length = xs.length + (arg :: as).length := by
      rw [hlen, List.length_cons]
      omega
    rw [hcount] at hcnt hfit hend hpassed
    exact ArgsRun.parsed t hargs hcnt hverb hrest hfit hend (fun i => hfirst hpassed)
  | refused k hk hfit hpassed href =>
    rw [hlen, ← List.range'_succ]
    have hcount : (xs ++ [arg]).length + k = xs.length + (k + 1) := by omega
    rw [hcount] at hfit hpassed href
    refine ArgsRun.refused (k + 1) (Nat.succ_le_succ hk) hfit (fun i => hfirst hpassed) ?_
    simpa using href
  | outside hfull hmore hpassed =>
    rw [hlen] at hfull hmore hpassed
    have hcount : MAX_PARTITION_CNT + 4 - xs.length = MAX_PARTITION_CNT + 4 - (xs ++ [arg]).length + 1 := by omega
    have hrun : ArgsRun argRefused endRefused s xs (arg :: as) (.stop .undefined)
        (List.range' xs.length (MAX_PARTITION_CNT + 4 - xs.length)) := by
      refine ArgsRun.outside (by omega) (by rw [List.length_cons]; omega) (fun i h1 h2 => ?_)
      exact hfirst (fun i h1 h2 => hpassed i (by omega) (by omega)) h1 (Nat.lt_succ_of_le h2)
    rw [hcount, List.range'_succ] at hrun
    rwa [hlen] at hrun ⊢

/-- **The arguments**, by the first that is refused, or has no slot. -/
theorem argCalls_run (opt : ο → ParsedArgs υ ρ → Except Int (ParsedArgs υ ρ)) (argRefused endRefused : υ → Nat → Bool) :
    ∀ (as : List CStr) (s : ParsedArgs υ ρ) (xs : List CStr), xs.length ≤ MAX_PARTITION_CNT + 3 → s.args = slotsOf xs →
      ArgsRun (s.limits argRefused) (s.limits endRefused) s xs as
        (erase (argpParse (parseKey opt argRefused endRefused) (argCalls xs.length as) s) () []).1
        (notes (argpParse (parseKey opt argRefused endRefused) (argCalls xs.length as) s) () [])
  | [], s, xs, hfull, hslots => by
    rw [argCalls, argpParse_end]
    unfold keyEnd
    cases hend : s.limits endRefused xs.length with
    | true  =>
      exact ArgsRun.refused 0 (Nat.le_refl _) hfull (fun i h1 h2 => absurd h1 (Nat.not_le_of_lt h2)) (Or.inr ⟨rfl, hend⟩)
    | false =>
      refine ArgsRun.parsed _ ?_ rfl rfl rfl hfull hend (fun i h1 h2 => absurd h1 (Nat.not_le_of_lt h2))
      rw [List.append_nil]
      exact hslots
  | arg :: as, s, xs, hfull, hslots => by
    rw [argCalls]
    cases href : s.limits argRefused xs.length with
    | true =>
      rw [argpParse_arg_refused href]
      exact ArgsRun.refused 0 (Nat.zero_le _) hfull (fun i h1 h2 => absurd h1 (Nat.not_le_of_lt h2))
        (Or.inl ⟨Nat.succ_pos _, href⟩)
    | false =>
      rw [argpParse_arg href, erase_bind, erase_note, notes_note_bind, pure_bind]
      by_cases hfit : xs.length < MAX_PARTITION_CNT + 3
      · rw [if_pos hfit]
        have hlen : (xs ++ [arg]).length = xs.length + 1 := List.length_append
        have hstored : (s.store xs.length arg).args = slotsOf (xs ++ [arg]) := by
          rw [← slotsOf_set hfit, ← hslots]
          rfl
        have ih := argCalls_run opt argRefused endRefused as (s.store xs.length arg) (xs ++ [arg]) (by omega) hstored
        rw [hlen] at ih
        exact ArgsRun.step href ih
      · rw [if_neg hfit]
        have hone : MAX_PARTITION_CNT + 4 - xs.length = 1 := by omega
        have hrun : ArgsRun (s.limits argRefused) (s.limits endRefused) s xs (arg :: as) (.stop .undefined)
            (List.range' xs.length (MAX_PARTITION_CNT + 4 - xs.length)) := by
          refine ArgsRun.outside hfull (by rw [List.length_cons]; omega) (fun i h1 h2 => ?_)
          rw [show i = xs.length by omega]
          exact href
        rw [hone] at hrun
        exact hrun

/-! ## The stores -/

/-- Every store is into a slot, and when the line is parsed, and has a verb, NULL follows the last argument stored. -/
structure SlotsKept (m : ArgpProc (Except Int (ParsedArgs υ ρ))) : Prop where
  inRange : ∀ i ∈ notes m () [], i < MAX_PARTITION_CNT + 3
  ended : ∀ s, (erase m () []).1 = .ret (.ok s) → s.verb.isSome → ∀ i ∈ (notes m () []).getLast?, s.args[i + 1]? = some none

theorem slotsOf_getElem? {xs : List CStr} (h : xs.length < MAX_PARTITION_CNT + 3) :
    (slotsOf xs)[xs.length]? = some none := by
  unfold slotsOf
  rw [List.getElem?_append_right (by rw [List.length_map]), List.length_map, Nat.sub_self, List.getElem?_replicate]
  exact if_pos (by omega)

/-- Only arguments that pass are stored. -/
theorem ArgsRun.passed {argRefused endRefused : Nat → Bool} {s : ParsedArgs υ ρ} {xs as : List CStr}
    {o : Out (Except Int (ParsedArgs υ ρ))} {l : List Nat} (hrun : ArgsRun argRefused endRefused s xs as o l) :
    ∀ i ∈ l, argRefused i = false := by
  intro i hi
  cases hrun with
  | parsed t _ _ _ _ _ _ hpassed =>
    obtain ⟨h1, h2⟩ := List.mem_range'_1.1 hi
    exact hpassed i h1 h2
  | refused k _ _ hpassed _ =>
    obtain ⟨h1, h2⟩ := List.mem_range'_1.1 hi
    exact hpassed i h1 h2
  | outside _ _ hpassed =>
    obtain ⟨h1, h2⟩ := List.mem_range'_1.1 hi
    exact hpassed i h1 (by omega)

/-- **With a verb** that limits the arguments. -/
theorem slotsKept_verb {s : ParsedArgs υ ρ} {as : List CStr} {m : ArgpProc (Except Int (ParsedArgs υ ρ))}
    (hlim : ∀ i, MAX_PARTITION_CNT ≤ i → s.limits argRefused i = true)
    (hrun : ArgsRun (s.limits argRefused) (s.limits endRefused) s [] as (erase m () []).1 (notes m () [])) : SlotsKept m := by
  have hbelow : ∀ i ∈ notes m () [], i < MAX_PARTITION_CNT := by
    intro i hi
    by_contra hge
    have hpass := hrun.passed i hi
    rw [hlim i (Nat.le_of_not_lt hge)] at hpass
    cases hpass
  refine ⟨fun i hi => Nat.lt_add_right 3 (hbelow i hi), fun t ht _ i hi => ?_⟩
  have hlt := hbelow i (List.mem_of_getLast? hi)
  generalize (erase m () []).1 = o at hrun ht
  generalize notes m () [] = l at hrun hi
  cases hrun with
  | parsed t' hargs =>
    cases ht
    -- the last store is that of the last argument
    have hlast : i + 1 = as.length := by
      rw [List.getLast?_range'] at hi
      split at hi
      · cases hi
      · rename_i hne
        have : i = as.length - 1 := by simpa using hi.symm
        omega
    rw [hargs, List.nil_append, hlast]
    exact slotsOf_getElem? (by omega)
  | refused => cases ht
  | outside => cases ht

/-- Without a verb nothing is refused. -/
theorem ArgsRun.no_verb {s : ParsedArgs υ ρ} (hverb : s.verb = none) {as : List CStr} {o : Out (Except Int (ParsedArgs υ ρ))}
    {l : List Nat} (hrun : ArgsRun (s.limits argRefused) (s.limits endRefused) s [] as o l) :
    (as.length ≤ MAX_PARTITION_CNT + 3 ∧ l = List.range' 0 as.length ∧ ∀ t, o = .ret (.ok t) → t.verb = none) ∨
      (MAX_PARTITION_CNT + 3 < as.length ∧ MAX_PARTITION_CNT + 3 ∈ l) := by
  have hlimits : ∀ (p : υ → Nat → Bool) (i : Nat), s.limits p i = false := by
    intro p i
    unfold ParsedArgs.limits
    rw [hverb]
    rfl
  cases hrun with
  | parsed t _ _ hsame _ hfit =>
    rw [List.length_nil, Nat.zero_add] at hfit
    refine Or.inl ⟨hfit, rfl, fun t' ht => ?_⟩
    cases ht
    exact hsame.trans hverb
  | refused k _ _ _ href =>
    rw [hlimits, hlimits] at href
    rcases href with ⟨_, h⟩ | ⟨_, h⟩ <;> cases h
  | outside _ hmore =>
    rw [List.length_nil, Nat.zero_add] at hmore
    exact Or.inr ⟨hmore, List.mem_range'_1.2 ⟨Nat.zero_le _, by rw [List.length_nil]; omega⟩⟩

/-- **Without a verb** the arguments past the last slot are stored as well. -/
theorem slotsKept_none {s : ParsedArgs υ ρ} (hverb : s.verb = none) {as : List CStr}
    {m : ArgpProc (Except Int (ParsedArgs υ ρ))}
    (hrun : ArgsRun (s.limits argRefused) (s.limits endRefused) s [] as (erase m () []).1 (notes m () [])) :
    SlotsKept m ↔ as.length ≤ MAX_PARTITION_CNT + 3 := by
  rcases hrun.no_verb hverb with ⟨hfit, hl, hnone⟩ | ⟨hmore, hpast⟩
  · refine iff_of_true ⟨fun i hi => ?_, fun t ht hsome => ?_⟩ hfit
    · rw [hl] at hi
      have := (List.mem_range'_1.1 hi).2
      omega
    · rw [hnone t ht] at hsome
      cases hsome
  · refine iff_of_false (fun hkept => ?_) (Nat.not_le_of_lt hmore)
    exact absurd (hkept.inRange _ hpast) (Nat.lt_irrefl _)

/-- The verb lets `n` arguments pass, one by one and then their number. -/
def verbPasses (argRefused endRefused : υ → Nat → Bool) (verb : υ) (n : Nat) : Bool :=
  (List.range n).all (fun i => !argRefused verb i) && !endRefused verb n

/-- A line that has been parsed: its verb, what the other options have set, and its arguments in the slots. -/
structure ParsedArgs.Filled (s : ParsedArgs υ ρ) (v : υ) (r : ρ) (xs : List CStr) : Prop where
  verb : s.verb = some v
  rest : s.rest = r
  args : s.args = slotsOf xs
  argsCnt : s.argsCnt = xs.length
  fits : xs.length ≤ MAX_PARTITION_CNT

/-- **What a verb makes of the arguments**: they are in the slots, or the program ends with the usage. -/
theorem ArgsRun.verb_cases {s : ParsedArgs υ ρ} {verb : υ} (hv : s.verb = some verb)
    (hlim : ∀ i, MAX_PARTITION_CNT ≤ i → argRefused verb i = true) {as : List CStr} {o : Out (Except Int (ParsedArgs υ ρ))}
    {l : List Nat} (hrun : ArgsRun (s.limits argRefused) (s.limits endRefused) s [] as o l) :
    (verbPasses argRefused endRefused verb as.length = true ∧ ∃ t : ParsedArgs υ ρ, o = .ret (.ok t) ∧
      t.Filled verb s.rest as) ∨
    (verbPasses argRefused endRefused verb as.length = false ∧ o = .ret (.error EX_USAGE)) := by
  have hlimits : ∀ p : υ → Nat → Bool, s.limits p = p verb := fun p => by
    funext i
    rw [ParsedArgs.limits, hv]
    rfl
  simp only [hlimits] at hrun
  unfold verbPasses
  cases hrun with
  | parsed t hargs hcnt hverb hrest hfit hend hpassed =>
    simp only [List.length_nil, Nat.zero_add] at hcnt hend hpassed
    refine Or.inl ⟨?_, t, rfl, hverb.trans hv, hrest, hargs, hcnt, ?_⟩
    · rw [hend, Bool.not_false, Bool.and_true, List.all_eq_true]
      intro i hi
      rw [hpassed i (Nat.zero_le _) (List.mem_range.1 hi)]
      rfl
    · by_contra hmore
      have hpass := hpassed MAX_PARTITION_CNT (Nat.zero_le _) (Nat.lt_of_not_le hmore)
      rw [hlim _ (Nat.le_refl _)] at hpass
      cases hpass
  | refused k hk hfit hpassed href =>
    simp only [List.length_nil, Nat.zero_add] at href
    refine Or.inr ⟨?_, rfl⟩
    rcases href with ⟨hlt, harg⟩ | ⟨rfl, hend⟩
    · have hall : (List.range as.length).all (fun i => !argRefused verb i) = false := by
        rw [List.all_eq_false]
        exact ⟨k, List.mem_range.2 hlt, by rw [harg]; decide⟩
      rw [hall, Bool.false_and]
    · rw [hend, Bool.not_true, Bool.and_false]
  | outside _ _ hpassed =>
    have hpass := hpassed MAX_PARTITION_CNT (Nat.zero_le _) (Nat.le_add_right _ _)
    rw [hlim _ (Nat.le_refl _)] at hpass
    cases hpass

/-- **A line whose options set a verb** and let the program go on. -/
theorem argpParse_line (hopt : OptsSet opt plain) (hlim : ∀ verb i, MAX_PARTITION_CNT ≤ i → argRefused verb i = true)
    {line : List (Word ο)} {rest : ρ} {t : ParsedArgs υ ρ} {verb : υ}
    (hopts : argpParse (parseKey opt argRefused endRefused) (line.filterMap Word.opt?) (.start rest) = pure (.ok t))
    (hverb : t.verb = some verb) :
    (verbPasses argRefused endRefused verb (argsOf line).length = true ∧ ∃ s : ParsedArgs υ ρ,
      (erase (argpParse (parseKey opt argRefused endRefused) (argpCalls line) (.start rest)) () []).1 = .ret (.ok s) ∧
        s.Filled verb t.rest (argsOf line)) ∨
    (verbPasses argRefused endRefused verb (argsOf line).length = false ∧
      (erase (argpParse (parseKey opt argRefused endRefused) (argpCalls line) (.start rest)) () []).1
        = .ret (.error EX_USAGE)) := by
  have hret : ∀ {r r' : Except Int (ParsedArgs υ ρ)}, (pure r : ArgpProc _) = pure r' → r = r' := fun h =>
    Out.ret.inj (congrArg Prod.fst (congrFun (congrFun h ()) []))
  rcases argpParse_opts argRefused endRefused hopt line (.start rest) with
    ⟨_, status, hend⟩ | ⟨t', hargs, _, hon⟩
  · have hend := hend []
    rw [List.append_nil, hopts] at hend
    cases hret hend
  · have hsame := hon []
    rw [List.append_nil, hopts] at hsame
    have heq : t = t' := Except.ok.inj (hret hsame)
    subst heq
    have hrun := argCalls_run opt argRefused endRefused (argsOf line) t []
      (Nat.zero_le _) hargs
    rw [List.length_nil, ← hon] at hrun
    exact hrun.verb_cases hverb (hlim verb)

/-- **When every store is into a slot**: when a verb limits the arguments, the program ends before the first, or there are
no more of them than slots. -/
theorem slotsKept_iff (hopt : OptsSet opt plain) (hlim : ∀ verb i, MAX_PARTITION_CNT ≤ i → argRefused verb i = true)
    (line : List (Word ο)) (rest : ρ) :
    SlotsKept (argpParse (parseKey opt argRefused endRefused) (argpCalls line) (.start rest)) ↔
      (∃ w ∈ line, w.Decides plain) ∨ (argsOf line).length ≤ MAX_PARTITION_CNT + 3 := by
  unfold argpCalls
  rcases argpParse_opts argRefused endRefused hopt line (.start rest) with
    ⟨hdec, status, hend⟩ | ⟨t, hargs, hverb, hon⟩
  · rw [hend]
    refine iff_of_true ⟨fun i hi => absurd hi List.not_mem_nil, fun s hs => ?_⟩ (Or.inl hdec)
    cases hs
  · rw [hon]
    have hslots : t.args = slotsOf [] := hargs
    have hrun := argCalls_run opt argRefused endRefused (argsOf line) t []
      (Nat.zero_le _) hslots
    cases hv : t.verb with
    | none =>
      have hplain : ¬ ∃ w ∈ line, w.Decides plain := fun hdec => by
        have hsome := hverb.2 (Or.inr hdec)
        rw [hv] at hsome
        cases hsome
      rw [or_iff_right hplain]
      exact slotsKept_none hv hrun
    | some verb =>
      have hdec : ∃ w ∈ line, w.Decides plain := by simpa [hv, ParsedArgs.start] using hverb
      refine iff_of_true (slotsKept_verb (fun i hi => ?_) hrun) (Or.inl hdec)
      unfold ParsedArgs.limits
      rw [hv]
      exact hlim verb i hi

end

/-! ## The two programs -/

/-- The options that neither set a verb nor end the program. -/
def flashPlain (b : Build) : FlashOpt → Bool
  | .lateBaud        => true
  | .baud none       => false
  | .baud (some arg) => !b.speedRefused (atoi arg.bytes)
  | .verbose         => true
  | .verb _          => false

def fwpkgPlain : FwpkgOpt → Bool
  | .out arg => arg.isSome
  | .inject  => false

theorem setVerb_ok {υ ρ : Type} {verb : υ} {s t : ParsedArgs υ ρ} (h : setVerb verb s = .ok t) :
    t.args = s.args ∧ t.verb = some verb := by
  unfold setVerb at h
  split at h
  · cases h
  · cases h
    exact ⟨rfl, rfl⟩

theorem flashOpt_sets (b : Build) : OptsSet (flashOpt b) (flashPlain b) := by
  constructor
  · intro o s status h
    cases o with
    | lateBaud  => cases h
    | baud arg  =>
      cases arg with
      | none     => rfl
      | some arg =>
        rw [flashOpt] at h
        split at h
        · rename_i href
          rw [flashPlain, href]
          rfl
        · cases h
    | verbose   => cases h
    | verb verb => rfl
  · intro o s t h
    cases o with
    | lateBaud  =>
      cases h
      simp [flashPlain]
    | baud arg  =>
      cases arg with
      | none     => cases h
      | some arg =>
        rw [flashOpt] at h
        split at h
        · cases h
        · rename_i href
          cases h
          simp [flashPlain, href]
    | verbose   =>
      cases h
      simp [flashPlain]
    | verb verb =>
      obtain ⟨hargs, hverb⟩ := setVerb_ok h
      simp [hargs, hverb, flashPlain]

theorem fwpkgOpt_sets (openFd : CStr → Int) : OptsSet (fwpkgOpt openFd) fwpkgPlain := by
  constructor
  · intro o s status h
    cases o with
    | out arg =>
      cases arg with
      | none     => rfl
      | some arg =>
        rw [fwpkgOpt] at h
        split at h <;> cases h
    | inject  => rfl
  · intro o s t h
    cases o with
    | out arg =>
      cases arg with
      | none     => cases h
      | some arg =>
        rw [fwpkgOpt] at h
        split at h <;> cases h <;> simp [fwpkgPlain]
    | inject  =>
      obtain ⟨hargs, hverb⟩ := setVerb_ok h
      simp [hargs, hverb, fwpkgPlain]

/-- Every verb refuses an argument beyond the partitions. -/
theorem argRefused_of_le (verb : Verb) (i : Nat) (h : MAX_PARTITION_CNT ≤ i) : argRefused verb i = true := by
  cases verb with
  | flash     => exact decide_eq_true h
  | write     => exact decide_eq_true h
  | erase     => exact decide_eq_true (Nat.lt_of_lt_of_le (by decide) h)
  | writeProg => exact decide_eq_true (Nat.lt_of_lt_of_le (by decide) h)

/-- **When `parse_opt` keeps to its slots**: in both programs, when an option sets a verb, or ends the program, or there
are at most nineteen arguments. -/
theorem parseOpt_stores_iff (b : Build) (openFd : CStr → Int) (line : List (Word FlashOpt)) (line' : List (Word FwpkgOpt)) :
    (SlotsKept (flashLine b line) ↔
      (∃ w ∈ line, w.Decides (flashPlain b)) ∨ (argsOf line).length ≤ MAX_PARTITION_CNT + 3) ∧
    (SlotsKept (fwpkgLine openFd line') ↔
      (∃ w ∈ line', w.Decides fwpkgPlain) ∨ (argsOf line').length ≤ MAX_PARTITION_CNT + 3) :=
  ⟨slotsKept_iff (flashOpt_sets b) argRefused_of_le line _,
    slotsKept_iff (fwpkgOpt_sets openFd) (fun _ _ hi => decide_eq_true hi) line' 1⟩

/-- Twenty arguments, and no option. -/
def twentyArgs (ο : Type) : List (Word ο) := List.replicate 20 (.arg fileA)

/-- A build with every speed. -/
def fullBuild : Build := ⟨fun _ => true, true⟩

/-- **Without a verb** the argument 19 is stored past the array. -/
theorem parseOpt_stores_past : ¬ SlotsKept (flashLine fullBuild (twentyArgs FlashOpt)) ∧
    ¬ SlotsKept (fwpkgLine (fun _ => 3) (twentyArgs FwpkgOpt)) := by
  have hplain : ∀ {ο : Type} (plain : ο → Bool), ¬ ((∃ w ∈ twentyArgs ο, w.Decides plain) ∨
      (argsOf (twentyArgs ο)).length ≤ MAX_PARTITION_CNT + 3) := by
    rintro ο plain (⟨w, hw, hdec⟩ | hfit)
    · rw [List.eq_of_mem_replicate hw] at hdec
      exact hdec
    · exact absurd hfit (by show ¬ 20 ≤ 19; decide)
  constructor
  · exact fun hkept => hplain _ ((slotsKept_iff (flashOpt_sets fullBuild) argRefused_of_le _ _).1 hkept)
  · exact fun hkept => hplain _ ((slotsKept_iff (fwpkgOpt_sets _) (fun _ _ hi => decide_eq_true hi) _ _).1 hkept)

/-! ## `main` -/

/-- The arguments in the slots, up to NULL; past the array there is none to read. -/
def scanSlots : List (Option CStr) → Option (List CStr)
  | []                => none
  | none :: _         => some []
  | some arg :: slots => (scanSlots slots).map (arg :: ·)

theorem scanSlots_append_none : ∀ (xs : List CStr) (slots : List (Option CStr)),
    scanSlots (xs.map some ++ none :: slots) = some xs
  | [], slots      => rfl
  | x :: xs, slots => by rw [List.map_cons, List.cons_append, scanSlots, scanSlots_append_none xs slots, Option.map_some]

/-- **A scan** from a slot on sees the arguments from there on. -/
theorem scanSlots_drop {xs : List CStr} {i : Nat} (hfit : xs.length < MAX_PARTITION_CNT + 3)
    (hi : i < MAX_PARTITION_CNT + 3) : scanSlots ((slotsOf xs).drop i) = some (xs.drop i) := by
  have hrep : MAX_PARTITION_CNT + 3 - xs.length - (i - xs.length)
      = (MAX_PARTITION_CNT + 3 - xs.length - (i - xs.length) - 1) + 1 := by omega
  unfold slotsOf
  rw [List.drop_append, List.length_map, ← List.map_drop, List.drop_replicate, hrep, List.replicate_succ]
  exact scanSlots_append_none _ _

/-- `main`, from the command line on. -/
def ws63flash (fuel : Nat) (h : Host) (b : Build) (line : List (Word FlashOpt)) : Tty Int :=
  match (erase (flashLine b line) () []).1 with
  | .stop x               => Proc.halt x
  | .ret (.error status)  => return status
  | .ret (.ok arguments)  =>
    match arguments.verb, scanSlots arguments.args with
    | none, _              => return EXIT_FAILURE
    | some _, none         => Proc.halt .undefined
    | some verb, some args =>
      if ¬ h.tty then return EXIT_FAILURE
      else do
        uartOpen 115200
        let ret ← verbRun fuel h ⟨args, UInt32.ofInt arguments.rest.baud, arguments.rest.lateBaud⟩ verb
        uartOpen 115200
        return ret

section

variable {b : Build} {line : List (Word FlashOpt)} {t : FlashArgs} {verb : Verb}
  (hopts : argpParse (flashParseOpt b) (line.filterMap Word.opt?) (.start ⟨0, 115200, false⟩) = pure (.ok t))
  (hverb : t.verb = some verb)
include hopts hverb

/-- The calls for the arguments let pass what `parseOpt` does. -/
theorem flashLine_cases :
    (parseOpt verb (argsOf line).length = true ∧ ∃ s : FlashArgs, (erase (flashLine b line) () []).1 = .ret (.ok s) ∧
      s.Filled verb t.rest (argsOf line)) ∨
    (parseOpt verb (argsOf line).length = false ∧ (erase (flashLine b line) () []).1 = .ret (.error EX_USAGE)) :=
  argpParse_line (flashOpt_sets b) argRefused_of_le hopts hverb

/-- **`bin_in_args`**, which reads from the slot 2 on, finds the arguments after the first two. -/
theorem flashLine_bin_names {s : FlashArgs} (hs : (erase (flashLine b line) () []).1 = .ret (.ok s)) :
    scanSlots (s.args.drop 2) = some ((argsOf line).drop 2) := by
  rcases flashLine_cases hopts hverb with ⟨_, s', hs', hfilled⟩ | ⟨_, herr⟩
  · rw [hs] at hs'
    cases hs'
    rw [hfilled.args]
    exact scanSlots_drop (i := 2) (Nat.lt_of_le_of_lt hfilled.fits (by decide)) (by decide)
  · rw [hs] at herr
    cases herr

/-- **A line with a verb** is run with its arguments, as many as `parse_opt` lets pass. -/
theorem ws63flash_eq_main (fuel : Nat) (h : Host) : ws63flash fuel h b line
    = main fuel h verb ⟨argsOf line, UInt32.ofInt t.rest.baud, t.rest.lateBaud⟩ := by
  unfold ws63flash main
  rcases flashLine_cases hopts hverb with ⟨hpass, s, hs, hfilled⟩ | ⟨hpass, herr⟩
  · have hscan : scanSlots s.args = some (argsOf line) := by
      rw [hfilled.args]
      exact scanSlots_drop (i := 0) (Nat.lt_of_le_of_lt hfilled.fits (by decide)) (by decide)
    simp only [hs, hfilled.verb, hscan, hfilled.rest, hpass, not_true_eq_false, if_false]
  · simp only [herr, hpass]
    rfl

end

/-- The calls for the arguments of `--inject` let pass what `parseInject` does. -/
theorem fwpkgLine_cases {openFd : CStr → Int} {line : List (Word FwpkgOpt)} {t : FwpkgArgs}
    (hopts : argpParse (fwpkgParseOpt openFd) (line.filterMap Word.opt?) (.start 1) = pure (.ok t))
    (hverb : t.verb = some .inject) :
    (parseInject (argsOf line).length = true ∧ ∃ s : FwpkgArgs, (erase (fwpkgLine openFd line) () []).1 = .ret (.ok s) ∧
      s.Filled .inject t.rest (argsOf line)) ∨
    (parseInject (argsOf line).length = false ∧ (erase (fwpkgLine openFd line) () []).1 = .ret (.error EX_USAGE)) :=
  argpParse_line (fwpkgOpt_sets openFd) (fun _ _ hi => decide_eq_true hi) hopts hverb

end Ws63Flash
