import Ws63Flash.ParseOpt
/-!
# FwpkgArgs — `ws63fwpkg` from its command line

The last `-o` that names a file gives the output, and a file that could not be opened has no positive descriptor; each `-o`
that is taken makes its file, whatever becomes of the rest of the line.  The program writes to one output at most, and that
begins, wherever a run stops, with the front of one image over its old bytes (`ws63fwpkgMain_leaves`).
-/
namespace Ws63Flash

open Octets Noted Language

/-- `parse_opt` goes on after the word. -/
def Word.goesOn : Word FwpkgOpt → Bool
  | .own _           => false
  | .opt (.out none) => false
  | _                => true

def Word.isInject : Word FwpkgOpt → Bool
  | .opt .inject => true
  | _            => false

/-- The file that the option names: `-o -` names none. -/
def FwpkgOpt.file : FwpkgOpt → Option CStr
  | .out (some name) => if name.bytes = [0x2d] then none else some name
  | _                => none

def Word.file : Word FwpkgOpt → Option CStr
  | .opt o => o.file
  | _      => none

/-- The file of the last `-o`; without one the output is standard output. -/
def outFile (line : List (Word FwpkgOpt)) : Option CStr := (line.filterMap Word.file).getLast?

/-- The descriptor of the output after the line, `fd` before. -/
def outfdOf (openFd : CStr → Int) (line : List (Word FwpkgOpt)) (fd : Int) : Int :=
  ((outFile line).map openFd).getD fd

/-- What the options of a line make of the arguments. -/
def optsOf (openFd : CStr → Int) (line : List (Word FwpkgOpt)) (s : FwpkgArgs) : FwpkgArgs :=
  { s with
    verb := if line.any Word.isInject then some .inject else s.verb
    rest := outfdOf openFd line s.rest }

/-- The options that `parse_opt` takes before it stops. -/
def optsTaken (openFd : CStr → Int) : List (Word FwpkgOpt) → FwpkgArgs → List FwpkgOpt
  | [], _          => []
  | .own _ :: _, _ => []
  | .arg _ :: ws, s => optsTaken openFd ws s
  | .opt o :: ws, s =>
    match fwpkgOpt openFd o s with
    | .error _ => []
    | .ok t    => o :: optsTaken openFd ws t

/-- The files, and what standard output has got. -/
structure Files where
  file : CStr → Option (List UInt8)
  stdout : List UInt8

/-- `open(arg, O_RDWR | O_CREAT, 0644)` of the names: each that has got a descriptor is there. -/
def Files.opened (files : Files) (openFd : CStr → Int) (names : List CStr) : Files :=
  { files with file := fun name =>
      if name ∈ names ∧ 0 ≤ openFd name then some (openOut (files.file name)) else files.file name }

/-- The files once the options of the line have been taken. -/
def filesOf (openFd : CStr → Int) (line : List (Word FwpkgOpt)) (old : Files) : Files :=
  old.opened openFd ((optsTaken openFd line (.start 1)).filterMap FwpkgOpt.file)

/-- `bs` in the output, from the start of a file and at the end of standard output. -/
def Files.put (files : Files) : Option CStr → List UInt8 → Files
  | none, bs     => { files with stdout := files.stdout ++ bs }
  | some out, bs =>
    { files with file := fun name => if name = out then some (overwrite (openOut (files.file name)) bs) else files.file name }

/-- A run of the program: its status, and the files, which were `old`.  `lost` is how much of what `fwrite` took the last
flush does not get out, in `fclose` or at the exit: nobody looks at that. -/
def ws63fwpkgMain (fuel : Nat) (h : Host) (stack : StackRecs) (openFd : CStr → Int) (line : List (Word FwpkgOpt))
    (old : Files) (io : FileIo) (lost : Nat) : Out Int × Files :=
  let files := filesOf openFd line old
  match (erase (fwpkgLine openFd line) () []).1 with
  | .stop x               => (.stop x, files)
  | .ret (.error status)  => (.ret status, files)
  | .ret (.ok arguments)  =>
    match arguments.verb, (arguments.args.take arguments.argsCnt).mapM id with
    | none, _                 => (.ret EXIT_FAILURE, files)
    | some .inject, none      => (.stop .undefined, files)
    | some .inject, some args =>
      if arguments.rest ≤ 0 then (.ret EXIT_FAILURE, files)
      else
        let run := verbInject fuel h stack args io []
        (run.1, files.put (outFile line) ((output run.2).take ((output run.2).length - lost)))

/-! ## The options -/

theorem outfdOf_cons_none {w : Word FwpkgOpt} (hw : w.file = none) (openFd : CStr → Int) (ws : List (Word FwpkgOpt))
    (fd : Int) : outfdOf openFd (w :: ws) fd = outfdOf openFd ws fd := by
  rw [outfdOf, outFile, List.filterMap_cons_none hw, outfdOf, outFile]

theorem outfdOf_cons_some {w : Word FwpkgOpt} {name : CStr} (hw : w.file = some name) (openFd : CStr → Int)
    (ws : List (Word FwpkgOpt)) (fd : Int) : outfdOf openFd (w :: ws) fd = outfdOf openFd ws (openFd name) := by
  rw [outfdOf, outFile, List.filterMap_cons_some hw, List.getLast?_cons, outfdOf, outFile]
  cases (ws.filterMap Word.file).getLast? <;> rfl

/-- The options of a line let the program go on. -/
def GoesOn (line : List (Word FwpkgOpt)) (s : FwpkgArgs) : Prop :=
  (∀ w ∈ line, w.goesOn = true) ∧ line.countP Word.isInject + (if s.verb.isSome then 1 else 0) ≤ 1

theorem goesOn_cons {w : Word FwpkgOpt} {ws : List (Word FwpkgOpt)} {s t : FwpkgArgs} (hw : w.goesOn = true)
    (hverb : (if w.isInject then 1 else 0) + (if s.verb.isSome then 1 else 0) = (if t.verb.isSome then 1 else 0)) :
    GoesOn (w :: ws) s ↔ GoesOn ws t := by
  unfold GoesOn
  rw [List.forall_mem_cons, List.countP_cons, Nat.add_assoc, hverb]
  exact and_congr_left' (and_iff_right hw)

/-- **The options** of `ws63fwpkg` end the program, or set the verb and the output. -/
theorem argpParse_fwpkg_opts (openFd : CStr → Int) : ∀ (line : List (Word FwpkgOpt)) (s : FwpkgArgs),
    (¬ GoesOn line s ∧ ∃ status, (status = 0 → .own 0 ∈ line) ∧ ∀ ts,
      argpParse (fwpkgParseOpt openFd) (line.filterMap Word.opt? ++ ts) s = pure (.error status)) ∨
    (GoesOn line s ∧ ∀ ts, argpParse (fwpkgParseOpt openFd) (line.filterMap Word.opt? ++ ts) s
      = argpParse (fwpkgParseOpt openFd) ts (optsOf openFd line s))
  | [], s      => by
    refine Or.inr ⟨⟨fun w hw => absurd hw List.not_mem_nil, ?_⟩, fun ts => rfl⟩
    split <;> decide
  | w :: ws, s => by
    -- a word after which the state is `t`
    have hstep : ∀ t : FwpkgArgs, w.goesOn = true →
        (if w.isInject then 1 else 0) + (if s.verb.isSome then 1 else 0) = (if t.verb.isSome then 1 else 0) →
        optsOf openFd (w :: ws) s = optsOf openFd ws t →
        (∀ ts, argpParse (fwpkgParseOpt openFd) ((w :: ws).filterMap Word.opt? ++ ts) s
          = argpParse (fwpkgParseOpt openFd) (ws.filterMap Word.opt? ++ ts) t) →
        (¬ GoesOn (w :: ws) s ∧ ∃ status, (status = 0 → .own 0 ∈ w :: ws) ∧ ∀ ts,
          argpParse (fwpkgParseOpt openFd) ((w :: ws).filterMap Word.opt? ++ ts) s = pure (.error status)) ∨
        (GoesOn (w :: ws) s ∧ ∀ ts, argpParse (fwpkgParseOpt openFd) ((w :: ws).filterMap Word.opt? ++ ts) s
          = argpParse (fwpkgParseOpt openFd) ts (optsOf openFd (w :: ws) s)) := by
      intro t hw hverb hopts hcalls
      simp only [goesOn_cons hw hverb, hopts, hcalls]
      refine (argpParse_fwpkg_opts openFd ws t).imp_left (fun hend => ⟨hend.1, ?_⟩)
      obtain ⟨status, hown, hcalls⟩ := hend.2
      exact ⟨status, fun h0 => List.mem_cons_of_mem w (hown h0), hcalls⟩
    have husage : (EX_USAGE : Int) = 0 → .own 0 ∈ w :: ws := fun h0 => absurd h0 (by decide)
    cases w with
    | arg a      => exact hstep s rfl (Nat.zero_add _) rfl (fun _ => rfl)
    | own status =>
      refine Or.inl ⟨fun hn => Bool.false_ne_true (hn.1 _ List.mem_cons_self), status, fun h0 => ?_, fun _ => rfl⟩
      rw [h0]
      exact List.mem_cons_self
    | opt o      =>
      cases o with
      | out name =>
        cases name with
        | none      =>
          exact Or.inl ⟨fun hn => Bool.false_ne_true (hn.1 _ List.mem_cons_self), EX_USAGE, husage, fun ts =>
            argpParse_opt_error rfl _⟩
        | some name =>
          by_cases hdash : name.bytes = [0x2d]
          · have hset : fwpkgOpt openFd (.out (some name)) s = .ok s := if_pos hdash
            have hfile : Word.file (.opt (.out (some name))) = none := if_pos hdash
            refine hstep s rfl (Nat.zero_add _) ?_ (fun ts => argpParse_opt_ok hset _)
            rw [optsOf, outfdOf_cons_none hfile]
            rfl
          · have hset : fwpkgOpt openFd (.out (some name)) s = .ok { s with rest := openFd name } := if_neg hdash
            have hfile : Word.file (.opt (.out (some name))) = some name := if_neg hdash
            refine hstep { s with rest := openFd name } rfl (Nat.zero_add _) ?_ (fun ts => argpParse_opt_ok hset _)
            rw [optsOf, outfdOf_cons_some hfile]
            rfl
      | inject =>
        cases hverb : s.verb with
        | some verb =>
          have hset : fwpkgOpt openFd .inject s = .error EX_USAGE := if_pos (by rw [hverb]; rfl)
          refine Or.inl ⟨fun hn => ?_, EX_USAGE, husage, fun ts => argpParse_opt_error hset _⟩
          have hcount := hn.2
          rw [hverb, List.countP_cons] at hcount
          simp [Word.isInject] at hcount
        | none =>
          have hset : fwpkgOpt openFd .inject s = .ok { s with verb := some .inject } := if_neg (by rw [hverb]; decide)
          refine hstep { s with verb := some .inject } rfl (by rw [hverb]; rfl) ?_ (fun ts => argpParse_opt_ok hset _)
          simp [optsOf, outfdOf, outFile, Word.file, FwpkgOpt.file, Word.isInject]

/-! ## The line -/

/-- The lines with which `--inject` is run: every option is taken, `--inject` is given once, the output is open, and the
number of the arguments passes. -/
structure FwpkgRuns (openFd : CStr → Int) (line : List (Word FwpkgOpt)) : Prop where
  opts : ∀ w ∈ line, w.goesOn = true
  verb : line.countP Word.isInject = 1
  out : 0 < outfdOf openFd line 1
  args : parseInject (argsOf line).length = true

theorem mapM_slots (xs : List CStr) : ((slotsOf xs).take xs.length).mapM id = some xs := by
  have htake : (slotsOf xs).take xs.length = xs.map some := List.take_left' (List.length_map some)
  have hall : ∀ ys : List CStr, (ys.map some).mapM id = some ys := by
    intro ys
    induction ys with
    | nil => rfl
    | cons y ys ih =>
      rw [List.map_cons, List.mapM_cons, ih]
      rfl
  rw [htake, hall]

section

variable {openFd : CStr → Int} {line : List (Word FwpkgOpt)}

theorem any_isInject : line.any Word.isInject = true ↔ 1 ≤ line.countP Word.isInject := by
  rw [List.any_eq_true, ← List.countP_pos_iff]
  exact Iff.rfl

/-- What a line that has one `--inject` is parsed to. -/
theorem fwpkgLine_inject (hon : ∀ ts, argpParse (fwpkgParseOpt openFd) (line.filterMap Word.opt? ++ ts) (.start 1)
      = argpParse (fwpkgParseOpt openFd) ts (optsOf openFd line (.start 1))) (hany : line.any Word.isInject = true) :
    (parseInject (argsOf line).length = true ∧ ∃ s : FwpkgArgs, (erase (fwpkgLine openFd line) () []).1 = .ret (.ok s) ∧
      s.Filled .inject (outfdOf openFd line 1) (argsOf line)) ∨
    (parseInject (argsOf line).length = false ∧ (erase (fwpkgLine openFd line) () []).1 = .ret (.error EX_USAGE)) := by
  have hopts : argpParse (fwpkgParseOpt openFd) (line.filterMap Word.opt?) (.start 1)
      = pure (.ok (optsOf openFd line (.start 1))) := by
    have h := hon []
    rwa [List.append_nil] at h
  exact fwpkgLine_cases hopts (if_pos hany)

variable (fuel : Nat) (h : Host) (stack : StackRecs) (old : Files) (io : FileIo) (lost : Nat)

/-- **With such a line** the program is `--inject` on its arguments, and puts out what is not lost. -/
theorem ws63fwpkgMain_eq (hr : FwpkgRuns openFd line) :
    let run := verbInject fuel h stack (argsOf line) io []
    ws63fwpkgMain fuel h stack openFd line old io lost = (run.1, (filesOf openFd line old).put (outFile line)
      ((output run.2).take ((output run.2).length - lost))) := by
  have hany : line.any Word.isInject = true := any_isInject.2 (Nat.le_of_eq hr.verb.symm)
  rcases argpParse_fwpkg_opts openFd line (.start 1) with ⟨hno, _⟩ | ⟨_, hon⟩
  · exact absurd ⟨hr.opts, Nat.le_of_eq hr.verb⟩ hno
  rcases fwpkgLine_inject hon hany with ⟨_, s, hs, hfilled⟩ | ⟨hpass, _⟩
  · unfold ws63fwpkgMain
    simp only [hs, hfilled.verb, hfilled.args, hfilled.argsCnt, mapM_slots, hfilled.rest, if_neg (Int.not_le.2 hr.out)]
  · rw [hr.args] at hpass
    cases hpass

/-- **The file of the last `-o`**, when nothing is lost, is as `main` leaves it on `-o` and `--inject`. -/
theorem ws63fwpkgMain_file (hr : FwpkgRuns openFd line) {out : CStr} (hout : outFile line = some out) :
    let run := ws63fwpkgMain fuel h stack openFd line old io 0
    let run' := ws63fwpkg fuel h stack (argsOf line) (old.file out) io
    run.1 = run'.1 ∧ run.2.file out = some run'.2 := by
  have hopen : openOut ((filesOf openFd line old).file out) = openOut (old.file out) := by
    unfold filesOf Files.opened
    dsimp only
    split <;> rfl
  rw [ws63fwpkgMain_eq fuel h stack old io 0 hr, ws63fwpkg_parsed hr.args, hout, Nat.sub_zero, List.take_length]
  refine ⟨rfl, ?_⟩
  show (if out = out then some (overwrite (openOut ((filesOf openFd line old).file out)) _) else _) = _
  rw [if_pos rfl, hopen]

/-- **With any other line** nothing is written, and only a word of `argp`'s own may end the program well. -/
theorem ws63fwpkgMain_stops (hr : ¬ FwpkgRuns openFd line) :
    let run := ws63fwpkgMain fuel h stack openFd line old io lost
    run.2 = filesOf openFd line old ∧ (run.1 = .ret 0 → .own 0 ∈ line) := by
  have hfail : ∀ {status : Int}, status ≠ 0 → (Out.ret status = .ret 0 → .own 0 ∈ line) := fun hne hret =>
    absurd (Out.ret.inj hret) hne
  unfold ws63fwpkgMain
  rcases argpParse_fwpkg_opts openFd line (.start 1) with ⟨_, status, hown, hend⟩ | ⟨hgo, hon⟩
  · have hline : (erase (fwpkgLine openFd line) () []).1 = .ret (.error status) := by
      rw [fwpkgLine, argpCalls, hend]
      rfl
    rw [hline]
    exact ⟨rfl, fun hret => hown (Out.ret.inj hret)⟩
  by_cases hany : line.any Word.isInject = true
  · rcases fwpkgLine_inject hon hany with ⟨hpass, s, hs, hfilled⟩ | ⟨_, hs⟩
    · have hclosed : outfdOf openFd line 1 ≤ 0 := by
        by_contra hopen
        have hone : line.countP Word.isInject = 1 := Nat.le_antisymm hgo.2 (any_isInject.1 hany)
        exact hr ⟨hgo.1, hone, Int.not_le.1 hopen, hpass⟩
      simp only [hs, hfilled.verb, hfilled.args, hfilled.argsCnt, mapM_slots, hfilled.rest, if_pos hclosed]
      exact ⟨trivial, hfail (by decide)⟩
    · rw [hs]
      exact ⟨rfl, hfail (by decide)⟩
  · have hnone : (optsOf openFd line (.start 1)).verb = none := if_neg hany
    have hrun := argCalls_run (fwpkgOpt openFd) injectArgRefused injectEndRefused (argsOf line)
      (optsOf openFd line (.start 1)) [] (Nat.zero_le _) rfl
    rw [List.length_nil, ← fwpkgParseOpt, ← hon] at hrun
    have hline : fwpkgLine openFd line = argpParse (fwpkgParseOpt openFd)
        (line.filterMap Word.opt? ++ argCalls 0 (argsOf line)) (.start 1) := rfl
    rw [hline]
    generalize argpParse (fwpkgParseOpt openFd) (line.filterMap Word.opt? ++ argCalls 0 (argsOf line)) (.start 1) = m at hrun ⊢
    generalize (erase m () []).1 = o at hrun ⊢
    generalize notes m () [] = l at hrun
    cases hrun with
    | parsed t hargs hcnt hverb =>
      dsimp only
      rw [hverb, hnone]
      exact ⟨rfl, hfail (by decide)⟩
    | refused => exact ⟨rfl, hfail (by decide)⟩
    | outside => exact ⟨rfl, fun hret => by cases hret⟩

end

/-! ## What is written -/

/-- Without arguments that can be read, or without a package, `--inject` writes nothing and fails. -/
theorem verbInject_cases (h : Host) (args : List CStr) :
    (∃ wobjs infw header bins, Injects h args wobjs infw header bins) ∨ ∀ fuel stack io,
      output (verbInject fuel h stack args io []).2 = [] ∧ (verbInject fuel h stack args io []).1 ≠ .ret 0 := by
  unfold verbInject
  cases hparse : (args.drop 1).mapM (parseWobj h false) with
  | error r  => exact Or.inr (fun _ _ _ => ⟨rfl, fun hret => mapM_parseWobj_error hparse (Out.ret.inj hret)⟩)
  | ok wobjs =>
    cases hpath : args[0]? with
    | none      => exact Or.inr (fun _ _ _ => ⟨rfl, fun hret => by cases hret⟩)
    | some path =>
      dsimp only
      cases hopen : h.fopen path with
      | error e => exact Or.inr (fun _ _ _ => ⟨rfl, fun hret => absurd (Out.ret.inj hret) (by decide)⟩)
      | ok infw =>
        dsimp only
        cases hhead : fwpkgReadHeader infw with
        | stop x => exact Or.inr (fun _ _ _ => ⟨rfl, fun hret => by cases hret⟩)
        | ret r  =>
          cases r with
          | none        => exact Or.inr (fun _ _ _ => ⟨rfl, fun hret => absurd (Out.ret.inj hret) (by decide)⟩)
          | some header =>
            cases hinfos : fwpkgReadBinInfos infw header with
            | none      =>
              refine Or.inr (fun _ _ _ => ?_)
              rw [show (Proc.lift (.ret (some header)) : FileProc _) = pure (some header) from rfl, pure_bind]
              simp only [hinfos]
              exact ⟨rfl, fun hret => absurd (Out.ret.inj hret) (by decide)⟩
            | some bins => exact Or.inl ⟨wobjs, infw, header, bins, hparse, ⟨path, hpath, hopen⟩, ⟨hhead, hinfos⟩⟩

/-- The file that `--inject` makes of these arguments, the records of the package and of the files having room. -/
def InjectImage (h : Host) (stack : StackRecs) (args : List CStr) (img : List UInt8) : Prop :=
  ∃ wobjs infw header bins buf, Injects h args wobjs infw header bins ∧ bins.length + wobjs.length ≤ MAX_PARTITION_CNT ∧
    InjectBuf.Builds buf header bins stack wobjs infw.length ∧ img = injected h infw bins (cutNames wobjs) buf

/-- **A run of `--inject`** writes nothing and fails, or the front of an image, and all of it when it returns 0. -/
theorem verbInject_writes (h : Host) (stack : StackRecs) (args : List CStr) (fuel : Nat) (io : FileIo) :
    let run := verbInject fuel h stack args io []
    (output run.2 = [] ∧ run.1 ≠ .ret 0) ∨
      ∃ img, InjectImage h stack args img ∧ output run.2 <+: img ∧ (run.1 = .ret 0 → output run.2 = img) := by
  rcases verbInject_cases h args with ⟨wobjs, infw, header, bins, hi⟩ | hno
  · by_cases hroom : bins.length + wobjs.length ≤ MAX_PARTITION_CNT
    · obtain ⟨buf, hbuilds, hrun⟩ := hi.run_eq hroom stack
      obtain ⟨hfull, hpre⟩ := writeInjected_emits fuel h infw bins (cutNames wobjs) buf io []
      dsimp only
      rw [hrun]
      exact Or.inr ⟨_, ⟨wobjs, infw, header, bins, buf, hi, hroom, hbuilds, rfl⟩, mem_prefixes_word.1 hpre, fun hret =>
        hfull 0 hret rfl⟩
    · dsimp only
      rw [hi.run_overflow (Nat.lt_of_not_le hroom)]
      exact Or.inl ⟨rfl, fun hret => by cases hret⟩
  · exact Or.inl (hno fuel stack io)

/-- **When a run can succeed**: with a package whose first record there is, room for the records and files that open. -/
theorem verbInject_succeeds_iff (h : Host) (stack : StackRecs) (args : List CStr) :
    (∃ fuel io, (verbInject fuel h stack args io []).1 = .ret 0) ↔
      ∃ wobjs infw header bins, Injectable h args wobjs infw header bins := by
  constructor
  · rintro ⟨fuel, io, hret⟩
    rcases verbInject_cases h args with ⟨_, infw, header, bins, hi⟩ | hno
    · obtain ⟨path, hpath, hopen⟩ := hi.opened
      obtain ⟨wobjs, hwobjs⟩ := verbInject_injectable hpath hopen hi.accepted hret
      exact ⟨wobjs, infw, header, bins, hwobjs⟩
    · exact absurd hret (hno fuel stack io).2
  · rintro ⟨wobjs, infw, header, bins, hi⟩
    obtain ⟨fuel, hret⟩ := hi.succeeds stack
    exact ⟨fuel, goodIo, hret⟩

/-- **What `ws63fwpkg` leaves**, from any command line, in every run that stays within its objects: with a line that does not
run `--inject` there are the files, those of the `-o` that were taken made where they were not, and only a word of `argp`'s
own ends the program well.  With one that does, the output begins with the front of an image over its old bytes wherever the
run stops, with all of it when the run returns 0 and nothing was lost at the end, and no other file has changed; and a run
can return 0, and none leaves its objects, exactly with inputs that can be put together. -/
theorem ws63fwpkgMain_leaves (h : Host) (stack : StackRecs) (openFd : CStr → Int) (line : List (Word FwpkgOpt))
    (old : Files) :
    (¬ FwpkgRuns openFd line → ∀ fuel io lost, let run := ws63fwpkgMain fuel h stack openFd line old io lost
      run.1 ≠ .stop .undefined → run.2 = filesOf openFd line old ∧ (run.1 = .ret 0 → .own 0 ∈ line)) ∧
    (FwpkgRuns openFd line →
      (∀ fuel io lost, let run := ws63fwpkgMain fuel h stack openFd line old io lost
        run.1 ≠ .stop .undefined → ∃ p, run.2 = (filesOf openFd line old).put (outFile line) p ∧
          (p = [] ∧ run.1 ≠ .ret 0 ∨ ∃ img, InjectImage h stack (argsOf line) img ∧ p <+: img ∧
            (run.1 = .ret 0 → lost = 0 → p = img))) ∧
      (((∃ fuel io lost, (ws63fwpkgMain fuel h stack openFd line old io lost).1 = .ret 0) ∧
          ∀ fuel io lost, (ws63fwpkgMain fuel h stack openFd line old io lost).1 ≠ .stop .undefined) ↔
        ∃ wobjs infw header bins, Injectable h (argsOf line) wobjs infw header bins)) := by
  refine ⟨fun hr fuel io lost _ => ws63fwpkgMain_stops fuel h stack old io lost hr, fun hr => ⟨fun fuel io lost _ => ?_, ?_⟩⟩
  · rw [ws63fwpkgMain_eq fuel h stack old io lost hr]
    refine ⟨_, rfl, ?_⟩
    rcases verbInject_writes h stack (argsOf line) fuel io with ⟨hnone, hret⟩ | ⟨img, himg, hpre, hall⟩
    · rw [hnone]
      exact Or.inl ⟨List.take_nil, hret⟩
    · refine Or.inr ⟨img, himg, (List.take_prefix _ _).trans hpre, fun hret h0 => ?_⟩
      rw [h0, Nat.sub_zero, List.take_length, hall hret]
  · simp only [ws63fwpkgMain_eq _ h stack old _ _ hr, exists_const, forall_const]
    constructor
    · rintro ⟨hret, _⟩
      exact (verbInject_succeeds_iff h stack (argsOf line)).1 hret
    · rintro ⟨wobjs, infw, header, bins, hi⟩
      obtain ⟨path, hpath, hopen⟩ := hi.opened
      refine ⟨(verbInject_succeeds_iff h stack (argsOf line)).2 ⟨wobjs, infw, header, bins, hi⟩, fun fuel io => ?_⟩
      refine (verbInject_defined_iff hpath hopen hi.accepted stack).2 (fun wobjs' hparsed => ?_) io fuel
      rw [hi.parsed] at hparsed
      cases hparsed
      exact hi

end Ws63Flash
