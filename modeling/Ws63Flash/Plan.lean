import Ws63Flash.Verbs
/-!
# Plan — the verbs as plans

Each verb reads its input, and then talks to the device in one shape: the handshake, a loaderboot, a switch of the
speed, and commands that each may be followed by a transfer.  `planOf` is the first half and `runPlan` the second;
`verbRun_eq` says that the four verbs of the source are these two.
-/
namespace Ws63Flash

open Proc

/-- A transfer: the stream from its first byte on, or why it could not be opened. -/
structure Part where
  stream : Except Errno (List UInt8)
  name : CStr
  len : Nat

structure Job where
  cmd : Cmddef
  part : Option Part

structure Plan where
  boot : Part
  /-- The verb has the switch of the speed. -/
  switch : Bool
  jobs : List Job

/-! ## Running a plan -/

def sendPart (fuel : Nat) (p : Part) : Tty Int :=
  match p.stream with
  | .error e => return e.code
  | .ok f    => do
    let ret ← ymodemXfer fuel f p.name p.len
    if ret < 0 then return EXIT_FAILURE else return 0

def sendJob (fuel : Nat) (j : Job) : Tty Int := do
  let ret ← ws63SendCmddef fuel j.cmd
  if ret < 0 then return EXIT_FAILURE
  else
    let _ ← uartReadUntilMagic fuel
    match j.part with
    | none   => return 0
    | some p => sendPart fuel p

def sendJobs (fuel : Nat) : List Job → Tty Int
  | []      => return 0
  | j :: js => do
    let ret ← sendJob fuel j
    if ret ≠ 0 then return ret else sendJobs fuel js

def switchIf (fuel : Nat) (a : Args) (switch : Bool) : Tty Int := if switch then switchBaud fuel a else pure 0

theorem switchIf_false (fuel : Nat) (a : Args) : switchIf fuel a false = pure 0 := rfl

/-- After the loaderboot. -/
def runRest (fuel : Nat) (a : Args) (switch : Bool) (jobs : List Job) : Tty Int := do
  let _ ← uartReadUntilMagic fuel
  let ret ← switchIf fuel a switch
  if ret ≠ 0 then return ret
  else
    let ret ← sendJobs fuel jobs
    if ret ≠ 0 then return ret
    else
      let _ ← ws63PollReset fuel
      return 0

/-- After the handshake. -/
def runParts (fuel : Nat) (a : Args) (p : Plan) : Tty Int := do
  let ret ← sendPart fuel p.boot
  if ret ≠ 0 then return ret else runRest fuel a p.switch p.jobs

def runPlan (fuel : Nat) (a : Args) (p : Plan) : Tty Int := do
  let ret ← handshakeLoop fuel a
  if ret ≠ 0 then return ret else runParts fuel a p

/-! ## The plans of the verbs -/

def flashPart (fw : List UInt8) (bin : FwpkgBinInfo) : Part := ⟨.ok (fw.drop bin.offset.toNat), bin.str, bin.length.toNat⟩

def flashJob (fw : List UInt8) (bin : FwpkgBinInfo) : Job where
  cmd := downloadCmd bin.burnAddr bin.length (erasSize bin.length.toNat)
  part := some (flashPart fw bin)

/-- The records transferred after the loaderboot. -/
def selected (a : Args) (bins : List FwpkgBinInfo) : List FwpkgBinInfo :=
  bins.filter (fun b => b.type2 = 1 ∧ binInArgs b.str a)

/-- The plan of a package, once it is read and its loaderboot found. -/
def flashPlan (a : Args) (fw : List UInt8) (bins : List FwpkgBinInfo) (loaderboot : FwpkgBinInfo) : Plan :=
  ⟨flashPart fw loaderboot, true, (selected a bins).map (flashJob fw)⟩

def planFlash (h : Host) (a : Args) : Out (Except Int Plan) :=
  match a.args[1]? with
  | none      => .stop .undefined
  | some path =>
    match h.fopen path with
    | .error _ => .ret (.error EXIT_FAILURE)
    | .ok fw   =>
      match fwpkgReadHeader fw with
      | .stop x            => .stop x
      | .ret none          => .ret (.error EXIT_FAILURE)
      | .ret (some header) =>
        match fwpkgReadBinInfos fw header with
        | none      => .ret (.error EXIT_FAILURE)
        | some bins =>
          match findLoaderboot bins with
          | none            => .ret (.error EXIT_FAILURE)
          | some loaderboot =>
            if ¬ NamesEnd bins then .stop .undefined
            else if ∃ arg ∈ a.args.drop 2, arg ∉ tableNames bins then .ret (.error EXIT_FAILURE)
            else .ret (.ok (flashPlan a fw bins loaderboot))

def writePart (h : Host) (w : Wobj) : Part := ⟨h.fopen w.name, basename w.name, w.length⟩

def writeJob (h : Host) (w : Wobj) : Job where
  cmd := downloadCmd (UInt32.ofNat w.addr) (UInt32.ofNat w.length) (erasSize w.length)
  part := some (writePart h w)

def planWrite (h : Host) (a : Args) : Out (Except Int Plan) :=
  match parseWobjs h (a.args.drop 1) with
  | .error r  => .ret (.error r)
  | .ok wobjs =>
    match wobjs.map (fun w => { w with name := basenameCut w.name }) with
    | []            => .stop .undefined
    | boot :: wobjs => .ret (.ok ⟨writePart h boot, true, wobjs.map (writeJob h)⟩)

/-- The loaderboot the program is built with. -/
def builtinPart (h : Host) : Part := ⟨.ok h.loaderboot, loaderbootName, h.loaderboot.length⟩

def planErase (h : Host) : Out (Except Int Plan) :=
  if ¬ h.tmpfile then .ret (.error 1)
  else .ret (.ok ⟨builtinPart h, false, [⟨WS63E_FLASHINFO .downloadi, none⟩]⟩)

def progJob (h : Host) (bin : List UInt8) : Job :=
  let len := (signFile h.sha256 bin).1.len + signBufLen
  ⟨downloadCmd 0x230000 (UInt32.ofNat len) (erasSize len), some ⟨.ok (signFile h.sha256 bin).2, progName, len⟩⟩

def planWriteProg (h : Host) (a : Args) : Out (Except Int Plan) :=
  match a.args[1]? with
  | none      => .stop .undefined
  | some path =>
    match h.fopen path with
    | .error _ => .ret (.error 1)
    | .ok bin  => if ¬ h.tmpfile then .ret (.error 1) else .ret (.ok ⟨builtinPart h, true, [progJob h bin]⟩)

def planOf (h : Host) (a : Args) : Verb → Out (Except Int Plan)
  | .flash     => planFlash h a
  | .write     => planWrite h a
  | .erase     => planErase h
  | .writeProg => planWriteProg h a

/-- The second half of a verb. -/
def runPlanned (fuel : Nat) (a : Args) : Out (Except Int Plan) → Tty Int
  | .stop x         => halt x
  | .ret (.error r) => return r
  | .ret (.ok p)    => runPlan fuel a p

/-! ## The verbs are their plans -/

/-- A check that leaves with `r` may stand inside what follows. -/
theorem check_bind (m : Tty Int) (c : Int → Prop) [DecidablePred c] {r : Int} (hr : r ≠ 0) (k : Tty Int) :
    (do let ret ← (do let x ← m; if c x then return r else return 0)
        if ret ≠ 0 then return ret else k) = (do let x ← m; if c x then return r else k) := by
  rw [bind_assoc]
  congr 1
  funext x
  split
  · rw [pure_bind, if_pos hr]
  · rw [pure_bind, if_neg (fun h => h rfl)]

theorem sendPart_ok (fuel : Nat) (f : List UInt8) (name : CStr) (len : Nat) (k : Tty Int) :
    (do let ret ← sendPart fuel ⟨.ok f, name, len⟩
        if ret ≠ 0 then return ret else k)
      = (do let ret ← ymodemXfer fuel f name len
            if ret < 0 then return EXIT_FAILURE else k) :=
  check_bind _ (fun x => x < 0) (by decide) k

theorem sendPart_error (fuel : Nat) (e : Errno) (name : CStr) (len : Nat) (k : Tty Int) :
    (do let ret ← sendPart fuel ⟨.error e, name, len⟩
        if ret ≠ 0 then return ret else k) = return (e.code : Int) := by
  have hpos := e.pos
  show (pure (e.code : Int) >>= fun ret => if ret ≠ 0 then pure ret else k) = _
  rw [pure_bind, if_pos (by omega)]

theorem sendJob_bind (fuel : Nat) (j : Job) (k : Tty Int) :
    (do let ret ← sendJob fuel j
        if ret ≠ 0 then return ret else k)
      = (do let ret ← ws63SendCmddef fuel j.cmd
            if ret < 0 then return EXIT_FAILURE
            else
              let _ ← uartReadUntilMagic fuel
              match j.part with
              | none   => k
              | some p =>
                let ret ← sendPart fuel p
                if ret ≠ 0 then return ret else k) := by
  rw [sendJob, bind_assoc]
  congr 1
  funext x
  split
  · rw [pure_bind]
    rfl
  · rw [bind_assoc]
    congr 1
    funext r
    cases j.part with
    | none   => exact pure_bind _ _
    | some p => rfl

theorem flashFiles_eq (fuel : Nat) (a : Args) (fw : List UInt8) : ∀ bins : List FwpkgBinInfo,
    flashFiles fuel a fw bins = sendJobs fuel ((selected a bins).map (flashJob fw))
  | []          => rfl
  | bin :: bins => by
    have ih := flashFiles_eq fuel a fw bins
    rw [flashFiles, selected, List.filter_cons]
    by_cases ht : bin.type2 = 1
    · rw [if_neg (fun h => h ht)]
      by_cases hs : binInArgs bin.str a
      · rw [if_neg (fun h => h hs), if_pos (by simp [ht, hs]), List.map_cons, sendJobs, sendJob_bind]
        congr 1
        funext x
        split
        · rfl
        · congr 1
          funext r
          rw [ih]
          exact (sendPart_ok fuel _ _ _ _).symm
      · rw [if_pos hs, if_neg (by simp [hs])]
        exact ih
    · rw [if_pos ht, if_neg (by simp [ht])]
      exact ih

theorem writeFiles_eq (fuel : Nat) (h : Host) : ∀ wobjs : List Wobj,
    writeFiles fuel h wobjs = sendJobs fuel (wobjs.map (writeJob h))
  | []            => rfl
  | wobj :: wobjs => by
    have ih := writeFiles_eq fuel h wobjs
    rw [writeFiles, List.map_cons, sendJobs, sendJob_bind]
    congr 1
    funext x
    split
    · rfl
    · congr 1
      funext r
      rw [ih]
      show _ = (sendPart fuel (writePart h wobj) >>= fun ret => if ret ≠ 0 then pure ret else _)
      unfold writePart
      cases h.fopen wobj.name with
      | error e => exact (sendPart_error fuel e _ _ _).symm
      | ok f    => exact (sendPart_ok fuel f _ _ _).symm

theorem sendJobs_nil_bind (fuel : Nat) (k : Tty Int) :
    (do let ret ← sendJobs fuel []
        if ret ≠ 0 then return ret else k) = k := by
  rw [sendJobs, pure_bind, if_neg (fun h => h rfl)]

theorem sendJobs_cons_bind (fuel : Nat) (j : Job) (js : List Job) (k : Tty Int) :
    (do let ret ← sendJobs fuel (j :: js)
        if ret ≠ 0 then return ret else k)
      = (do let ret ← sendJob fuel j
            if ret ≠ 0 then return ret
            else
              let ret ← sendJobs fuel js
              if ret ≠ 0 then return ret else k) := by
  rw [sendJobs, bind_assoc]
  congr 1
  funext x
  split
  · rename_i hx
    rw [pure_bind, if_pos hx]
  · rfl

theorem verbFlash_eq (fuel : Nat) (h : Host) (a : Args) : verbFlash fuel h a = runPlanned fuel a (planFlash h a) := by
  unfold verbFlash planFlash
  cases a.args[1]? with
  | none => rfl
  | some path =>
    dsimp only
    cases h.fopen path with
    | error e => rfl
    | ok fw =>
      dsimp only
      cases fwpkgReadHeader fw with
      | stop x => exact halt_bind x _
      | ret o =>
        apply (pure_bind o _).trans
        cases o with
        | none => rfl
        | some header =>
          dsimp only
          cases fwpkgReadBinInfos fw header with
          | none => rfl
          | some bins =>
            dsimp only
            cases findLoaderboot bins with
            | none => rfl
            | some loaderboot =>
              dsimp only
              split
              · rfl
              · split
                · rfl
                · rw [runPlanned, runPlan]
                  congr 1
                  funext ret
                  split
                  · rfl
                  · refine Eq.trans ?_ (sendPart_ok fuel _ _ _ _).symm
                    rw [flashFiles_eq]
                    rfl

theorem verbWrite_eq (fuel : Nat) (h : Host) (a : Args) : verbWrite fuel h a = runPlanned fuel a (planWrite h a) := by
  unfold verbWrite planWrite
  cases parseWobjs h (a.args.drop 1) with
  | error r => rfl
  | ok wobjs =>
    dsimp only
    cases wobjs.map (fun w => { w with name := basenameCut w.name }) with
    | nil => rfl
    | cons boot wobjs =>
      dsimp only
      rw [runPlanned, runPlan]
      congr 1
      funext ret
      split
      · rfl
      · rw [runParts, writePart]
        cases h.fopen boot.name with
        | error e => exact (sendPart_error fuel e _ _ _).symm
        | ok fw =>
          refine Eq.trans ?_ (sendPart_ok fuel _ _ _ _).symm
          dsimp only
          rw [writeFiles_eq]
          rfl

theorem verbErase_eq (fuel : Nat) (h : Host) (a : Args) : verbErase fuel h a = runPlanned fuel a (planErase h) := by
  unfold verbErase planErase
  split
  · rfl
  · rw [runPlanned, runPlan]
    congr 1
    funext ret
    split
    · rfl
    · refine Eq.trans ?_ (sendPart_ok fuel _ _ _ _).symm
      congr 1
      funext x
      split
      · rfl
      · rw [runRest, sendJobs_cons_bind, sendJob_bind]
        congr 1
        funext r
        rw [switchIf_false, pure_bind, if_neg (fun h => h rfl)]
        simp only [sendJobs_nil_bind]

theorem verbWriteProg_eq (fuel : Nat) (h : Host) (a : Args) :
    verbWriteProg fuel h a = runPlanned fuel a (planWriteProg h a) := by
  unfold verbWriteProg planWriteProg
  cases a.args[1]? with
  | none => rfl
  | some path =>
    dsimp only
    cases h.fopen path with
    | error e => rfl
    | ok bin =>
      dsimp only
      split
      · rfl
      · rw [runPlanned, runPlan]
        congr 1
        funext ret
        split
        · rfl
        · refine Eq.trans ?_ (sendPart_ok fuel _ _ _ _).symm
          congr 1
          funext x
          split
          · rfl
          · rw [runRest, sendJobs_cons_bind, sendJob_bind]
            simp only [progJob, sendJobs_nil_bind, sendPart_ok]
            rfl

/-- **A verb reads its input, and then runs its plan.** -/
theorem verbRun_eq (fuel : Nat) (h : Host) (a : Args) : ∀ verb : Verb,
    verbRun fuel h a verb = runPlanned fuel a (planOf h a verb)
  | .flash     => verbFlash_eq fuel h a
  | .write     => verbWrite_eq fuel h a
  | .erase     => verbErase_eq fuel h a
  | .writeProg => verbWriteProg_eq fuel h a

/-! ## Before the device -/

/-- The run leaves the objects of the program before it looks at the clock or the line. -/
def UndefinedAtOnce (run : Out Int × List Ev) : Prop := run = (.stop .undefined, [])

/-- A plan looks at the clock first. -/
theorem runPlan_events (fuel : Nat) (a : Args) (p : Plan) (d : Device) (l : List Ev) : (runPlan fuel a p d l).2 ≠ [] := by
  have htime : (handshakeLoop fuel a d l).2 ≠ [] := by
    have hpre := bind_events time (fun t0 => loop (fun (_ : Unit) => handshakeTurn fuel a t0) fuel ()) d l
    intro hnil
    rw [← handshakeLoop, hnil] at hpre
    exact absurd (List.prefix_nil.1 hpre) (List.cons_ne_nil _ _)
  intro hnil
  have hpre := bind_events (handshakeLoop fuel a) (fun ret => if ret ≠ 0 then pure ret else runParts fuel a p) d l
  rw [← runPlan, hnil] at hpre
  exact htime (List.prefix_nil.1 hpre)

/-- **A verb is undefined before it talks to the device** when it has no plan. -/
theorem verbRun_undefined_iff (fuel : Nat) (h : Host) (a : Args) (verb : Verb) (d : Device) (l : List Ev) :
    UndefinedAtOnce (verbRun fuel h a verb d l) ↔ planOf h a verb = .stop .undefined := by
  rw [verbRun_eq]
  unfold UndefinedAtOnce
  rcases planOf h a verb with (r | p) | x
  · simp [runPlanned, pure_run]
  · have hne := runPlan_events fuel a p d l
    simp only [runPlanned, reduceCtorEq, iff_false]
    intro heq
    rw [heq] at hne
    exact hne rfl
  · simp [runPlanned, halt]

end Ws63Flash
