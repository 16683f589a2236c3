import Ws63Flash.FlashSent
import Ws63Flash.MagicScan
/-!
# Replies — is a download command answered?

Each verb waits for the reply to a download command and drops the result of the wait.  `verbRunHeard` is the verb with
the bytes read in each of these waits; `verbRun_answered_iff` says when each must hold a reply.
-/
namespace Ws63Flash

open Octets Proc

/-! ## The verbs with what they have heard -/

/-- `sendJob`, with the bytes read while it waits for the reply to its command. -/
def sendJobHeard (fuel : Nat) (j : Job) : Tty (Int × List (List UInt8)) := do
  let ret ← ws63SendCmddef fuel j.cmd
  if ret < 0 then return (EXIT_FAILURE, [])
  else
    let s ← listen (uartReadUntilMagic fuel)
    match j.part with
    | none   => return (0, [received s.2])
    | some p =>
      let ret ← sendPart fuel p
      return (ret, [received s.2])

def sendJobsHeard (fuel : Nat) : List Job → Tty (Int × List (List UInt8))
  | []      => return (0, [])
  | j :: js => do
    let s ← sendJobHeard fuel j
    if s.1 ≠ 0 then return s
    else
      let t ← sendJobsHeard fuel js
      return (t.1, s.2 ++ t.2)

def runRestHeard (fuel : Nat) (a : Args) (switch : Bool) (jobs : List Job) : Tty (Int × List (List UInt8)) := do
  let _ ← uartReadUntilMagic fuel
  let ret ← switchIf fuel a switch
  if ret ≠ 0 then return (ret, [])
  else
    let s ← sendJobsHeard fuel jobs
    if s.1 ≠ 0 then return s
    else
      let _ ← ws63PollReset fuel
      return (0, s.2)

def runPlanHeard (fuel : Nat) (a : Args) (p : Plan) : Tty (Int × List (List UInt8)) := do
  let ret ← handshakeLoop fuel a
  if ret ≠ 0 then return (ret, [])
  else
    let ret ← sendPart fuel p.boot
    if ret ≠ 0 then return (ret, []) else runRestHeard fuel a p.switch p.jobs

/-- A verb, with the bytes read in the wait after each of its download commands. -/
def verbRunHeard (fuel : Nat) (h : Host) (a : Args) (verb : Verb) : Tty (Int × List (List UInt8)) :=
  match planOf h a verb with
  | .stop x         => halt x
  | .ret (.error r) => return (r, [])
  | .ret (.ok p)    => runPlanHeard fuel a p

/-! ## They are the verbs -/

theorem sendJobHeard_fst (fuel : Nat) (j : Job) : (sendJobHeard fuel j >>= fun s => pure s.1) = sendJob fuel j := by
  rw [sendJobHeard, sendJob, bind_assoc]
  congr 1
  funext ret
  by_cases hret : ret < 0
  · rw [if_pos hret, if_pos hret, pure_bind]
  · rw [if_neg hret, if_neg hret, bind_assoc]
    cases j.part with
    | none   => exact listen_bind (uartReadUntilMagic fuel) (fun _ => pure 0)
    | some p =>
      refine Eq.trans ?_ (listen_bind (uartReadUntilMagic fuel) (fun _ => sendPart fuel p))
      congr 1
      funext s
      simp

theorem sendJobsHeard_fst (fuel : Nat) : ∀ js : List Job,
    (sendJobsHeard fuel js >>= fun s => pure s.1) = sendJobs fuel js
  | []      => rfl
  | j :: js => by
    have ih := sendJobsHeard_fst fuel js
    rw [sendJobsHeard, sendJobs, ← sendJobHeard_fst, bind_assoc, bind_assoc]
    congr 1
    funext s
    rw [pure_bind]
    by_cases hs : s.1 ≠ 0
    · rw [if_pos hs, if_pos hs, pure_bind]
    · rw [if_neg hs, if_neg hs, ← ih, bind_assoc]
      simp

theorem runRestHeard_fst (fuel : Nat) (a : Args) (switch : Bool) (jobs : List Job) :
    (runRestHeard fuel a switch jobs >>= fun s => pure s.1) = runRest fuel a switch jobs := by
  rw [runRestHeard, runRest, bind_assoc]
  congr 1
  funext _
  rw [bind_assoc]
  congr 1
  funext ret
  by_cases hret : ret ≠ 0
  · rw [if_pos hret, if_pos hret, pure_bind]
  · rw [if_neg hret, if_neg hret, ← sendJobsHeard_fst, bind_assoc, bind_assoc]
    congr 1
    funext s
    rw [pure_bind]
    by_cases hs : s.1 ≠ 0
    · rw [if_pos hs, if_pos hs, pure_bind]
    · rw [if_neg hs, if_neg hs, bind_assoc]
      rfl

theorem runPlanHeard_fst (fuel : Nat) (a : Args) (p : Plan) :
    (runPlanHeard fuel a p >>= fun s => pure s.1) = runPlan fuel a p := by
  rw [runPlanHeard, runPlan, bind_assoc]
  congr 1
  funext ret
  by_cases hret : ret ≠ 0
  · rw [if_pos hret, if_pos hret, pure_bind]
  · rw [if_neg hret, if_neg hret, runParts, bind_assoc]
    congr 1
    funext ret
    by_cases hret : ret ≠ 0
    · rw [if_pos hret, if_pos hret, pure_bind]
    · rw [if_neg hret, if_neg hret, runRestHeard_fst]

/-- **Without what they have heard they are the verbs.** -/
theorem verbRunHeard_fst (fuel : Nat) (h : Host) (a : Args) (verb : Verb) :
    (verbRunHeard fuel h a verb >>= fun s => pure s.1) = verbRun fuel h a verb := by
  rw [verbRun_eq, verbRunHeard]
  rcases planOf h a verb with (r | p) | x
  · rfl
  · exact runPlanHeard_fst fuel a p
  · rfl

/-! ## Replies -/

/-- A reply, complete and whole: the magic, as many bytes as it says, and its checksum. -/
structure GoodReply (f : List UInt8) : Prop where
  starts : mgc <+: f
  len : lenField f = f.length
  crc : slice f (f.length - 2) 2 = le16 (crc16Xmodem (f.take (f.length - 2)))

/-- The verb is not undefined before it talks to the device; and whenever it returns 0, it has read a reply after each
download command. -/
def Answered (h : Host) (a : Args) (verb : Verb) : Prop :=
  ∀ (d : Device) (l : List Ev) (fuel : Nat), ¬ UndefinedAtOnce (verbRun fuel h a verb d l) ∧
    ((verbRun fuel h a verb d l).1 = .ret 0 →
      ∃ heard, (verbRunHeard fuel h a verb d l).1 = .ret (0, heard) ∧ ∀ bs ∈ heard, ∃ f, f <:+: bs ∧ GoodReply f)

theorem sendPart_opened (fuel : Nat) (p : Part) : Returns (sendPart fuel p) (fun r => r = 0 → p.opened = true) := by
  by_cases hp : p.opened = true
  · exact (Returns.any _).mono (fun _ _ _ => hp)
  · obtain ⟨r, hr, heq⟩ := sendPart_closed fuel hp
    rw [heq]
    exact Returns.pure (fun h => absurd h hr)

/-- A wait for each command, and a file for each transfer. -/
theorem sendJobsHeard_returns (fuel : Nat) : ∀ js : List Job, Returns (sendJobsHeard fuel js) (fun s => s.1 = 0 →
    s.2.length = js.length ∧ ∀ p ∈ jobParts js, p.opened = true)
  | []      => Returns.pure (fun _ => ⟨rfl, fun p hp => (by cases hp)⟩)
  | j :: js => by
    have ih := sendJobsHeard_returns fuel js
    have hjob : Returns (sendJobHeard fuel j) (fun s => s.1 = 0 →
        s.2.length = 1 ∧ ∀ p, j.part = some p → p.opened = true) := by
      refine (Returns.any _).bind (fun ret _ => ?_)
      by_cases hret : ret < 0
      · rw [if_pos hret]
        exact Returns.pure (fun h => absurd h (by decide))
      · rw [if_neg hret]
        refine (Returns.any _).bind (fun s _ => ?_)
        cases j.part with
        | none   => exact Returns.pure (fun _ => ⟨rfl, fun p hp => (by cases hp)⟩)
        | some p =>
          refine (sendPart_opened fuel p).bind (fun ret hopen => ?_)
          refine Returns.pure (fun h => ⟨rfl, fun q hq => ?_⟩)
          cases hq
          exact hopen h
    refine hjob.bind (fun s hs => ?_)
    by_cases h0 : s.1 ≠ 0
    · rw [if_pos h0]
      exact Returns.pure (fun h => absurd h h0)
    · rw [if_neg h0]
      obtain ⟨hone, hpart⟩ := hs (Classical.not_not.1 h0)
      refine ih.bind (fun t ht => ?_)
      refine Returns.pure (fun h => ?_)
      obtain ⟨hlen, hparts⟩ := ht h
      constructor
      · simp [hone, hlen, Nat.add_comm]
      · intro p hp
        cases hj : j.part with
        | none =>
          rw [jobParts_none js hj] at hp
          exact hparts p hp
        | some q =>
          rw [jobParts_some js hj] at hp
          rcases List.mem_cons.1 hp with rfl | hp
          · exact hpart p hj
          · exact hparts p hp

theorem runPlanHeard_returns (fuel : Nat) (a : Args) (p : Plan) : Returns (runPlanHeard fuel a p) (fun s => s.1 = 0 →
    s.2.length = p.jobs.length ∧ ∀ q ∈ p.parts, q.opened = true) := by
  refine (Returns.any _).bind (fun ret _ => ?_)
  by_cases hret : ret ≠ 0
  · rw [if_pos hret]
    exact Returns.pure (fun h => absurd h hret)
  rw [if_neg hret]
  refine (sendPart_opened fuel p.boot).bind (fun ret hboot => ?_)
  by_cases hret : ret ≠ 0
  · rw [if_pos hret]
    exact Returns.pure (fun h => absurd h hret)
  rw [if_neg hret]
  refine (Returns.any _).bind (fun _ _ => ?_)
  refine (Returns.any _).bind (fun ret' _ => ?_)
  by_cases hret' : ret' ≠ 0
  · rw [if_pos hret']
    exact Returns.pure (fun h => absurd h hret')
  rw [if_neg hret']
  refine (sendJobsHeard_returns fuel p.jobs).bind (fun s hs => ?_)
  by_cases h0 : s.1 ≠ 0
  · rw [if_pos h0]
    exact Returns.pure (fun h => absurd h h0)
  rw [if_neg h0]
  refine (Returns.any _).bind (fun _ _ => ?_)
  obtain ⟨hlen, hparts⟩ := hs (Classical.not_not.1 h0)
  refine Returns.pure (fun _ => ⟨hlen, fun q hq => ?_⟩)
  rcases List.mem_cons.1 hq with rfl | hq
  · exact hboot (Classical.not_not.1 hret)
  · exact hparts q hq

/-! ## A device that does not reply -/

theorem sendJobHeard_ack {fuel : Nat} (hf : 1 ≤ fuel) (j : Job) :
    ReturnsIn ackDevice (sendJobHeard fuel j) (fun s => ∀ bs ∈ s.2, bs = []) := by
  refine (ReturnsIn.any _).bind (fun ret _ => ?_)
  by_cases hret : ret < 0
  · rw [if_pos hret]
    exact ReturnsIn.pure (fun bs hbs => (by cases hbs))
  rw [if_neg hret]
  have hdeaf : ReturnsIn ackDevice (listen (uartReadUntilMagic fuel)) (fun s => received s.2 = []) := by
    intro l
    refine Sat.listen ((uartReadUntilMagic_late hf l).mono ?_)
    rintro _ _ ⟨r, rfl, t, t', x, rfl⟩ s hs
    cases hs
    rfl
  refine hdeaf.bind (fun s hs => ?_)
  have hone : ∀ bs ∈ [received s.2], bs = [] := fun bs hbs => (List.mem_singleton.1 hbs).trans hs
  cases j.part with
  | none   => exact ReturnsIn.pure hone
  | some p => exact (ReturnsIn.any _).bind (fun ret _ => ReturnsIn.pure hone)

theorem sendJobsHeard_ack {fuel : Nat} (hf : 1 ≤ fuel) : ∀ js : List Job,
    ReturnsIn ackDevice (sendJobsHeard fuel js) (fun s => ∀ bs ∈ s.2, bs = [])
  | []      => ReturnsIn.pure (fun bs hbs => (by cases hbs))
  | j :: js => by
    refine (sendJobHeard_ack hf j).bind (fun s hs => ?_)
    by_cases h0 : s.1 ≠ 0
    · rw [if_pos h0]
      exact ReturnsIn.pure hs
    rw [if_neg h0]
    refine (sendJobsHeard_ack hf js).bind (fun t ht => ReturnsIn.pure (fun bs hbs => ?_))
    rcases List.mem_append.1 hbs with h | h
    · exact hs bs h
    · exact ht bs h

theorem runPlanHeard_ack {fuel : Nat} (hf : 1 ≤ fuel) (a : Args) (p : Plan) :
    ReturnsIn ackDevice (runPlanHeard fuel a p) (fun s => ∀ bs ∈ s.2, bs = []) := by
  have hnil : ∀ r : Int, ReturnsIn ackDevice (pure (r, []) : Tty (Int × List (List UInt8)))
      (fun s => ∀ bs ∈ s.2, bs = []) := fun r => ReturnsIn.pure (fun bs hbs => (by cases hbs))
  refine (ReturnsIn.any _).bind (fun ret _ => ?_)
  by_cases hret : ret ≠ 0
  · rw [if_pos hret]
    exact hnil ret
  rw [if_neg hret]
  refine (ReturnsIn.any _).bind (fun ret _ => ?_)
  by_cases hret : ret ≠ 0
  · rw [if_pos hret]
    exact hnil ret
  rw [if_neg hret]
  refine (ReturnsIn.any _).bind (fun _ _ => (ReturnsIn.any _).bind (fun ret _ => ?_))
  by_cases hret : ret ≠ 0
  · rw [if_pos hret]
    exact hnil ret
  rw [if_neg hret]
  refine (sendJobsHeard_ack hf p.jobs).bind (fun s hs => ?_)
  by_cases h0 : s.1 ≠ 0
  · rw [if_pos h0]
    exact ReturnsIn.pure hs
  rw [if_neg h0]
  exact (ReturnsIn.any _).bind (fun _ _ => ReturnsIn.pure hs)

/-! ## When each command is answered -/

section

variable {h : Host} {a : Args} {verb : Verb}

/-- A plan that can be carried out with no command answered has none. -/
theorem Answered.no_jobs (hans : Answered h a verb) {p : Plan} (hp : planOf h a verb = .ret (.ok p))
    (hopen : ∀ q ∈ p.parts, q.opened = true) : p.jobs = [] := by
  obtain ⟨fuel, hf, hparts⟩ := exists_fuel p.parts
  have hret : (verbRun fuel h a verb ackDevice []).1 = .ret 0 := by
    rw [verbRun_eq, hp]
    exact runPlan_ack hf a (planOf_cmd_len hp) (fun q hq => ⟨hopen q hq, hparts q hq⟩) []
  obtain ⟨heard, hrun, hgood⟩ := (hans ackDevice [] fuel).2 hret
  have hplan : verbRunHeard fuel h a verb = runPlanHeard fuel a p := by
    rw [verbRunHeard, hp]
  rw [hplan] at hrun
  have hempty := runPlanHeard_ack (Nat.le_of_succ_le hf) a p [] _ hrun
  have hlen := (runPlanHeard_returns fuel a p ackDevice [] _ hrun rfl).1
  dsimp only at hempty hlen
  rcases heard with _ | ⟨bs, heard⟩
  · exact List.eq_nil_of_length_eq_zero hlen.symm
  · obtain ⟨f, hf, hreply⟩ := hgood bs List.mem_cons_self
    rw [hempty bs List.mem_cons_self, List.infix_nil] at hf
    subst hf
    exact absurd hreply.starts (by decide)

/-- **When a verb that returns 0 has had its replies**: when it is defined, and cannot return 0 or sends no download
command. -/
theorem verbRun_answered_iff (h : Host) (a : Args) (verb : Verb) : Answered h a verb ↔
    planOf h a verb ≠ .stop .undefined ∧
      ∀ p, planOf h a verb = .ret (.ok p) → (∀ q ∈ p.parts, q.opened = true) → p.jobs = [] := by
  constructor
  · intro hans
    refine ⟨fun hund => ?_, fun p hp hopen => hans.no_jobs hp hopen⟩
    exact (hans ackDevice [] 0).1 ((verbRun_undefined_iff 0 h a verb ackDevice []).2 hund)
  · rintro ⟨hdef, hjobs⟩ d l fuel
    refine ⟨fun hund => hdef ((verbRun_undefined_iff fuel h a verb d l).1 hund), fun hret => ?_⟩
    rw [← verbRunHeard_fst] at hret
    obtain ⟨heard, hrun⟩ := ret_of_bind_fst hret
    refine ⟨heard, hrun, fun bs hbs => ?_⟩
    unfold verbRunHeard at hrun
    rcases hplan : planOf h a verb with (r | p) | x <;> rw [hplan] at hrun
    · cases hrun
      cases hbs
    · obtain ⟨hlen, hopen⟩ := runPlanHeard_returns fuel a p d l _ hrun rfl
      dsimp only at hlen
      rw [hjobs p hplan hopen] at hlen
      rw [List.eq_nil_of_length_eq_zero hlen] at hbs
      cases hbs
    · cases hrun

end

/-- **`--erase`** succeeds on a device that does not reply to the command. -/
theorem verbErase_unanswered : ¬ Answered (hostOf []) plainArgs .erase := by
  intro hans
  have hjobs := hans.no_jobs (show planOf (hostOf []) plainArgs .erase = .ret (.ok _) from rfl) (by
    intro q hq
    rw [List.mem_singleton.1 hq]
    rfl)
  cases hjobs

end Ws63Flash
