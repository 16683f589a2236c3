import Ws63Flash.Plan
import Ws63Flash.YmodemTrace
/-!
# PlanTrace — the bytes of a plan

When each transfer has its bytes, every run of a plan writes a prefix of: the handshake frame at least once, the session
of the loaderboot, the frame of the speed when the verb switches it, for each command its frame and the session after it,
and reset frames, the last possibly cut short (`runPlan_emits`).
-/
namespace Ws63Flash

open Octets Proc Language
open scoped Computability

theorem Unseen.uartReadUntilMagic_silent {β : Type} {obs : Ev → List β} (h : Unseen obs) (fuel : Nat) :
    Silent obs (uartReadUntilMagic fuel) := by
  refine h.time_silent.bind (fun t0 => Silent.bind (Silent.loop (fun s => ?_) fuel _) (fun r => ?_))
  · refine h.time_silent.bind (fun t => ?_)
    split
    · exact Silent.pure _
    · refine (h.read_silent 1).bind (fun r => ?_)
      match r with
      | .data []       => exact Silent.pure _
      | .fail e        => exact Silent.pure _
      | .data (b :: _) =>
        dsimp only
        split
        · refine h.time_silent.bind (fun t0 => ?_)
          split <;> exact Silent.pure _
        · exact Silent.halt _
  · exact (h.mark_silent (by decide) _).bind (fun _ => Silent.pure r)

theorem ws63SendCmddef_emits (fuel : Nat) {c : Cmddef} (hc : c.len ≤ 1024) :
    Emits Ev.sent (ws63SendCmddef fuel c) (fun r => ¬ r < 0) (word (cmdFrame c)) := by
  rw [ws63SendCmddef, if_neg (by unfold cmdBufLen; omega), if_neg (by omega)]
  exact writeAll_emits fuel _

/-- A turn of the handshake, once its frame is sent. -/
def handshakeHear (a : Args) (t0 : Int) : Tty (Iter Unit Int) := do
  let t ← time
  if t - t0 > RESET_TIMEOUT then return .done 1
  else
    match ← read 32 with
    | .data []  => return .next ()
    | .fail _   => return .done EXIT_FAILURE
    | .data buf =>
      if ack <:+: buf then
        if a.earlyBaud then uartOpen a.baud.toNat
        return .done 0
      else return .next ()

theorem handshakeTurn_eq (fuel : Nat) (a : Args) (t0 : Int) : handshakeTurn fuel a t0 =
    ws63SendCmddef fuel (handshakeCmd a) >>= fun ret =>
      if ret ≠ 0 then pure (.done EXIT_FAILURE) else handshakeHear a t0 := rfl

theorem Unseen.handshakeHear_silent {β : Type} {obs : Ev → List β} (h : Unseen obs) (a : Args) (t0 : Int) :
    Silent obs (handshakeHear a t0) := by
  refine h.time_silent.bind (fun t => ?_)
  split
  · exact Silent.pure _
  · refine (h.read_silent 32).bind (fun r => ?_)
    match r with
    | .data []       => exact Silent.pure _
    | .fail e        => exact Silent.pure _
    | .data (b :: _) =>
      dsimp only
      split
      · split
        · exact (h.uartOpen_silent _).bind (fun _ => Silent.pure _)
        · exact Silent.pure _
      · exact Silent.pure _

theorem handshakeTurn_emits (fuel : Nat) (a : Args) (t0 : Int) : Emits Ev.sent (handshakeTurn fuel a t0)
    (Iter.Ends (fun r => r = 0)) (word (cmdFrame (handshakeCmd a))) := by
  have hsend : Emits Ev.sent (ws63SendCmddef fuel (handshakeCmd a)) (fun r => r = 0) (word (cmdFrame (handshakeCmd a))) :=
    (ws63SendCmddef_emits fuel (by rw [handshakeCmd_len]; omega)).mono_good (fun r hr => by omega)
  rw [handshakeTurn_eq]
  refine hsend.then_silent (fun r hr => ?_) (fun r hr => ?_)
  · rw [if_neg (fun h => h hr)]
    exact sent_unseen.handshakeHear_silent a t0
  · rw [if_pos hr]
    exact Refuses.pure (fun h => absurd h (show ¬ EXIT_FAILURE = 0 by decide))

theorem handshakeLoop_emits (fuel : Nat) (a : Args) :
    Emits Ev.sent (handshakeLoop fuel a) (fun r => r = 0) (plus (word (cmdFrame (handshakeCmd a)))) := by
  have hne : ∃ x, x ∈ word (cmdFrame (handshakeCmd a)) := ⟨_, word_self _⟩
  exact Emits.silent_bind sent_unseen.time_silent (fun t0 => Emits.loop_plus hne (fun _ => handshakeTurn_emits fuel a t0) fuel ())
    (plus_nonempty hne)

/-! ## Transfers -/

/-- The stream of a transfer is there and holds its bytes. -/
def Part.Fits (p : Part) : Prop := ∃ f, p.stream = .ok f ∧ p.len ≤ f.length

/-- The bytes of a transfer. -/
def Part.data (p : Part) : List UInt8 :=
  match p.stream with
  | .ok f    => f.take p.len
  | .error _ => []

def Part.session (p : Part) : Language UInt8 := Ws63Flash.session p.name p.data

theorem Part.session_nonempty (p : Part) : ∃ x, x ∈ p.session := Ws63Flash.session_nonempty _ _

theorem sendPart_emits (fuel : Nat) {p : Part} (hp : p.Fits) :
    Emits Ev.sent (sendPart fuel p) (fun r => r = 0) p.session := by
  obtain ⟨f, hf, hlen⟩ := hp
  have hdata : p.data = f.take p.len := by rw [Part.data, hf]
  have hret : Returns (ymodemXfer fuel f p.name p.len) (fun r => ¬ r < 0 → r = EXIT_SUCCESS) :=
    (ymodemXfer_returns fuel p.name (fullBlks_of_le hlen)).mono (fun r hr hn => hr.resolve_right hn)
  rw [Part.session, hdata, sendPart, hf]
  refine ((ymodemXfer_emits fuel p.len f p.name hlen).good_of_returns hret).then_silent (fun r hr => ?_) (fun r hr => ?_)
  · rw [if_neg hr]
    exact Silent.pure _
  · rw [if_pos (Classical.not_not.1 hr)]
    exact Refuses.pure (by decide)

/-! ## Commands -/

/-- The transfer of a job, if it has one, has its bytes, and its command fits a frame. -/
structure Job.Fits (j : Job) : Prop where
  cmd : j.cmd.len ≤ 1024
  part : ∀ p, j.part = some p → p.Fits

def Job.trace (j : Job) : Language UInt8 :=
  word (cmdFrame j.cmd) * (match j.part with | none => 1 | some p => p.session)

theorem Job.trace_nonempty (j : Job) : ∃ x, x ∈ j.trace := by
  apply mul_nonempty ⟨_, word_self _⟩
  cases j.part with
  | none   => exact ⟨[], nil_mem_one⟩
  | some p => exact p.session_nonempty

theorem sendJob_emits (fuel : Nat) {j : Job} (hj : j.Fits) :
    Emits Ev.sent (sendJob fuel j) (fun r => r = 0) j.trace := by
  have hne : ∃ x, x ∈ (match j.part with | none => 1 | some p => p.session : Language UInt8) := by
    cases j.part with
    | none   => exact ⟨[], nil_mem_one⟩
    | some p => exact p.session_nonempty
  refine (ws63SendCmddef_emits fuel hj.cmd).bind (fun r hr => ?_) (fun r hr => ?_) hne
  · rw [if_neg hr]
    refine Emits.silent_bind (sent_unseen.uartReadUntilMagic_silent fuel) (fun _ => ?_) hne
    cases hp : j.part with
    | none   => exact Emits.pure nil_mem_one
    | some p => exact sendPart_emits fuel (hj.part p hp)
  · rw [if_pos (Classical.not_not.1 hr)]
    exact Refuses.pure (by decide)

def jobsTrace (js : List Job) : Language UInt8 := (js.map Job.trace).prod

theorem jobsTrace_cons (j : Job) (js : List Job) : jobsTrace (j :: js) = j.trace * jobsTrace js := by
  rw [jobsTrace, List.map_cons, List.prod_cons]
  rfl

theorem jobsTrace_nonempty : ∀ js : List Job, ∃ x, x ∈ jobsTrace js
  | []      => ⟨[], nil_mem_one⟩
  | j :: js => by
    rw [jobsTrace_cons]
    exact mul_nonempty j.trace_nonempty (jobsTrace_nonempty js)

theorem sendJobs_emits (fuel : Nat) : ∀ js : List Job, (∀ j ∈ js, j.Fits) →
    Emits Ev.sent (sendJobs fuel js) (fun r => r = 0) (jobsTrace js)
  | [], _       => Emits.pure nil_mem_one
  | j :: js, hj => by
    rw [jobsTrace_cons]
    refine (sendJob_emits fuel (hj j List.mem_cons_self)).bind (fun r hr => ?_) (fun r hr => ?_) (jobsTrace_nonempty js)
    · rw [if_neg (fun h => h hr)]
      exact sendJobs_emits fuel js (fun j' h => hj j' (List.mem_cons_of_mem _ h))
    · rw [if_pos hr]
      exact Refuses.pure hr

/-! ## The switch and the reset -/

def switchTrace (a : Args) (switch : Bool) : Language UInt8 :=
  if switch = true ∧ a.laterBaud then word (cmdFrame (baudCmd a)) else 1

theorem switchTrace_nonempty (a : Args) (switch : Bool) : ∃ x, x ∈ switchTrace a switch := by
  unfold switchTrace
  split
  · exact ⟨_, word_self _⟩
  · exact ⟨[], nil_mem_one⟩

theorem switchIf_emits (fuel : Nat) (a : Args) (switch : Bool) :
    Emits Ev.sent (switchIf fuel a switch) (fun r => r = 0) (switchTrace a switch) := by
  unfold switchIf switchTrace switchBaud
  cases switch with
  | false => exact Emits.pure nil_mem_one
  | true =>
    rw [if_pos rfl]
    by_cases hb : a.laterBaud
    · rw [if_pos hb, if_pos ⟨rfl, hb⟩]
      refine (ws63SendCmddef_emits fuel (show (8 : Nat) ≤ 1024 by decide)).then_silent (fun r hr => ?_) (fun r hr => ?_)
      · rw [if_neg hr]
        exact (sent_unseen.uartReadUntilMagic_silent fuel).bind (fun _ => (sent_unseen.uartOpen_silent _).bind (fun _ =>
          (sent_unseen.uartReadUntilMagic_silent fuel).bind (fun _ => Silent.pure _)))
      · rw [if_pos (Classical.not_not.1 hr)]
        exact Refuses.pure (by decide)
    · rw [if_neg hb, if_neg (fun h => hb h.2)]
      exact Emits.pure nil_mem_one

/-- Reset frames, the last possibly cut short. -/
def resets : Language UInt8 :=
  (word (cmdFrame (WS63E_FLASHINFO .rst)))∗ * prefixes (word (cmdFrame (WS63E_FLASHINFO .rst)))

theorem nil_mem_resets : [] ∈ resets := append_mem_mul (nil_mem_kstar _) (nil_mem_prefixes ⟨_, word_self _⟩)

/-- The reset poll, whose result no verb looks at, puts out reset frames in any case. -/
theorem ws63PollReset_emits (fuel : Nat) : Emits Ev.sent (ws63PollReset fuel) (fun _ => True) resets := by
  have hne : ∃ x, x ∈ word (cmdFrame (WS63E_FLASHINFO .rst)) := ⟨_, word_self _⟩
  refine Emits.silent_bind sent_unseen.time_silent (fun t0 => Emits.loop_star hne (fun s => ?_) fuel _) ⟨[], nil_mem_resets⟩
  split
  · refine Emits.silent_bind sent_unseen.time_silent (fun t1 => ?_) hne
    refine (ws63SendCmddef_emits fuel (show (2 : Nat) ≤ 1024 by decide)).then_silent (fun r hr => ?_) (fun r hr => ?_)
    · rw [if_neg hr]
      refine (sent_unseen.read_silent 32).bind (fun x => ?_)
      match x with
      | .fail e  => exact Silent.pure _
      | .data bs =>
        dsimp only
        split <;> exact Silent.pure _
    · rw [if_pos (Classical.not_not.1 hr)]
      exact Refuses.pure (fun h => h)
  · have hno : Refuses Ev.sent (Pure.pure (Iter.done ETIMEDOUT.neg) : Tty (Iter (Int × List UInt8) Int))
        (Iter.Ends (fun _ => False)) := Refuses.pure (fun h => h)
    exact hno.emits hne

/-! ## The plan -/

structure Plan.Fits (p : Plan) : Prop where
  boot : p.boot.Fits
  jobs : ∀ j ∈ p.jobs, j.Fits

/-- What a plan sends whose loaderboot sends `B`. -/
def Plan.traceWith (a : Args) (B : Language UInt8) (p : Plan) : Language UInt8 :=
  plus (word (cmdFrame (handshakeCmd a))) * (B * (switchTrace a p.switch * (jobsTrace p.jobs * resets)))

/-- What a plan sends. -/
def Plan.trace (a : Args) (p : Plan) : Language UInt8 := p.traceWith a p.boot.session

theorem runPlan_emits_with (fuel : Nat) (a : Args) {p : Plan} {B : Language UInt8} (hne : ∃ x, x ∈ B)
    (hboot : Emits Ev.sent (sendPart fuel p.boot) (fun r => r = 0) B) (hfits : ∀ j ∈ p.jobs, j.Fits) :
    Emits Ev.sent (runPlan fuel a p) (fun r => r = 0) (p.traceWith a B) := by
  have hreset : ∃ x, x ∈ resets := ⟨[], nil_mem_resets⟩
  have hjobs := mul_nonempty (jobsTrace_nonempty p.jobs) hreset
  have hswitch := mul_nonempty (switchTrace_nonempty a p.switch) hjobs
  refine (handshakeLoop_emits fuel a).bind (fun r hr => ?_) (fun r hr => ?_) (mul_nonempty hne hswitch)
  · rw [if_neg (fun h => h hr)]
    refine hboot.bind (fun r hr => ?_) (fun r hr => ?_) hswitch
    · rw [if_neg (fun h => h hr)]
      refine Emits.silent_bind (sent_unseen.uartReadUntilMagic_silent fuel) (fun _ => ?_) hswitch
      refine (switchIf_emits fuel a p.switch).bind (fun r hr => ?_) (fun r hr => ?_) hjobs
      · rw [if_neg (fun h => h hr)]
        refine (sendJobs_emits fuel p.jobs hfits).bind (fun r hr => ?_) (fun r hr => ?_) hreset
        · rw [if_neg (fun h => h hr)]
          exact (ws63PollReset_emits fuel).then_silent (fun _ _ => Silent.pure _) (fun _ h => absurd trivial h)
        · rw [if_pos hr]
          exact Refuses.pure hr
      · rw [if_pos hr]
        exact Refuses.pure hr
    · rw [if_pos hr]
      exact Refuses.pure hr
  · rw [if_pos hr]
    exact Refuses.pure hr

/-- **The trace of a plan** whose transfers have their bytes. -/
theorem runPlan_emits (fuel : Nat) (a : Args) {p : Plan} (hp : p.Fits) :
    Emits Ev.sent (runPlan fuel a p) (fun r => r = 0) (p.trace a) :=
  runPlan_emits_with fuel a p.boot.session_nonempty (sendPart_emits fuel hp.boot) hp.jobs

/-- A transfer of any kind sends whole blocks. -/
theorem sendPart_emits_blks (fuel : Nat) (p : Part) :
    Emits Ev.sent (sendPart fuel p) (fun r => r = 0) (KStar.kstar wholeBlk) := by
  unfold sendPart
  cases hs : p.stream with
  | error e =>
    have hno : Refuses Ev.sent (Pure.pure (e.code : Int) : Tty Int) (fun r => r = 0) :=
      Refuses.pure (fun h => absurd e.pos (by omega))
    exact hno.emits ⟨[], nil_mem_kstar _⟩
  | ok f =>
    refine (ymodemXfer_emits_blks fuel p.len f p.name).then_silent (fun r hr => ?_) (fun r hr => ?_)
    · rw [if_neg hr]
      exact Silent.pure _
    · rw [if_pos (Classical.not_not.1 hr)]
      exact Refuses.pure (by decide)

end Ws63Flash
