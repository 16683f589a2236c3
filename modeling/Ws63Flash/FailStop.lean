import Ws63Flash.AckRun
import Ws63Flash.FlashTrace
/-!
# FailStop — a verb stops at the first transfer that fails

`ymodem_xfer` reports a failure as a negative number, and each verb looks for one; but a stream that ends before its
last block makes it return `EXIT_FAILURE`, which is positive, and the verb takes that for success.  A verb stops at
every failure exactly when no transfer it makes is cut short like that (`verbRun_stopsOnFailure_iff`).
-/
namespace Ws63Flash

open Octets Proc

/-- What the event says of a transfer: its result. -/
def Ev.xfer : Ev → List Int
  | .ret .ymodemXfer r => [r]
  | _                  => []

/-- The results of the transfers of a run. -/
abbrev xfers (e : List Ev) : List Int := outputOf Ev.xfer e

/-- Every transfer that ended succeeded, or the run ended with the one that failed, and not with 0. -/
def Heeded (o : Out Int) (e : List Ev) : Prop :=
  (∀ x ∈ xfers e, x = 0) ∨
    ∃ r e₁ x, o = .ret r ∧ r ≠ 0 ∧ e = e₁ ++ [.ret .ymodemXfer x] ∧ ∀ y ∈ xfers e₁, y = 0

theorem Heeded.of_silent {m : Tty Int} (h : Silent Ev.xfer m) (d : Device) (l : List Ev) : Sat m d l Heeded :=
  (h d l).mono (fun _ _ he => Or.inl (fun x hx => by rw [xfers, he] at hx; exact nomatch hx))

theorem Heeded.prepend {o : Out Int} {e e' : List Ev} (he : ∀ x ∈ xfers e, x = 0) (h : Heeded o e') :
    Heeded o (e ++ e') := by
  have happ : ∀ f : List Ev, (∀ x ∈ xfers f, x = 0) → ∀ x ∈ xfers (e ++ f), x = 0 := fun f hf x hx => by
    rw [xfers, outputOf_append] at hx
    exact (List.mem_append.1 hx).elim (he x) (hf x)
  rcases h with h | ⟨r, e₁, x, ho, hr, rfl, h₁⟩
  · exact Or.inl (happ e' h)
  · exact Or.inr ⟨r, e ++ e₁, x, ho, hr, (List.append_assoc _ _ _).symm, happ e₁ h₁⟩

/-- Going on only from 0. -/
theorem Heeded.check {m : Tty Int} {k : Tty Int} {d : Device} {l : List Ev} (hm : Sat m d l Heeded)
    (hk : ∀ l, Sat k d l Heeded) : Sat (do let ret ← m; if ret ≠ 0 then return ret else k) d l Heeded := by
  refine Sat.bind hm (fun r e he => ?_) (fun x e he => ?_)
  · split
    · apply Sat.pure
      rwa [List.append_nil]
    · rename_i hr
      rcases he with he | ⟨r', e₁, x, ho, hr', _⟩
      · exact (hk (l ++ e)).mono (fun o e' h => h.prepend he)
      · exact absurd (Out.ret.inj ho) (fun heq => hr (fun h0 => hr' (heq ▸ h0)))
  · rcases he with he | ⟨r', e₁, x', ho, _⟩
    · exact Or.inl he
    · exact nomatch ho

theorem Heeded.after_silent {α : Type} {m : Tty α} {k : α → Tty Int} {d : Device} {l : List Ev} (hm : Silent Ev.xfer m)
    (hk : ∀ a l, Sat (k a) d l Heeded) : Sat (m >>= k) d l Heeded := by
  have hnil : ∀ e : List Ev, outputOf Ev.xfer e = [] → ∀ x ∈ xfers e, x = 0 := fun e he x hx => by
    rw [xfers, he] at hx
    exact nomatch hx
  refine Sat.bind (hm d l) (fun a e he => ?_) (fun x e he => Or.inl (hnil e he))
  exact (hk a (l ++ e)).mono (fun o e' h => h.prepend (hnil e he))

/-! ## What makes no transfer -/

theorem xfer_unseen : Unseen Ev.xfer where
  read := fun _ => rfl
  time := fun _ => rfl
  uartOpen := fun _ => rfl
  ret := fun f _ hf => by
    cases f with
    | ymodemXfer => exact absurd rfl hf
    | ymodemWaitAck | uartReadUntilMagic => rfl

theorem xfer_unwritten : Unwritten Ev.xfer := ⟨fun _ => rfl, fun _ => rfl⟩

theorem ymodemBlkTimedXmit_noXfer (fuel : Nat) (blk : List UInt8) : Silent Ev.xfer (ymodemBlkTimedXmit fuel blk) := by
  refine xfer_unseen.time_silent.bind (fun t0 => Silent.loop (fun _ => xfer_unseen.time_silent.bind (fun t => ?_)) fuel ())
  split
  · exact Silent.pure _
  · refine (xfer_unwritten.writeAll_silent fuel blk).bind (fun r => ?_)
    split
    · exact Silent.pure _
    · exact xfer_unseen.answer_silent fuel

theorem xferEot_noXfer (fuel : Nat) : Silent Ev.xfer (xferEot fuel) := by
  refine Silent.loop (fun _ => (xfer_unwritten.write_silent _).bind (fun r => ?_)) fuel ()
  cases r with
  | fail e  => exact Silent.pure _
  | wrote k => exact xfer_unseen.answer_silent fuel

theorem xferData_noXfer (fuel len : Nat) (f : List UInt8) : Silent Ev.xfer (xferData fuel len f) := by
  rw [xferData_eq]
  refine Silent.loop (fun s => ?_) fuel (1, f)
  split
  · generalize (if s.1 = totalBlk len then lastBlk len else 1024) = rlen
    dsimp only
    split
    · exact Silent.pure _
    · refine (ymodemBlkTimedXmit_noXfer fuel _).bind (fun r => ?_)
      split <;> exact Silent.pure _
  · exact Silent.pure _

theorem ws63SendCmddef_noXfer (fuel : Nat) (c : Cmddef) : Silent Ev.xfer (ws63SendCmddef fuel c) := by
  unfold ws63SendCmddef
  split
  · exact Silent.halt _
  split
  · exact Silent.halt _
  · exact xfer_unwritten.writeAll_silent fuel _

/-- The last event of a transfer that ends is its result. -/
theorem ymodemXfer_ends (fuel : Nat) (f : List UInt8) (fn : CStr) (len : Nat) (d : Device) (l : List Ev) :
    Sat (ymodemXfer fuel f fn len) d l (fun o e => match o with
      | .ret r  => ∃ e₁, e = e₁ ++ [.ret .ymodemXfer r] ∧ xfers e₁ = []
      | .stop _ => xfers e = []) := by
  refine called_sat (Sat.mono (Q := fun _ e => xfers e = []) ?_ (fun o e he => ?_))
  · refine Silent.bind (xfer_unseen.waitC_silent fuel) (fun ret => ?_) d l
    split
    · exact Silent.pure _
    refine (ymodemBlkTimedXmit_noXfer fuel _).bind (fun ret => ?_)
    split
    · exact Silent.pure _
    refine (xferData_noXfer fuel len f).bind (fun ret => ?_)
    split
    · exact Silent.pure _
    refine (xferEot_noXfer fuel).bind (fun ret => ?_)
    split
    · exact Silent.pure _
    refine (ymodemBlkTimedXmit_noXfer fuel _).bind (fun ret => ?_)
    split <;> exact Silent.pure _
  · cases o with
    | ret r  => exact ⟨e, rfl, he⟩
    | stop x => exact he

/-- Its stream, if there is one, holds every block but the last. -/
def Part.Whole (p : Part) : Prop := ∀ f, p.stream = .ok f → FullBlks f p.len

def Part.opened (p : Part) : Bool := p.stream.isOk

theorem sendPart_heeded (fuel : Nat) {p : Part} (hp : p.Whole) (d : Device) (l : List Ev) :
    Sat (sendPart fuel p) d l Heeded := by
  have hnil : ∀ e : List Ev, xfers e = [] → ∀ x ∈ xfers e, x = 0 := fun e he x hx => by
    rw [he] at hx
    exact nomatch hx
  unfold sendPart
  cases hs : p.stream with
  | error e => exact Heeded.of_silent (Silent.pure _) d l
  | ok f =>
    have hret : ∀ d l, Sat (ymodemXfer fuel f p.name p.len) d l (fun o _ => ∀ r, o = .ret r → Failed r) :=
      ymodemXfer_returns fuel p.name (hp f hs)
    refine Sat.bind ((ymodemXfer_ends fuel f p.name p.len d l).and (hret d l)) ?_ ?_
    · rintro r e ⟨⟨e₁, rfl, h₁⟩, hr⟩
      split
      · rename_i hneg
        exact Sat.pure (Or.inr ⟨EXIT_FAILURE, e₁, r, rfl, by decide, List.append_nil _, hnil e₁ h₁⟩)
      · rename_i hpos
        have hzero : r = 0 := (hr r rfl).resolve_right hpos
        refine Sat.pure (Or.inl (fun x hx => ?_))
        rw [List.append_nil, xfers, outputOf_append, show outputOf Ev.xfer e₁ = [] from h₁, hzero] at hx
        simpa [outputOf, Ev.xfer] using hx
    · rintro x e ⟨he, _⟩
      exact Or.inl (hnil e he)

/-- Each transfer up to the first whose file cannot be opened has its blocks. -/
def Wholes (ps : List Part) : Prop := ∀ p ∈ ps.takeWhile Part.opened, p.Whole

/-- The transfers of a plan, in order. -/
def jobParts (js : List Job) : List Part := js.filterMap Job.part

def Plan.parts (p : Plan) : List Part := p.boot :: jobParts p.jobs

theorem wholes_cons {p : Part} {ps : List Part} (hp : p.opened = true) :
    Wholes (p :: ps) ↔ p.Whole ∧ Wholes ps := by
  unfold Wholes
  rw [List.takeWhile_cons, if_pos hp, List.forall_mem_cons]

theorem wholes_cons_closed {p : Part} {ps : List Part} (hp : ¬ p.opened = true) : Wholes (p :: ps) := by
  unfold Wholes
  rw [List.takeWhile_cons, if_neg hp]
  exact fun q hq => nomatch hq

theorem sendPart_closed (fuel : Nat) {p : Part} (hp : ¬ p.opened = true) :
    ∃ r : Int, r ≠ 0 ∧ sendPart fuel p = pure r := by
  unfold Part.opened at hp
  unfold sendPart
  cases hs : p.stream with
  | error e => exact ⟨e.code, by have := e.pos; omega, rfl⟩
  | ok f    => exact absurd (by rw [hs]; rfl) hp

/-- A transfer, and what follows it when it is made. -/
theorem Heeded.part {fuel : Nat} {p : Part} {ps : List Part} {k : Tty Int} (hw : Wholes (p :: ps))
    (hk : Wholes ps → ∀ d l, Sat k d l Heeded) (d : Device) (l : List Ev) :
    Sat (do let ret ← sendPart fuel p; if ret ≠ 0 then return ret else k) d l Heeded := by
  by_cases hp : p.opened = true
  · obtain ⟨hwp, hws⟩ := (wholes_cons hp).1 hw
    exact Heeded.check (sendPart_heeded fuel hwp d l) (hk hws d)
  · obtain ⟨r, hr, hsend⟩ := sendPart_closed fuel hp
    rw [hsend, pure_bind, if_pos hr]
    exact Heeded.of_silent (Silent.pure r) d l

theorem jobParts_none {j : Job} (js : List Job) (hj : j.part = none) : jobParts (j :: js) = jobParts js :=
  List.filterMap_cons_none hj

theorem jobParts_some {j : Job} {p : Part} (js : List Job) (hj : j.part = some p) :
    jobParts (j :: js) = p :: jobParts js := List.filterMap_cons_some hj

/-- The jobs, and what follows them. -/
theorem Heeded.jobs {fuel : Nat} {k : Tty Int} (hk : ∀ d l, Sat k d l Heeded) : ∀ js : List Job,
    Wholes (jobParts js) → ∀ d l, Sat (do let ret ← sendJobs fuel js; if ret ≠ 0 then return ret else k) d l Heeded
  | [], _       => by
    rw [sendJobs_nil_bind]
    exact hk
  | j :: js, hw => by
    intro d l
    rw [sendJobs_cons_bind, sendJob_bind]
    refine Heeded.after_silent (ws63SendCmddef_noXfer fuel _) (fun r l => ?_)
    split
    · exact Heeded.of_silent (Silent.pure _) d l
    refine Heeded.after_silent (xfer_unseen.uartReadUntilMagic_silent fuel) (fun _ l => ?_)
    cases hj : j.part with
    | none =>
      rw [jobParts_none js hj] at hw
      exact Heeded.jobs hk js hw d l
    | some p =>
      rw [jobParts_some js hj] at hw
      exact Heeded.part hw (Heeded.jobs hk js) d l

/-- A transfer failed, and something was written after it. -/
def Ignored (e : List Ev) : Prop := ∃ e₁ x e₂, e = e₁ ++ .ret .ymodemXfer x :: e₂ ∧ x ≠ 0 ∧ written e₂ ≠ []

theorem Ignored.prepend {e' : List Ev} (e : List Ev) (h : Ignored e') : Ignored (e ++ e') := by
  obtain ⟨e₁, x, e₂, rfl, hx, hw⟩ := h
  exact ⟨e ++ e₁, x, e₂, (List.append_assoc _ _ _).symm, hx, hw⟩

theorem writes_append (e e' : List Ev) (h : written e ≠ []) : written (e ++ e') ≠ [] := by
  rw [written_append]
  exact List.append_ne_nil_of_left_ne_nil h _

theorem writes_prepend (e e' : List Ev) (h : written e' ≠ []) : written (e ++ e') ≠ [] := by
  rw [written_append]
  exact List.append_ne_nil_of_right_ne_nil _ h

/-- The jobs of a plan, and the end of the verb. -/
def finish (fuel : Nat) (js : List Job) : Tty Int := do
  let ret ← sendJobs fuel js
  if ret ≠ 0 then return ret
  else
    let _ ← ws63PollReset fuel
    return 0

theorem sendCmd_writes {fuel : Nat} (hf : 2 ≤ fuel) {c : Cmddef} (hc : c.len ≤ 1024) (k : Int → Tty Int) (l : List Ev) :
    Sat (ws63SendCmddef fuel c >>= k) ackDevice l (fun _ e => written e ≠ []) := by
  refine Sat.bind_keep writes_append ((ws63SendCmddef_ack hf hc l).mono ?_)
  rintro o e ⟨_, _, _, rfl⟩
  exact List.cons_ne_nil _ _

theorem finish_writes {fuel : Nat} (hf : 2 ≤ fuel) (js : List Job) (hjs : ∀ j ∈ js, j.cmd.len ≤ 1024) (l : List Ev) :
    Sat (finish fuel js) ackDevice l (fun _ e => written e ≠ []) := by
  cases js with
  | nil =>
    obtain ⟨n, rfl⟩ := Nat.exists_eq_add_of_le' (Nat.le_of_succ_le hf)
    rw [finish, sendJobs_nil_bind]
    refine Sat.bind_keep writes_append (Sat.bind_val (time_sat _ _) ?_)
    rintro _ _ ⟨rfl, rfl⟩
    have hearly : ∀ t : Int, t - t < RESET_TIMEOUT := fun t => by unfold RESET_TIMEOUT; omega
    refine (Sat.bind_keep writes_append ?_).mono (fun _ _ => writes_prepend _ _)
    dsimp only
    rw [if_pos (hearly _)]
    apply Sat.bind_val (time_sat _ _)
    rintro _ _ ⟨rfl, rfl⟩
    refine Sat.mono (Sat.bind_keep writes_append ((ws63SendCmddef_ack hf (show (2 : Nat) ≤ 1024 by decide) _).mono ?_))
      (fun _ _ => writes_prepend _ _)
    rintro o e ⟨_, _, _, rfl⟩
    exact List.cons_ne_nil _ _
  | cons j js =>
    rw [finish, sendJobs_cons_bind, sendJob_bind]
    exact sendCmd_writes hf (hjs j List.mem_cons_self) _ l

theorem sendPart_ack {fuel : Nat} {p : Part} (hp : p.opened = true) (hf : totalBlk p.len + 2 ≤ fuel) {l : List Ev}
    (hl : afterWrite l = false) : Sat (sendPart fuel p) ackDevice l (fun o e => ∃ r, o = .ret r ∧ r = 0 ∧
      (¬ p.Whole → ∃ e₁, e = e₁ ++ [.ret .ymodemXfer EXIT_FAILURE])) := by
  unfold Part.opened at hp
  unfold sendPart
  cases hs : p.stream with
  | error e => rw [hs] at hp; exact nomatch hp
  | ok f =>
    refine Sat.bind ((ymodemXfer_ends fuel f p.name p.len _ l).and (ymodemXfer_ack f p.name hf hl)) ?_ ?_
    · rintro r e ⟨⟨e₁, rfl, _⟩, _, hret, hr⟩
      cases hret
      have hpos : ¬ r < 0 := by
        rw [hr]
        split <;> decide
      rw [if_neg hpos]
      refine Sat.pure ⟨0, rfl, rfl, fun hbad => ⟨e₁, ?_⟩⟩
      rw [List.append_nil, hr, if_neg]
      exact fun hf => hbad (fun g hg => by rw [hs] at hg; cases hg; exact hf)
    · rintro x e ⟨_, _, hret, _⟩
      exact nomatch hret

theorem Ignored.part {fuel : Nat} {p : Part} {ps : List Part} {k : Tty Int} (hbad : ¬ Wholes (p :: ps))
    (hf : totalBlk p.len + 2 ≤ fuel) (hk : ¬ Wholes ps → ∀ l, Sat k ackDevice l (fun _ e => Ignored e))
    (hw : ∀ l, Sat k ackDevice l (fun _ e => written e ≠ [])) {l : List Ev} (hl : afterWrite l = false) :
    Sat (do let ret ← sendPart fuel p; if ret ≠ 0 then return ret else k) ackDevice l (fun _ e => Ignored e) := by
  by_cases hp : p.opened = true
  · apply Sat.bind_val (sendPart_ack hp hf hl)
    rintro _ e ⟨rfl, he⟩
    rw [if_neg (fun h => h rfl)]
    by_cases hwp : p.Whole
    · have hps : ¬ Wholes ps := fun hws => hbad ((wholes_cons hp).2 ⟨hwp, hws⟩)
      exact (hk hps (l ++ e)).mono (fun _ _ h => h.prepend e)
    · obtain ⟨e₁, rfl⟩ := he hwp
      refine (hw _).mono (fun _ e₂ h => ⟨e₁, EXIT_FAILURE, e₂, ?_, by decide, h⟩)
      rw [List.append_assoc]
      rfl
  · exact absurd (wholes_cons_closed hp) hbad

theorem Ignored.jobs {fuel : Nat} (hf : 2 ≤ fuel) : ∀ js : List Job, (∀ j ∈ js, j.cmd.len ≤ 1024) →
    (∀ p ∈ jobParts js, totalBlk p.len + 2 ≤ fuel) → ¬ Wholes (jobParts js) →
    ∀ l, Sat (finish fuel js) ackDevice l (fun _ e => Ignored e)
  | [], _, _, hbad       => absurd (fun p hp => nomatch hp) hbad
  | j :: js, hc, hp, hbad => by
    intro l
    have hcs : ∀ j' ∈ js, j'.cmd.len ≤ 1024 := fun j' h => hc j' (List.mem_cons_of_mem _ h)
    rw [finish, sendJobs_cons_bind, sendJob_bind]
    apply Sat.bind_val (ws63SendCmddef_ack hf (hc j List.mem_cons_self) l)
    rintro _ e ⟨rfl, _⟩
    rw [if_neg (by decide)]
    apply Sat.bind_val (uartReadUntilMagic_ack (by omega) _)
    rintro _ e' hl
    cases hj : j.part with
    | none =>
      rw [jobParts_none js hj] at hp hbad
      exact (Ignored.jobs hf js hcs hp hbad _).mono (fun _ _ h => (h.prepend e').prepend e)
    | some p =>
      rw [jobParts_some js hj] at hp hbad
      have hrest := Ignored.part hbad (hp p List.mem_cons_self)
        (Ignored.jobs hf js hcs (fun q hq => hp q (List.mem_cons_of_mem _ hq))) (finish_writes hf js hcs) hl
      exact hrest.mono (fun _ _ h => (h.prepend e').prepend e)

theorem planFlash_eq_ok {h : Host} {a : Args} {p : Plan} (hp : planFlash h a = .ret (.ok p)) :
    ∃ fw bins lb, p = flashPlan a fw bins lb := by
  unfold planFlash at hp
  repeat' split at hp
  all_goals first
    | exact ⟨_, _, _, (Except.ok.inj (Out.ret.inj hp)).symm⟩
    | exact nomatch hp

theorem planWrite_eq_ok {h : Host} {a : Args} {p : Plan} (hp : planWrite h a = .ret (.ok p)) :
    ∃ (boot : Wobj) (wobjs : List Wobj), p = ⟨writePart h boot, true, wobjs.map (writeJob h)⟩ := by
  unfold planWrite at hp
  repeat' split at hp
  all_goals first
    | exact ⟨_, _, (Except.ok.inj (Out.ret.inj hp)).symm⟩
    | exact nomatch hp

theorem planErase_eq_ok {h : Host} {p : Plan} (hp : planErase h = .ret (.ok p)) :
    p = ⟨builtinPart h, false, [⟨WS63E_FLASHINFO .downloadi, none⟩]⟩ := by
  unfold planErase at hp
  split at hp
  · exact nomatch hp
  · exact (Except.ok.inj (Out.ret.inj hp)).symm

theorem planWriteProg_eq_ok {h : Host} {a : Args} {p : Plan} (hp : planWriteProg h a = .ret (.ok p)) :
    ∃ bin, p = ⟨builtinPart h, true, [progJob h bin]⟩ := by
  unfold planWriteProg at hp
  repeat' split at hp
  all_goals first
    | exact ⟨_, (Except.ok.inj (Out.ret.inj hp)).symm⟩
    | exact nomatch hp

/-- The commands of a plan are download commands. -/
theorem planOf_cmd {h : Host} {a : Args} {verb : Verb} {p : Plan} (hp : planOf h a verb = .ret (.ok p)) {P : Cmddef → Prop}
    (hdown : ∀ addr len eras, P (downloadCmd addr len eras)) (herase : P (WS63E_FLASHINFO .downloadi)) :
    ∀ j ∈ p.jobs, P j.cmd := by
  intro j hj
  cases verb with
  | flash =>
    obtain ⟨fw, bins, lb, rfl⟩ := planFlash_eq_ok hp
    obtain ⟨b, _, rfl⟩ := List.mem_map.1 hj
    exact hdown _ _ _
  | write =>
    obtain ⟨boot, wobjs, rfl⟩ := planWrite_eq_ok hp
    obtain ⟨w, _, rfl⟩ := List.mem_map.1 hj
    exact hdown _ _ _
  | erase =>
    rw [planErase_eq_ok hp, List.mem_singleton] at hj
    rw [hj]
    exact herase
  | writeProg =>
    obtain ⟨bin, rfl⟩ := planWriteProg_eq_ok hp
    rw [List.mem_singleton] at hj
    rw [hj]
    exact hdown _ _ _

/-- They fit a frame. -/
theorem planOf_cmd_len {h : Host} {a : Args} {verb : Verb} {p : Plan} (hp : planOf h a verb = .ret (.ok p)) :
    ∀ j ∈ p.jobs, j.cmd.len ≤ 1024 :=
  planOf_cmd hp (P := fun c => c.len ≤ 1024) (fun _ _ _ => show (14 : Nat) ≤ 1024 by decide) (by decide)

theorem builtinPart_whole (h : Host) : (builtinPart h).Whole := fun f hf => by
  cases hf
  exact fullBlks_of_le (Nat.le_refl _)

/-- `--erase` transfers only what it is built with. -/
theorem planErase_wholes {h : Host} {p : Plan} (hp : planErase h = .ret (.ok p)) : Wholes p.parts := by
  rw [planErase_eq_ok hp]
  exact (wholes_cons rfl).2 ⟨builtinPart_whole h, fun q hq => nomatch hq⟩

/-- `--write-program` transfers what it is built with and the image it made, which is as long as it says. -/
theorem planWriteProg_wholes {h : Host} {a : Args} {p : Plan} (hp : planWriteProg h a = .ret (.ok p)) :
    Wholes p.parts := by
  obtain ⟨bin, rfl⟩ := planWriteProg_eq_ok hp
  refine (wholes_cons rfl).2 ⟨builtinPart_whole h, (wholes_cons rfl).2 ⟨fun f hf => ?_, fun q hq => nomatch hq⟩⟩
  cases hf
  exact fullBlks_of_le (Nat.le_of_eq (signFile_length h.sha256_length bin).symm)

theorem flashPlan_parts (a : Args) (fw : List UInt8) (bins : List FwpkgBinInfo) (lb : FwpkgBinInfo) :
    (flashPlan a fw bins lb).parts = (lb :: selected a bins).map (flashPart fw) := by
  show flashPart fw lb :: List.filterMap Job.part ((selected a bins).map (flashJob fw)) = _
  rw [List.filterMap_map, List.map_cons, ← List.filterMap_eq_map]
  rfl

theorem exists_fuel : ∀ ps : List Part, ∃ fuel, 2 ≤ fuel ∧ ∀ p ∈ ps, totalBlk p.len + 2 ≤ fuel
  | []      => ⟨2, Nat.le_refl _, fun p hp => nomatch hp⟩
  | p :: ps => by
    obtain ⟨fuel, hf, hps⟩ := exists_fuel ps
    refine ⟨fuel + totalBlk p.len, by omega, fun q hq => ?_⟩
    rcases List.mem_cons.1 hq with rfl | hq
    · omega
    · have := hps q hq
      omega

end Ws63Flash
