import Ws63Flash.MainDevice
import Ws63Flash.ParseOpt
/-!
# LineSpeed — the speed at which each byte goes out

What a run puts on the line, bytes and switches of the speed (`lined`), and each byte with its speed (`paced`).  Only
the handshake and the passage after the loaderboot switch it, so the words of a plan are those of its bytes with the
switches between them (`runPlan_lined`): every byte goes out at the speed that the frames before it announced
(`main_paced`).
-/
namespace Ws63Flash

open Octets Proc Language
open scoped Computability

inductive Sym where
  | byte (b : UInt8)
  | speed (baud : Nat)
deriving DecidableEq

def Ev.lined : Ev → List Sym
  | .write bs      => bs.map .byte
  | .uartOpen baud => [.speed baud]
  | _              => []

/-- What a run puts on the line. -/
abbrev lined (e : List Ev) : List Sym := outputOf Ev.lined e

/-- Each byte with its speed, the line being at `v` before. -/
def pace (v : Nat) : List Sym → List (UInt8 × Nat)
  | []              => []
  | .byte b :: w    => (b, v) :: pace v w
  | .speed baud :: w => pace baud w

def paced (v : Nat) (e : List Ev) : List (UInt8 × Nat) := pace v (lined e)

/-- The speed after a word. -/
def speedAfter (v : Nat) : List Sym → Nat
  | []              => v
  | .byte _ :: w    => speedAfter v w
  | .speed baud :: w => speedAfter baud w

theorem pace_append : ∀ (v : Nat) (w w' : List Sym), pace v (w ++ w') = pace v w ++ pace (speedAfter v w) w'
  | _, [], _              => rfl
  | v, .byte b :: w, w'    => congrArg ((b, v) :: ·) (pace_append v w w')
  | _, .speed baud :: w, w' => pace_append baud w w'

theorem speedAfter_append : ∀ (v : Nat) (w w' : List Sym), speedAfter v (w ++ w') = speedAfter (speedAfter v w) w'
  | _, [], _              => rfl
  | v, .byte _ :: w, w'    => speedAfter_append v w w'
  | _, .speed baud :: w, w' => speedAfter_append baud w w'

/-- The words of `L`, at the speed `v`. -/
def atSpeed (v : Nat) (L : Language UInt8) : Language (UInt8 × Nat) := Language.map (·, v) L

theorem atSpeed_mul (v : Nat) (L M : Language UInt8) : atSpeed v (L * M) = atSpeed v L * atSpeed v M :=
  map_mul (Language.map (·, v)) L M

/-- At the speed `v` the words of `L` go out as words of `M`, and leave the speed `v'`. -/
def Paces (v : Nat) (L : Language Sym) (v' : Nat) (M : Language (UInt8 × Nat)) : Prop :=
  ∀ w ∈ L, pace v w ∈ M ∧ speedAfter v w = v'

theorem Paces.bytes (v : Nat) (L : Language UInt8) : Paces v (Language.map .byte L) v (atSpeed v L) := by
  have hbytes : ∀ u : List UInt8, pace v (u.map .byte) = u.map (·, v) ∧ speedAfter v (u.map .byte) = v := by
    intro u
    induction u with
    | nil => exact ⟨rfl, rfl⟩
    | cons b u ih => exact ⟨congrArg ((b, v) :: ·) ih.1, ih.2⟩
  intro w hw
  obtain ⟨u, hu, rfl⟩ := hw
  refine ⟨?_, (hbytes u).2⟩
  rw [(hbytes u).1]
  exact ⟨u, hu, rfl⟩

theorem Paces.speed (v baud : Nat) : Paces v (word [.speed baud]) baud 1 := by
  intro w hw
  cases hw
  exact ⟨nil_mem_one, rfl⟩

theorem Paces.one (v : Nat) : Paces v 1 v 1 := by
  intro w hw
  cases hw
  exact ⟨nil_mem_one, rfl⟩

theorem Paces.mul {v v' v'' : Nat} {L L' : Language Sym} {M M' : Language (UInt8 × Nat)} (h : Paces v L v' M)
    (h' : Paces v' L' v'' M') : Paces v (L * L') v'' (M * M') := by
  intro w hw
  obtain ⟨x, hx, y, hy, rfl⟩ := mem_mul.1 hw
  obtain ⟨hpx, hsx⟩ := h x hx
  obtain ⟨hpy, hsy⟩ := h' y hy
  rw [pace_append, speedAfter_append, hsx]
  exact ⟨append_mem_mul hpx hpy, hsy⟩

theorem Paces.prefixes {v v' : Nat} {L : Language Sym} {M : Language (UInt8 × Nat)} (h : Paces v L v' M) {w : List Sym}
    (hw : w ∈ prefixes L) : pace v w ∈ prefixes M := by
  obtain ⟨x, hx, y, rfl⟩ := hw
  refine ⟨_, (h _ hx).1, ?_⟩
  rw [pace_append]
  exact List.prefix_append _ _

/-! ## What leaves the speed alone -/

def Ev.opened : Ev → List Nat
  | .uartOpen baud => [baud]
  | _              => []

theorem opened_unheard : Unheard Ev.opened := ⟨fun _ => rfl, fun _ => rfl⟩

theorem opened_unwritten : Unwritten Ev.opened := ⟨fun _ => rfl, fun _ => rfl⟩

theorem lined_of_steady : ∀ e : List Ev, outputOf Ev.opened e = [] → lined e = (written e).map .byte
  | [], _     => rfl
  | x :: e, h => by
    have happ : outputOf Ev.opened (x :: e) = x.opened ++ outputOf Ev.opened e := List.flatMap_cons
    rw [happ, List.append_eq_nil_iff] at h
    have ih := lined_of_steady e h.2
    have hx : x.lined = x.sent.map .byte := by
      cases x with
      | uartOpen baud => exact nomatch h.1
      | read r | write bs | writeFail e | time t | ret f r => rfl
    rw [written_cons, List.map_append, ← ih, ← hx]
    exact List.flatMap_cons

/-- A process that leaves the speed alone puts its bytes on the line. -/
theorem Emits.lined {α : Type} {m : Tty α} {good : α → Prop} {L : Language UInt8} (h : Emits Ev.sent m good L)
    (hs : Silent Ev.opened m) : Emits Ev.lined m good (Language.map .byte L) :=
  h.map (fun d l => (hs d l).mono (fun _ e he => lined_of_steady e he))

theorem Silent.lined {α : Type} {m : Tty α} (h : Silent Ev.sent m) (hs : Silent Ev.opened m) : Silent Ev.lined m :=
  fun d l => ((h d l).and (hs d l)).mono (fun _ e ⟨hsent, hopened⟩ => by
    have hmap := lined_of_steady e hopened
    rwa [written, hsent] at hmap)

theorem called_steady {f : Callee} {m : Tty Int} (h : Silent Ev.opened m) : Silent Ev.opened (called f m) :=
  h.bind (fun _ => Silent.bind (Silent.act (fun _ _ => rfl)) (fun _ => Silent.pure _))

theorem answer_steady (fuel : Nat) : Silent Ev.opened (do
    let ret ← ymodemWaitAck fuel
    if ret < 0 then return (Iter.done ret : Iter Unit Int)
    else if ret > 0 then return .next ()
    else return .done 0) := by
  refine Silent.bind (called_steady ?_) (fun r => ?_)
  · refine opened_unheard.time_silent.bind (fun t0 => Silent.loop (fun _ => ?_) fuel ())
    refine (opened_unheard.read_silent 1).bind (fun r => ?_)
    match r with
    | .data []        => exact Silent.pure _
    | .fail e         => exact Silent.pure _
    | .data (cc :: _) =>
      dsimp only
      split
      · exact Silent.pure _
      · split
        · exact Silent.pure _
        · refine opened_unheard.time_silent.bind (fun t => ?_)
          split <;> exact Silent.pure _
  · split
    · exact Silent.pure _
    · split <;> exact Silent.pure _

theorem ymodemBlkTimedXmit_steady (fuel : Nat) (blk : List UInt8) : Silent Ev.opened (ymodemBlkTimedXmit fuel blk) := by
  refine opened_unheard.time_silent.bind (fun t0 => Silent.loop (fun _ => ?_) fuel ())
  refine opened_unheard.time_silent.bind (fun t => ?_)
  split
  · exact Silent.pure _
  · refine (opened_unwritten.writeAll_silent fuel blk).bind (fun r => ?_)
    split
    · exact Silent.pure _
    · exact answer_steady fuel

theorem xferData_steady (fuel len : Nat) (f : List UInt8) : Silent Ev.opened (xferData fuel len f) := by
  rw [xferData_eq]
  refine Silent.loop (fun s => ?_) fuel (1, f)
  split
  · generalize (if s.1 = totalBlk len then lastBlk len else 1024) = rlen
    dsimp only
    split
    · exact Silent.pure _
    · refine (ymodemBlkTimedXmit_steady fuel _).bind (fun r => ?_)
      split <;> exact Silent.pure _
  · exact Silent.pure _

theorem xferEot_steady (fuel : Nat) : Silent Ev.opened (xferEot fuel) := by
  refine Silent.loop (fun _ => (opened_unwritten.write_silent _).bind (fun r => ?_)) fuel ()
  cases r with
  | fail e  => exact Silent.pure _
  | wrote k => exact answer_steady fuel

theorem sendPart_steady (fuel : Nat) (p : Part) : Silent Ev.opened (sendPart fuel p) := by
  unfold sendPart
  cases p.stream with
  | error e => exact Silent.pure _
  | ok f =>
    refine Silent.bind (called_steady ?_) (fun r => ?_)
    · refine (opened_unheard.waitC_silent fuel).bind (fun r => ?_)
      split
      · exact Silent.pure _
      refine (ymodemBlkTimedXmit_steady fuel _).bind (fun r => ?_)
      split
      · exact Silent.pure _
      refine (xferData_steady fuel p.len f).bind (fun r => ?_)
      split
      · exact Silent.pure _
      refine (xferEot_steady fuel).bind (fun r => ?_)
      split
      · exact Silent.pure _
      refine (ymodemBlkTimedXmit_steady fuel _).bind (fun r => ?_)
      split <;> exact Silent.pure _
    · split <;> exact Silent.pure _

theorem ws63SendCmddef_steady (fuel : Nat) (c : Cmddef) : Silent Ev.opened (ws63SendCmddef fuel c) := by
  unfold ws63SendCmddef
  split
  · exact Silent.halt _
  split
  · exact Silent.halt _
  · exact opened_unwritten.writeAll_silent fuel _

theorem uartReadUntilMagic_steady (fuel : Nat) : Silent Ev.opened (uartReadUntilMagic fuel) := by
  refine opened_unheard.time_silent.bind (fun t0 => Silent.bind (Silent.loop (fun s => ?_) fuel _) (fun r => ?_))
  · refine opened_unheard.time_silent.bind (fun t => ?_)
    split
    · exact Silent.pure _
    · refine (opened_unheard.read_silent 1).bind (fun r => ?_)
      match r with
      | .data []       => exact Silent.pure _
      | .fail e        => exact Silent.pure _
      | .data (b :: _) =>
        dsimp only
        split
        · refine opened_unheard.time_silent.bind (fun t0 => ?_)
          split <;> exact Silent.pure _
        · exact Silent.halt _
  · exact Silent.bind (Silent.act (fun _ _ => rfl)) (fun _ => Silent.pure _)

theorem sendJobs_steady (fuel : Nat) : ∀ js : List Job, Silent Ev.opened (sendJobs fuel js)
  | []      => Silent.pure _
  | j :: js => by
    have hjob : Silent Ev.opened (sendJob fuel j) := by
      refine (ws63SendCmddef_steady fuel j.cmd).bind (fun r => ?_)
      split
      · exact Silent.pure _
      · refine (uartReadUntilMagic_steady fuel).bind (fun _ => ?_)
        cases j.part with
        | none   => exact Silent.pure _
        | some p => exact sendPart_steady fuel p
    refine hjob.bind (fun r => ?_)
    split
    · exact Silent.pure _
    · exact sendJobs_steady fuel js

theorem ws63PollReset_steady (fuel : Nat) : Silent Ev.opened (ws63PollReset fuel) := by
  refine opened_unheard.time_silent.bind (fun t0 => Silent.loop (fun s => ?_) fuel _)
  split
  · refine opened_unheard.time_silent.bind (fun t1 => (ws63SendCmddef_steady fuel _).bind (fun r => ?_))
    split
    · exact Silent.pure _
    · refine (opened_unheard.read_silent 32).bind (fun r => ?_)
      cases r with
      | fail e  => exact Silent.pure _
      | data bs =>
        dsimp only
        split <;> exact Silent.pure _
  · exact Silent.pure _

/-! ## What switches the speed -/

/-- A switch to the speed `baud`, if there is one. -/
def switchWord (b : Prop) [Decidable b] (baud : UInt32) : List Sym := if b then [.speed baud.toNat] else []

/-- The handshake frames, and the switch that may follow the last. -/
def handshakeLined (a : Args) : Language Sym :=
  Language.map .byte (plus (word (cmdFrame (handshakeCmd a)))) * word (switchWord a.earlyBaud a.baud)

/-- What listening for the acknowledgement puts on the line: the switch, when it leaves the loop well. -/
def Heard (a : Args) (o : Out (Iter Unit Int)) (e : List Ev) : Prop :=
  (∀ s, o = .ret (.next s) → outputOf Ev.lined e = []) ∧
    (∀ r, o = .ret (.done r) → r = 0 → outputOf Ev.lined e = switchWord a.earlyBaud a.baud) ∧
    outputOf Ev.lined e <+: switchWord a.earlyBaud a.baud

theorem handshakeHear_lined (a : Args) (t0 : Int) (d : Device) (l : List Ev) : Sat (handshakeHear a t0) d l (Heard a) := by
  have hquiet : ∀ {e : List Ev} {i : Iter Unit Int}, outputOf Ev.lined e = [] → (∀ r, i = .done r → r ≠ 0) →
      Heard a (.ret i) e := by
    intro e i he hi
    refine ⟨fun _ _ => he, fun r hr h0 => absurd h0 (hi r (Out.ret.inj hr)), ?_⟩
    rw [he]
    exact List.nil_prefix
  apply Sat.bind_val (time_sat d l)
  rintro t _ ⟨_, rfl⟩
  split
  · exact Sat.pure (hquiet rfl (fun r hr => by cases hr; decide))
  · apply Sat.bind_val (read_sat 32 d _)
    rintro r _ ⟨_, rfl⟩
    match r with
    | .data []       => exact Sat.pure (hquiet rfl (fun r hr => nomatch hr))
    | .fail e        => exact Sat.pure (hquiet rfl (fun r hr => by cases hr; decide))
    | .data (b :: _) =>
      dsimp only
      split
      · split
        · rename_i hearly
          have hword : switchWord a.earlyBaud a.baud = [.speed a.baud.toNat] := if_pos hearly
          apply Sat.bind_val (uartOpen_sat a.baud.toNat d _)
          rintro _ _ rfl
          refine Sat.pure ⟨fun s hs => (nomatch hs), fun r _ _ => ?_, ?_⟩ <;> rw [hword]
          · rfl
          · exact List.prefix_rfl
        · rename_i hearly
          refine Sat.pure ⟨fun s hs => (nomatch hs), fun r _ _ => ?_, List.nil_prefix⟩
          rw [switchWord, if_neg hearly]
          rfl
      · exact Sat.pure (hquiet rfl (fun r hr => nomatch hr))

theorem handshakeLoop_lined (fuel : Nat) (a : Args) :
    Emits Ev.lined (handshakeLoop fuel a) (fun r => r = 0) (handshakeLined a) := by
  have hne : ∃ x, x ∈ Language.map Sym.byte (word (cmdFrame (handshakeCmd a))) * word (switchWord a.earlyBaud a.baud) :=
    mul_nonempty ⟨_, _, word_self _, rfl⟩ ⟨_, word_self _⟩
  have hplus : handshakeLined a = (Language.map Sym.byte (word (cmdFrame (handshakeCmd a))))∗ *
      (Language.map Sym.byte (word (cmdFrame (handshakeCmd a))) * word (switchWord a.earlyBaud a.baud)) := by
    rw [handshakeLined, plus, map_mul, map_kstar, ← mul_self_kstar_comm, mul_assoc]
  have hsend : Emits Ev.lined (ws63SendCmddef fuel (handshakeCmd a)) (fun r => r = 0)
      (Language.map .byte (word (cmdFrame (handshakeCmd a)))) :=
    Emits.lined ((ws63SendCmddef_emits fuel (by rw [handshakeCmd_len]; omega)).mono_good (fun r hr => by omega))
      (ws63SendCmddef_steady fuel _)
  rw [hplus]
  refine Emits.silent_bind (Unheard.time_silent ⟨fun _ => rfl, fun _ => rfl⟩) (fun t0 => ?_)
    (mul_nonempty ⟨[], nil_mem_kstar _⟩ hne)
  refine Emits.loop_then hne (fun _ d l => ?_) fuel ()
  rw [handshakeTurn_eq]
  refine Sat.bind (hsend d l) (fun ret e hsent => ?_) (fun x e hsent => ?_)
  · obtain ⟨h1, h2⟩ := hsent
    by_cases hret : ret = 0
    · rw [if_neg (fun h => h hret)]
      have hframe := h1 ret rfl hret
      refine (handshakeHear_lined a t0 d _).mono (fun o e' heard => ?_)
      obtain ⟨hnext, hdone, hpre⟩ := heard
      refine ⟨fun s hs => ?_, fun r hr h0 => ?_, ?_⟩
      · rw [outputOf_append, hnext s hs, List.append_nil]
        exact hframe
      · rw [outputOf_append, hdone r hr h0]
        exact append_mem_mul hframe (word_self _)
      · rw [outputOf_append]
        exact append_mem_prefixes_mul hframe (mem_prefixes_word.2 hpre)
    · rw [if_pos hret]
      refine Sat.pure ⟨fun s hs => ?_, fun r hr h0 => ?_, ?_⟩
      · cases hs
      · cases hr
        exact absurd h0 (by decide)
      · rw [List.append_nil]
        exact prefixes_mul_left ⟨_, word_self _⟩ h2
  · refine ⟨fun s hs => ?_, fun r hr => ?_, prefixes_mul_left ⟨_, word_self _⟩ hsent.2⟩
    · cases hs
    · cases hr

/-- The frame that announces the later speed, and the switch to it. -/
def switchLined (a : Args) (switch : Bool) : Language Sym :=
  Language.map .byte (switchTrace a switch) * word (switchWord (switch = true ∧ a.laterBaud) a.baud)

theorem switchIf_lined (fuel : Nat) (a : Args) (switch : Bool) :
    Emits Ev.lined (switchIf fuel a switch) (fun r => r = 0) (switchLined a switch) := by
  have hnil : [] ∈ switchLined a false := append_mem_mul (a := []) (b := []) ⟨[], nil_mem_one, rfl⟩ rfl
  unfold switchIf switchBaud
  cases switch with
  | false => exact Emits.pure hnil
  | true =>
    rw [if_pos rfl]
    by_cases hb : a.laterBaud
    · rw [if_pos hb, switchLined, switchTrace, if_pos ⟨rfl, hb⟩, switchWord, if_pos ⟨rfl, hb⟩]
      have hne : ∃ x, x ∈ word [Sym.speed a.baud.toNat] := ⟨_, word_self _⟩
      have hopen : Emits Ev.lined (uartOpen a.baud.toNat) (fun _ => True) (word [Sym.speed a.baud.toNat]) := fun d l => by
        refine (uartOpen_sat a.baud.toNat d l).mono ?_
        rintro o e ⟨u, _, rfl⟩
        exact ⟨fun _ _ _ => rfl, prefixes_of_mem rfl⟩
      have hread : Silent Ev.lined (uartReadUntilMagic fuel) :=
        Silent.lined (sent_unseen.uartReadUntilMagic_silent fuel) (uartReadUntilMagic_steady fuel)
      refine (Emits.lined (ws63SendCmddef_emits fuel (show (8 : Nat) ≤ 1024 by decide))
        (ws63SendCmddef_steady fuel _)).bind (fun r hr => ?_) (fun r hr => ?_) hne
      · rw [if_neg hr]
        refine Emits.silent_bind hread (fun _ => ?_) hne
        refine hopen.then_silent (fun _ _ => ?_) (fun _ h => absurd trivial h)
        exact hread.bind (fun _ => Silent.pure _)
      · rw [if_pos (Classical.not_not.1 hr)]
        exact Refuses.pure (by decide)
    · rw [if_neg hb, switchLined, switchTrace, if_neg (fun h => hb h.2), switchWord, if_neg (fun h => hb h.2)]
      exact Emits.pure (append_mem_mul (a := []) (b := []) ⟨[], nil_mem_one, rfl⟩ rfl)

/-! ## The plan -/

/-- The units that a plan may send for its jobs. -/
def Plan.jobUnits (p : Plan) : Language UInt8 := {u | u ∈ wholeBlk ∨ ∃ j ∈ p.jobs, u = cmdFrame j.cmd}

def Plan.lined (a : Args) (p : Plan) : Language Sym :=
  handshakeLined a * (Language.map .byte wholeBlk∗ * (switchLined a p.switch * Language.map .byte (p.jobUnits∗ * resets)))

/-- **What a plan puts on the line**, whatever the streams hold. -/
theorem runPlan_lined (fuel : Nat) (a : Args) {p : Plan} (hc : ∀ j ∈ p.jobs, j.cmd.len ≤ 1024) :
    Emits Ev.lined (runPlan fuel a p) (fun r => r = 0) (p.lined a) := by
  have hbytes : ∀ {L : Language UInt8}, (∃ x, x ∈ L) → ∃ x, x ∈ Language.map Sym.byte L := fun ⟨x, hx⟩ => ⟨_, x, hx, rfl⟩
  have hreset : ∃ x, x ∈ resets := ⟨[], nil_mem_resets⟩
  have hrest := hbytes (mul_nonempty ⟨[], nil_mem_kstar p.jobUnits⟩ hreset)
  have hswitch : ∃ x, x ∈ switchLined a p.switch :=
    mul_nonempty (hbytes (switchTrace_nonempty a p.switch)) ⟨_, word_self _⟩
  have htail := mul_nonempty hswitch hrest
  have hjobs : Emits Ev.lined (do
      let ret ← sendJobs fuel p.jobs
      if ret ≠ 0 then return ret
      else
        let _ ← ws63PollReset fuel
        return 0) (fun r => r = 0) (Language.map .byte (p.jobUnits∗ * resets)) := by
    refine Emits.lined ?_ ?_
    · refine (sendJobs_emits_in (fun u hu => Or.inl hu) fuel p.jobs (fun j hj => ⟨hc j hj, Or.inr ⟨j, hj, rfl⟩⟩)).bind
        (fun r hr => ?_) (fun r hr => ?_) hreset
      · rw [if_neg (fun h => h hr)]
        exact (ws63PollReset_emits fuel).then_silent (fun _ _ => Silent.pure _) (fun _ h => absurd trivial h)
      · rw [if_pos hr]
        exact Refuses.pure hr
    · refine (sendJobs_steady fuel p.jobs).bind (fun r => ?_)
      split
      · exact Silent.pure _
      · exact (ws63PollReset_steady fuel).bind (fun _ => Silent.pure _)
  refine (handshakeLoop_lined fuel a).bind (fun r hr => ?_) (fun r hr => ?_)
    (mul_nonempty (hbytes ⟨[], nil_mem_kstar _⟩) htail)
  · rw [if_neg (fun h => h hr)]
    refine (Emits.lined (sendPart_emits_blks fuel p.boot) (sendPart_steady fuel p.boot)).bind (fun r hr => ?_)
      (fun r hr => ?_) htail
    · rw [if_neg (fun h => h hr)]
      refine Emits.silent_bind (Silent.lined (sent_unseen.uartReadUntilMagic_silent fuel) (uartReadUntilMagic_steady fuel))
        (fun _ => ?_) htail
      refine (switchIf_lined fuel a p.switch).bind (fun r hr => ?_) (fun r hr => ?_) hrest
      · rw [if_neg (fun h => h hr)]
        exact hjobs
      · rw [if_pos hr]
        exact Refuses.pure hr
    · rw [if_pos hr]
      exact Refuses.pure hr
  · rw [if_pos hr]
    exact Refuses.pure hr

/-- The speed at which a plan makes its transfers after the loaderboot. -/
def Plan.jobBaud (a : Args) (p : Plan) : UInt32 := if p.switch then a.baud else a.handshakeBaud

/-- The bytes of a plan with their speeds: the handshake at 115200 baud, then each part at the speed that the frame before
it has announced. -/
def Plan.paced (a : Args) (p : Plan) : Language (UInt8 × Nat) :=
  atSpeed 115200 (plus (word (frame 0xf0 (le32 a.handshakeBaud ++ [0x08, 0x01, 0x00, 0x00])))) *
    (atSpeed a.handshakeBaud.toNat (wholeBlk∗ *
      if p.switch = true ∧ a.laterBaud then word (frame 0x5a (le32 a.baud ++ [0x08, 0x01, 0x00, 0x00])) else 1) *
      atSpeed (p.jobBaud a).toNat (p.jobUnits∗ * resets))

theorem Paces.switchWord (b : Prop) [Decidable b] (v : Nat) (baud : UInt32) :
    Paces v (word (switchWord b baud)) (if b then baud.toNat else v) 1 := by
  unfold Ws63Flash.switchWord
  split
  · exact Paces.speed v _
  · exact Paces.one v

theorem Args.handshakeBaud_toNat (a : Args) :
    (if a.earlyBaud then a.baud.toNat else 115200) = a.handshakeBaud.toNat := by
  unfold Args.handshakeBaud
  by_cases hlate : a.lateBaud = true
  · rw [if_neg (fun h => absurd (hlate.symm.trans h.1) (by decide)), if_pos hlate]
    rfl
  · rw [if_neg hlate]
    split
    · rfl
    · rename_i hearly
      by_cases hb : a.baud = 115200
      · rw [hb]
        rfl
      · exact absurd ⟨by simpa using hlate, hb⟩ hearly

theorem Plan.jobBaud_toNat (a : Args) (p : Plan) :
    (if p.switch = true ∧ a.laterBaud then a.baud.toNat else a.handshakeBaud.toNat) = (p.jobBaud a).toNat := by
  unfold Plan.jobBaud
  by_cases hs : p.switch = true
  · rw [if_pos hs]
    split
    · rfl
    · rename_i hlater
      unfold Args.handshakeBaud
      by_cases hlate : a.lateBaud = true
      · by_cases hb : a.baud = 115200
        · rw [if_pos hlate, hb]
        · exact absurd ⟨hs, hlate, hb⟩ hlater
      · rw [if_neg hlate]
  · rw [if_neg (fun h => hs h.1), if_neg hs]

/-- **The switches follow the frames.** -/
theorem Plan.lined_paced (a : Args) (p : Plan) : Paces 115200 (p.lined a) (p.jobBaud a).toNat (p.paced a) := by
  have hhand := (Paces.bytes 115200 (plus (word (cmdFrame (handshakeCmd a))))).mul
    (Paces.switchWord a.earlyBaud 115200 a.baud)
  have hboot := Paces.bytes a.handshakeBaud.toNat wholeBlk∗
  have hswitch := (Paces.bytes a.handshakeBaud.toNat (switchTrace a p.switch)).mul
    (Paces.switchWord (p.switch = true ∧ a.laterBaud) a.handshakeBaud.toNat a.baud)
  have hjobs := Paces.bytes (p.jobBaud a).toNat (p.jobUnits∗ * resets)
  rw [a.handshakeBaud_toNat, mul_one, cmdFrame_handshake] at hhand
  rw [p.jobBaud_toNat a, mul_one, switchTrace, cmdFrame_setbaudr] at hswitch
  have hall := hhand.mul (hboot.mul (hswitch.mul hjobs))
  rw [Plan.paced, atSpeed_mul, mul_assoc (atSpeed _ wholeBlk∗)]
  unfold Plan.lined handshakeLined switchLined switchTrace
  rw [cmdFrame_handshake, cmdFrame_setbaudr]
  exact hall

/-! ## The program -/

theorem paced_openings : ∀ (e : List Ev) (v : Nat), (∀ x ∈ e, x = .uartOpen 115200) → paced v e = []
  | [], _, _     => rfl
  | x :: e, v, h => by
    rw [h x List.mem_cons_self]
    exact paced_openings e 115200 (fun y hy => h y (List.mem_cons_of_mem _ hy))

/-- What the line carries in a run `run`: bytes of the plan at its speeds, and 115200 baud at the end. -/
structure Paced (h : Host) (verb : Verb) (a : Args) (v : Nat) (run : Out Int × List Ev) : Prop where
  full : run.1 = .ret 0 → ∃ p, planOf h a verb = .ret (.ok p) ∧ paced v run.2 ∈ p.paced a
  part : paced v run.2 = [] ∨ ∃ p, planOf h a verb = .ret (.ok p) ∧ paced v run.2 ∈ prefixes (p.paced a)
  back : ∀ r, run.1 = .ret r → run.2 = [] ∨ run.2.getLast? = some (.uartOpen 115200)

theorem Paced.refused {h : Host} {verb : Verb} {a : Args} (v : Nat) {r : Int} (hr : r ≠ 0) :
    Paced h verb a v (.ret r, []) where
  full := fun h0 => absurd (Out.ret.inj h0) hr
  part := Or.inl rfl
  back := fun _ _ => Or.inl rfl

theorem onLine_paced (fuel : Nat) (h : Host) (verb : Verb) (a : Args) (d : Device) (v : Nat) :
    Paced h verb a v (onLine fuel h verb a d []) := by
  rcases onLine_events fuel h verb a d with ⟨hret, hopen⟩ | ⟨p, hp, hout, tail, hrun, htail, hback⟩
  · refine ⟨fun h0 => absurd h0 hret, Or.inl (paced_openings _ v hopen), fun r _ => ?_⟩
    rcases List.eq_nil_or_concat' (onLine fuel h verb a d []).2 with hnil | ⟨e, x, he⟩
    · exact Or.inl hnil
    · have hx := hopen x (he ▸ List.mem_append_right e (List.mem_singleton.2 rfl))
      rw [he, hx]
      exact Or.inr List.getLast?_concat
  · obtain ⟨hfull, hpre⟩ := runPlan_lined fuel a (planOf_cmd_len hp) d [.uartOpen 115200]
    have htailNil : ∀ u, pace u (lined tail) = [] := fun u => paced_openings tail u htail
    have hpaced : paced v (onLine fuel h verb a d []).2 = pace 115200 (lined (runPlan fuel a p d [.uartOpen 115200]).2) := by
      rw [hrun, paced]
      show pace 115200 (lined (_ ++ tail)) = _
      rw [lined, outputOf_append, pace_append, htailNil, List.append_nil]
    refine ⟨fun h0 => ⟨p, hp, ?_⟩, Or.inr ⟨p, hp, ?_⟩, fun r hr => Or.inr ?_⟩
    · rw [hpaced]
      exact (p.lined_paced a _ (hfull 0 (hout ▸ h0) rfl)).1
    · rw [hpaced]
      exact (p.lined_paced a).prefixes hpre
    · rw [hrun, hback r hr, ← List.cons_append]
      exact List.getLast?_concat

/-- **Every byte goes out at the speed that the frames before it have announced**: in every run of `main`, the handshake
at 115200 baud, the loaderboot at the speed the handshake names, what follows at the speed the SETBAUDR frame names, if
the verb sends one.  A run that returns leaves the line at 115200 baud, if it has opened it. -/
theorem main_paced (fuel : Nat) (h : Host) (verb : Verb) (a : Args) (d : Device) (v : Nat) :
    let run := main fuel h verb a d []
    (run.1 = .ret 0 → ∃ p, planOf h a verb = .ret (.ok p) ∧ paced v run.2 ∈ p.paced a) ∧
    (paced v run.2 = [] ∨ ∃ p, planOf h a verb = .ret (.ok p) ∧ paced v run.2 ∈ prefixes (p.paced a)) ∧
    (∀ r, run.1 = .ret r → run.2 = [] ∨ run.2.getLast? = some (.uartOpen 115200)) := by
  have hpaced : Paced h verb a v (main fuel h verb a d []) := by
    rw [main_eq]
    split
    · exact Paced.refused v (by decide)
    · split
      · exact Paced.refused v (by decide)
      · exact onLine_paced fuel h verb a d v
  exact ⟨hpaced.full, hpaced.part, hpaced.back⟩

/-! ## From the command line -/

theorem atSpeed_speeds {v : Nat} {L : Language UInt8} {w : List (UInt8 × Nat)} (hw : w ∈ atSpeed v L) : ∀ y ∈ w, y.2 = v := by
  obtain ⟨u, _, rfl⟩ := hw
  intro y hy
  obtain ⟨b, _, rfl⟩ := List.mem_map.1 hy
  rfl

/-- A plan's bytes go out at 115200 baud or at the one other speed. -/
theorem Plan.paced_speeds {a : Args} {p : Plan} {w : List (UInt8 × Nat)} (hw : w ∈ prefixes (p.paced a)) :
    ∀ y ∈ w, y.2 = 115200 ∨ y.2 = a.baud.toNat := by
  have hhand : a.handshakeBaud.toNat = 115200 ∨ a.handshakeBaud.toNat = a.baud.toNat := by
    unfold Args.handshakeBaud
    split
    · exact Or.inl rfl
    · exact Or.inr rfl
  have hjob : (p.jobBaud a).toNat = 115200 ∨ (p.jobBaud a).toNat = a.baud.toNat := by
    unfold Plan.jobBaud
    split
    · exact Or.inr rfl
    · exact hhand
  obtain ⟨x, hx, hpre⟩ := hw
  intro y hy
  obtain ⟨x₁, h₁, x₂, h₂, rfl⟩ := mem_mul.1 hx
  obtain ⟨x₃, h₃, x₄, h₄, rfl⟩ := mem_mul.1 h₂
  rcases List.mem_append.1 (hpre.subset hy) with hy | hy
  · exact Or.inl (atSpeed_speeds h₁ y hy)
  · rcases List.mem_append.1 hy with hy | hy
    · rw [atSpeed_speeds h₃ y hy]
      exact hhand
    · rw [atSpeed_speeds h₄ y hy]
      exact hjob

/-- What a call gives satisfies `P`, if it does not end the program. -/
def Gives {σ : Type} (P : σ → Prop) (r : Except Int σ) : Prop := ∀ t, r = .ok t → P t

/-- What every call keeps, the line keeps. -/
theorem argpParse_keeps {ο σ : Type} {P : σ → Prop} {parse_opt : Key ο → σ → ArgpProc (Except Int σ)} :
    ∀ (calls : List (ArgpCall ο)) (s : σ),
      (∀ key, .ok key ∈ calls → ∀ s, P s → Returns (Noted.erase (parse_opt key s)) (Gives P)) → P s →
        Returns (Noted.erase (argpParse parse_opt calls s)) (Gives P)
  | [], s, _, hs                     => Returns.pure (fun t ht => by cases ht; exact hs)
  | .error status :: calls, s, _, _  => Returns.pure (fun t ht => nomatch ht)
  | .ok key :: calls, s, hstep, hs   => by
    rw [argpParse, Noted.erase_bind]
    refine (hstep key List.mem_cons_self s hs).bind (fun r hr => ?_)
    cases r with
    | error status => exact Returns.pure (fun t ht => nomatch ht)
    | ok t =>
      exact argpParse_keeps calls t (fun k hk => hstep k (List.mem_cons_of_mem _ hk)) (hr t rfl)

theorem not_mem_argCalls {ο : Type} {o : ο} : ∀ (as : List CStr) (arg_num : Nat), .ok (.opt o) ∉ argCalls arg_num as
  | [], _, h       => nomatch List.mem_singleton.1 h
  | _ :: as, n, h  => by
    rcases List.mem_cons.1 h with h | h
    · exact nomatch h
    · exact not_mem_argCalls as (n + 1) h

theorem mem_argpCalls_opt {ο : Type} {o : ο} {line : List (Word ο)} (h : .ok (.opt o) ∈ argpCalls line) : .opt o ∈ line := by
  rcases List.mem_append.1 h with h | h
  · obtain ⟨w, hw, hopt⟩ := List.mem_filterMap.1 h
    cases w with
    | opt o'     => cases hopt; exact hw
    | own status => exact nomatch hopt
    | arg arg    => exact nomatch hopt
  · exact absurd h (not_mem_argCalls _ _)

/-- The speed is the one the program starts with, or one that an option names and the table has. -/
def Chosen (b : Build) (line : List (Word FlashOpt)) (baud : Int) : Prop :=
  baud = 115200 ∨ ∃ arg, .opt (.baud (some arg)) ∈ line ∧ baud = atoi arg.bytes ∧ b.speedRefused baud = false

theorem flashLine_baud (b : Build) (line : List (Word FlashOpt)) :
    Returns (Noted.erase (flashLine b line)) (Gives (fun s => Chosen b line s.rest.baud)) := by
  refine argpParse_keeps (argpCalls line) _ (fun key hkey s hs => ?_) (Or.inl rfl)
  cases key with
  | opt o =>
    refine Returns.pure (fun t ht => ?_)
    cases o with
    | lateBaud  => cases ht; exact hs
    | verbose   => cases ht; exact hs
    | verb verb =>
      have ht : setVerb verb s = .ok t := ht
      unfold setVerb at ht
      split at ht
      · cases ht
      · cases ht
        exact hs
    | baud arg  =>
      cases arg with
      | none => cases ht
      | some arg =>
        rw [flashOpt] at ht
        split at ht
        · cases ht
        · rename_i href
          cases ht
          exact Or.inr ⟨arg, mem_argpCalls_opt hkey, rfl, by simpa using href⟩
  | arg arg_num arg =>
    have hstore : Returns (Noted.erase (keyArg argRefused arg_num arg s)) (Gives (fun t => Chosen b line t.rest.baud)) := by
      unfold keyArg
      rw [Noted.erase_ite]
      split
      · exact Returns.pure (fun t ht => by cases ht)
      · rw [Noted.erase_bind]
        refine (Returns.any _).bind (fun _ _ => ?_)
        rw [Noted.erase_ite]
        split
        · exact Returns.pure (fun t ht => by cases ht; exact hs)
        · intro d l r hr
          cases hr
    exact hstore
  | fin arg_num =>
    refine Returns.pure (fun t ht => ?_)
    have ht : keyEnd endRefused arg_num s = .ok t := ht
    unfold keyEnd at ht
    split at ht
    · cases ht
    · cases ht
      exact hs

theorem Build.mem_availBaud {b : Build} {baud : Int} (hchecked : b.speedChecked = true) (h : b.speedRefused baud = false) :
    ∃ n ∈ b.availBaud, (n : Int) = baud := by
  unfold Build.speedRefused at h
  by_contra hno
  simp only [hchecked, decide_eq_false_iff_not, true_and] at h
  exact h (fun n hn heq => hno ⟨n, hn, heq⟩)

theorem Build.availBaud_lt {b : Build} {n : Nat} (h : n ∈ b.availBaud) : n < 2 ^ 32 := by
  have hall : ∀ n ∈ [115200, 230400, 460800, 500000, 576000, 921600, 1000000, 1152000, 1500000, 2000000], n < 2 ^ 32 := by
    decide
  apply hall
  rcases List.mem_cons.1 h with rfl | h
  · exact List.mem_cons_self
  · exact List.mem_cons_of_mem _ (List.mem_filter.1 h).1

/-- The speed of a line, as the program passes it on. -/
theorem Chosen.toNat {b : Build} {line : List (Word FlashOpt)} {baud : Int} (h : Chosen b line baud) :
    (UInt32.ofInt baud).toNat = 115200 ∨ ∃ arg, .opt (.baud (some arg)) ∈ line ∧
      (UInt32.ofInt baud).toNat = (UInt32.ofInt (atoi arg.bytes)).toNat ∧
      (b.speedChecked = true → (UInt32.ofInt baud).toNat ∈ b.availBaud) := by
  rcases h with rfl | ⟨arg, hmem, rfl, href⟩
  · exact Or.inl rfl
  · refine Or.inr ⟨arg, hmem, rfl, fun hchecked => ?_⟩
    obtain ⟨n, hn, heq⟩ := Build.mem_availBaud hchecked href
    have hlt := Build.availBaud_lt hn
    have hnat : (UInt32.ofInt (n : Int)).toNat = n := by
      rw [UInt32.ofInt, UInt32.toNat_ofNat']
      omega
    rwa [← heq, hnat]

/-- **No byte goes out at a speed that was not chosen**: in every run of the program, from any command line, each byte is
sent at 115200 baud or at the speed that a `-b` option names, which the table has where the build checks it; and a run
that returns has put the line back to 115200 baud. -/
theorem ws63flash_paced (fuel : Nat) (h : Host) (b : Build) (line : List (Word FlashOpt)) (d : Device) (v : Nat) :
    let run := ws63flash fuel h b line d []
    (∀ y ∈ paced v run.2, y.2 = 115200 ∨ ∃ arg, .opt (.baud (some arg)) ∈ line ∧
      y.2 = (UInt32.ofInt (atoi arg.bytes)).toNat ∧ (b.speedChecked = true → y.2 ∈ b.availBaud)) ∧
    (∀ r, run.1 = .ret r → run.2 = [] ∨ run.2.getLast? = some (.uartOpen 115200)) := by
  have hbaud := flashLine_baud b line () []
  unfold ws63flash
  cases hline : (Noted.erase (flashLine b line) () []).1 with
  | stop x => exact ⟨fun y hy => (nomatch hy), fun r hr => nomatch hr⟩
  | ret res =>
    cases res with
    | error status => exact ⟨fun y hy => (nomatch hy), fun r _ => Or.inl rfl⟩
    | ok arguments =>
      have hchosen := (hbaud _ hline arguments rfl).toNat
      dsimp only
      cases hverb : arguments.verb with
      | none => exact ⟨fun y hy => (nomatch hy), fun r _ => Or.inl rfl⟩
      | some verb =>
        cases hscan : scanSlots arguments.args with
        | none => exact ⟨fun y hy => (nomatch hy), fun r hr => nomatch hr⟩
        | some args =>
          dsimp only
          split
          · exact ⟨fun y hy => (nomatch hy), fun r _ => Or.inl rfl⟩
          · have hpaced := onLine_paced fuel h verb ⟨args, UInt32.ofInt arguments.rest.baud, arguments.rest.lateBaud⟩ d v
            refine ⟨fun y hy => ?_, hpaced.back⟩
            rcases hpaced.part with hnil | ⟨p, _, hpre⟩
            · have hnone : y ∈ ([] : List (UInt8 × Nat)) := hnil ▸ hy
              exact nomatch hnone
            · rcases Plan.paced_speeds hpre y hy with h1 | h1
              · exact Or.inl h1
              · rw [h1]
                exact hchosen

end Ws63Flash
