import Ws63Flash.Receiver
import Ws63Flash.YmodemTrace
/-!
# SenderLog — the sender between two answers

A transfer that succeeds has sent block 0, each data block, EOT and the empty block until a wait ended on an ACK, one
after the other (`ymodemXfer_log`).  `Acked u e` says this of `u` and the events `e`: every turn but the last ended on
a NAK or on its timeout.
-/
namespace Ws63Flash

open Octets Proc

/-- What the event says of a wait for an answer: its result. -/
def Ev.waited : Ev → List Int
  | .ret .ymodemWaitAck r => [r]
  | _                     => []

/-- The results of the waits of a run. -/
abbrev waits (e : List Ev) : List Int := outputOf Ev.waited e

theorem waits_append (e e' : List Ev) : waits (e ++ e') = waits e ++ waits e' := outputOf_append _ e e'

theorem waited_unheard : Unheard Ev.waited := ⟨fun _ => rfl, fun _ => rfl⟩

theorem waited_unwritten : Unwritten Ev.waited := ⟨fun _ => rfl, fun _ => rfl⟩

/-- In the events `e` the sender writes `u`, reads no answer, and ends no wait for one. -/
structure Sends (u : List UInt8) (e : List Ev) : Prop where
  bytes : written e = u
  unanswered : answers (received e) = []
  waiting : waits e = []

theorem Sends.append {u v : List UInt8} {e e' : List Ev} (h : Sends u e) (h' : Sends v e') :
    Sends (u ++ v) (e ++ e') where
  bytes := by rw [written_append, h.bytes, h'.bytes]
  unanswered := by rw [received_append, answers_append, h.unanswered, h'.unanswered, List.append_nil]
  waiting := by rw [waits_append, h.waiting, h'.waiting, List.append_nil]

theorem Sends.nil : Sends [] [] := ⟨rfl, rfl, rfl⟩

theorem Sends.time (t : Int) : Sends [] [.time t] := ⟨rfl, rfl, rfl⟩

theorem Sends.read {bs : List UInt8} (h : answers bs = []) : Sends [] [.read (.data bs)] where
  bytes := rfl
  unanswered := by rw [received_cons, received_nil, List.append_nil]; exact h
  waiting := rfl

/-- The end of a wait on an ACK. -/
def ackEnd : List Ev := [.read (.data [ACK]), .ret .ymodemWaitAck 0]

/-- The end of a wait that the sender answers by sending again: on a NAK, or on its timeout. -/
inductive Refused : List Ev → Prop where
  | nak : Refused [.read (.data [NAK]), .ret .ymodemWaitAck EAGAIN.code]
  | late (t : Int) : Refused [.time t, .ret .ymodemWaitAck EAGAIN.code]

/-- `u` sent until a wait ends on an ACK. -/
inductive Acked (u : List UInt8) : List Ev → Prop where
  | last {e : List Ev} (h : Sends u e) : Acked u (e ++ ackEnd)
  | again {e e₁ e' : List Ev} (h : Sends u e) (he : Refused e₁) (h' : Acked u e') : Acked u (e ++ e₁ ++ e')

theorem Acked.prepend {u : List UInt8} {e e' : List Ev} (he : Sends [] e) (h : Acked u e') : Acked u (e ++ e') := by
  cases h with
  | last h =>
    rw [← List.append_assoc]
    exact .last (he.append h)
  | again h hr h' =>
    rw [← List.append_assoc, ← List.append_assoc]
    exact .again (he.append h) hr h'

theorem Refused.written_nil {e : List Ev} (h : Refused e) : written e = [] := by cases h <;> rfl

theorem Refused.waits_eq {e : List Ev} (h : Refused e) : waits e = [(EAGAIN.code : Int)] := by cases h <;> rfl

/-- Sending until an ACK writes `u` over and over. -/
theorem Acked.written_eq {u : List UInt8} {e : List Ev} (h : Acked u e) :
    ∃ us : List (List UInt8), written e = us.flatten ∧ ∀ v ∈ us, v = u := by
  induction h with
  | last h =>
    refine ⟨[u], ?_, fun v hv => List.mem_singleton.1 hv⟩
    rw [written_append, h.bytes]
    rfl
  | again h he _ ih =>
    obtain ⟨us, hus, hall⟩ := ih
    refine ⟨u :: us, ?_, fun v hv => (List.mem_cons.1 hv).elim id (hall v)⟩
    rw [written_append, written_append, h.bytes, he.written_nil, hus, List.append_nil, List.flatten_cons]

theorem Acked.ends {u : List UInt8} {e : List Ev} (h : Acked u e) : ∃ e₀, e = e₀ ++ ackEnd := by
  induction h with
  | last h => exact ⟨_, rfl⟩
  | again h _ _ ih =>
    obtain ⟨e₀, rfl⟩ := ih
    exact ⟨_, (List.append_assoc _ _ _).symm⟩

/-- The waits of a run that ended with an ACK. -/
def acked (e : List Ev) : Nat := (waits e).count 0

@[simp] theorem acked_append (e e' : List Ev) : acked (e ++ e') = acked e + acked e' := by
  rw [acked, waits_append, List.count_append]
  rfl

theorem Sends.acked_eq {u : List UInt8} {e : List Ev} (h : Sends u e) : acked e = 0 := by rw [acked, h.waiting]; rfl

theorem Acked.acked_eq {u : List UInt8} {e : List Ev} (h : Acked u e) : acked e = 1 := by
  induction h with
  | last h => rw [acked_append, h.acked_eq]; rfl
  | again h he _ ih =>
    have hr : acked _ = 0 := congrArg (List.count 0) he.waits_eq
    rw [acked_append, acked_append, h.acked_eq, hr, ih]

/-- **A wait for an answer** reads none until its end. -/
theorem ymodemWaitAck_log (fuel : Nat) (d : Device) (l : List Ev) :
    Sat (ymodemWaitAck fuel) d l (fun o e => ∀ r, o = .ret r → ¬ r < 0 → ∃ e₁ e₂, e = e₁ ++ e₂ ∧ Sends [] e₁ ∧
      (r = 0 ∧ e₂ = ackEnd ∨ 0 < r ∧ Refused e₂)) := by
  refine called_sat (Sat.bind_val (time_sat _ _) ?_)
  rintro t0 _ ⟨_, rfl⟩
  refine Sat.loop (fun _ e => Sends [] e) (fun _ e he => ?_) (fun _ _ _ => nofun) fuel () Sends.nil
  apply Sat.bind_val (read_sat 1 _ _)
  rintro r _ ⟨hr, rfl⟩
  have hle : ∀ bs, r = .data bs → bs.length ≤ 1 := fun bs h => d.read_le _ 1 bs (hr ▸ h)
  clear hr
  match r with
  | .data []        => exact Sat.pure (he.append (Sends.read rfl))
  | .fail e'        =>
    refine Sat.pure (fun r hr hneg => ?_)
    cases hr
    exact absurd e'.neg_lt hneg
  | .data (cc :: bs) =>
    obtain rfl : bs = [] := List.eq_nil_of_length_eq_zero (by simpa using hle _ rfl)
    dsimp only
    split
    · rename_i hcc
      rw [hcc]
      refine Sat.pure (fun r hr _ => ?_)
      cases hr
      exact ⟨[Ev.time t0] ++ e, ackEnd, by simp [ackEnd], (Sends.time t0).append he, Or.inl ⟨rfl, rfl⟩⟩
    · rename_i hA
      split
      · rename_i hcc
        rw [hcc]
        refine Sat.pure (fun r hr _ => ?_)
        cases hr
        exact ⟨[Ev.time t0] ++ e, _, by simp, (Sends.time t0).append he, Or.inr ⟨by decide, .nak⟩⟩
      · rename_i hN
        have hstray : Sends [] (e ++ [.read (.data [cc])]) :=
          he.append (Sends.read (answers_stray [] [] hA hN))
        apply Sat.bind_val (time_sat _ _)
        rintro t _ ⟨_, rfl⟩
        split
        · refine Sat.pure (fun r hr _ => ?_)
          cases hr
          exact ⟨[Ev.time t0] ++ (e ++ [.read (.data [cc])]), _, by simp, (Sends.time t0).append hstray,
            Or.inr ⟨by decide, .late t⟩⟩
        · apply Sat.pure
          have := hstray.append (Sends.time t)
          simpa using this

/-- One turn: `u` is sent, and the wait leads on to another turn, or out of the loop with an ACK or a failure. -/
def Turn (u : List UInt8) : Out (Iter Unit Int) → List Ev → Prop
  | .ret (.next _), e => ∃ e₁ e₂, e = e₁ ++ e₂ ∧ Sends u e₁ ∧ Refused e₂
  | .ret (.done r), e => ¬ r < 0 → ∃ e₁, e = e₁ ++ ackEnd ∧ Sends u e₁
  | .stop _, _        => True

theorem Turn.prepend {u v : List UInt8} {o : Out (Iter Unit Int)} {e e' : List Ev} (he : Sends u e) (h : Turn v o e') :
    Turn (u ++ v) o (e ++ e') := by
  rcases o with (_ | r) | x
  · obtain ⟨e₁, e₂, rfl, hs, hr⟩ := h
    exact ⟨e ++ e₁, e₂, (List.append_assoc _ _ _).symm, he.append hs, hr⟩
  · intro hneg
    obtain ⟨e₁, rfl, hs⟩ := h hneg
    exact ⟨e ++ e₁, (List.append_assoc _ _ _).symm, he.append hs⟩
  · trivial

theorem answer_log (fuel : Nat) (d : Device) (l : List Ev) : Sat (do
    let ret ← ymodemWaitAck fuel
    if ret < 0 then return (Iter.done ret : Iter Unit Int)
    else if ret > 0 then return .next ()
    else return .done 0) d l (Turn []) := by
  refine Sat.bind (ymodemWaitAck_log fuel d l) (fun r e he => ?_) (fun _ _ _ => trivial)
  split
  · rename_i hr
    exact Sat.pure (fun h => absurd hr h)
  · rename_i hr
    obtain ⟨e₁, e₂, rfl, hs, h⟩ := he r rfl hr
    split
    · rename_i hpos
      refine Sat.pure ⟨e₁, e₂, List.append_nil _, hs, ?_⟩
      rcases h with ⟨rfl, _⟩ | ⟨_, h⟩
      · exact absurd hpos (by decide)
      · exact h
    · rename_i hpos
      refine Sat.pure (fun _ => ⟨e₁, ?_, hs⟩)
      rcases h with ⟨_, rfl⟩ | ⟨h, _⟩
      · exact List.append_nil _
      · exact absurd h hpos

/-- **A loop that sends `u` on every turn** and asks for an answer. -/
theorem turns_log {u : List UInt8} {body : Unit → Tty (Iter Unit Int)} (h : ∀ d l, Sat (body ()) d l (Turn u))
    (fuel : Nat) (d : Device) (l : List Ev) :
    Sat (Proc.loop body fuel ()) d l (fun o e => ∀ r, o = .ret r → ¬ r < 0 → Acked u e) := by
  -- before a turn, what ends the sending still ends it with the turns already made
  refine Sat.loop (fun _ e => ∀ e', Acked u e' → Acked u (e ++ e')) (fun _ e he => ?_) (fun _ _ _ => nofun) fuel ()
    (fun _ he' => he')
  refine (h d (l ++ e)).mono (fun o e' ho => ?_)
  rcases o with (_ | r) | x
  · intro e'' h''
    obtain ⟨e₁, e₂, rfl, hs, hr⟩ := ho
    rw [List.append_assoc]
    exact he _ (.again hs hr h'')
  · intro r' hr' hneg
    cases hr'
    obtain ⟨e₁, rfl, hs⟩ := ho hneg
    exact he _ (.last hs)
  · exact nofun

theorem ymodemBlkTimedXmit_log (fuel : Nat) (blk : List UInt8) (d : Device) (l : List Ev) :
    Sat (ymodemBlkTimedXmit fuel blk) d l (fun o e => ∀ r, o = .ret r → ¬ r < 0 → Acked blk e) := by
  apply Sat.bind_val (time_sat d l)
  rintro t0 _ ⟨_, rfl⟩
  refine (turns_log (u := blk) (fun d l => ?_) fuel d _).mono
    (fun o e h r hr hneg => (h r hr hneg).prepend (Sends.time t0))
  apply Sat.bind_val (time_sat d l)
  rintro t _ ⟨_, rfl⟩
  split
  · exact Sat.pure (fun hneg => absurd ETIMEDOUT.neg_lt hneg)
  refine Sat.bind ((writeAll_sat fuel blk d _).and (waited_unwritten.writeAll_silent fuel blk d _)) ?_
    (fun _ _ _ => trivial)
  rintro ret e ⟨⟨hret, _, hrecv, _⟩, hwait⟩
  rcases hret ret rfl with ⟨rfl, hw⟩ | hneg
  · have hs : Sends blk ([.time t] ++ e) :=
      (Sends.time t).append ⟨hw, by rw [hrecv, answers_nil], hwait⟩
    rw [if_neg (by decide)]
    refine (answer_log fuel d _).mono (fun o e' h => ?_)
    have := h.prepend hs
    rwa [List.append_nil, List.append_assoc] at this
  · rw [if_pos hneg]
    exact Sat.pure (fun h => absurd hneg h)

theorem xferEot_log (fuel : Nat) (d : Device) (l : List Ev) :
    Sat (xferEot fuel) d l (fun o e => ∀ r, o = .ret r → ¬ r < 0 → Acked [EOT] e) := by
  refine turns_log (fun d l => ?_) fuel d l
  refine Sat.bind (write_sat [EOT] (List.cons_ne_nil _ _) d l) ?_ (fun _ _ _ => trivial)
  rintro a e (⟨k, h0, hk, ha, rfl⟩ | ⟨x, ha, rfl⟩) <;> cases ha
  · have hk1 : k = 1 := by simp only [List.length_cons, List.length_nil] at hk; omega
    subst hk1
    have hs : Sends [EOT] [.write ([EOT].take 1)] := ⟨rfl, rfl, rfl⟩
    exact (answer_log fuel d _).mono (fun o e' h => h.prepend hs)
  · exact Sat.pure (fun hneg => absurd x.neg_lt hneg)

/-! ## The session -/

/-- Block `i` of a session: the data blocks follow block 0. -/
def blkAt (fn : CStr) (len : Nat) (data : List UInt8) : Nat → List UInt8
  | 0     => blk0 fn len
  | i + 1 => dataBlk (i + 1) (slice data (1024 * i) 1024)

/-- The events up to the ACK that the sender takes for block `i`: before block 0 it writes nothing and waits for no
answer. -/
inductive AckedTo (fn : CStr) (len : Nat) (data : List UInt8) : Nat → List Ev → Prop where
  | first {e e' : List Ev} (hw : written e = []) (hr : waits e = []) (h : Acked (blkAt fn len data 0) e') :
    AckedTo fn len data 0 (e ++ e')
  | next {i : Nat} {e e' : List Ev} (h : AckedTo fn len data i e) (h' : Acked (blkAt fn len data (i + 1)) e') :
    AckedTo fn len data (i + 1) (e ++ e')

section

variable {fn : CStr} {len : Nat} {data : List UInt8} {i : Nat} {e : List Ev}

theorem AckedTo.acked_eq (h : AckedTo fn len data i e) : acked e = i + 1 := by
  induction h with
  | first _ hr h =>
    have h0 : acked _ = 0 := congrArg (List.count 0) hr
    rw [acked_append, h0, h.acked_eq]
  | next _ h' ih => rw [acked_append, ih, h'.acked_eq]

theorem AckedTo.ends (h : AckedTo fn len data i e) : ∃ e₀, e = e₀ ++ ackEnd := by
  cases h with
  | first _ _ h =>
    obtain ⟨e₀, rfl⟩ := h.ends
    exact ⟨_, (List.append_assoc _ _ _).symm⟩
  | next _ h =>
    obtain ⟨e₀, rfl⟩ := h.ends
    exact ⟨_, (List.append_assoc _ _ _).symm⟩

/-- The events up to the ACK for an earlier block come first. -/
theorem AckedTo.earlier {n : Nat} (h : AckedTo fn len data n e) (hi : i ≤ n) :
    ∃ e₁, e₁ <+: e ∧ AckedTo fn len data i e₁ := by
  induction h with
  | first hw hr h =>
    obtain rfl := Nat.le_zero.1 hi
    exact ⟨_, List.prefix_rfl, .first hw hr h⟩
  | next h h' ih =>
    rcases Nat.lt_or_eq_of_le hi with hlt | rfl
    · obtain ⟨e₁, hpre, h₁⟩ := ih (Nat.le_of_lt_succ hlt)
      exact ⟨e₁, hpre.trans (List.prefix_append _ _), h₁⟩
    · exact ⟨_, List.prefix_rfl, .next h h'⟩

end

/-- A run that ends with the taking of an ACK is told by the number of ACKs taken. -/
theorem ackEnd_unique {e e₁ e₂ : List Ev} (h₁ : e₁ ++ [.ret .ymodemWaitAck 0] <+: e)
    (h₂ : e₂ ++ [.ret .ymodemWaitAck 0] <+: e) (h : acked e₁ = acked e₂) : e₁ = e₂ := by
  have hlt : ∀ a b : List Ev, a ++ [.ret .ymodemWaitAck 0] <+: b ++ [.ret .ymodemWaitAck 0] → acked a = acked b →
      a = b := by
    intro a b hpre hab
    rcases List.prefix_concat_iff.1 hpre with heq | hp
    · exact List.append_cancel_right heq
    · obtain ⟨c, rfl⟩ := hp
      rw [acked_append, acked_append] at hab
      have h1 : acked [.ret .ymodemWaitAck 0] = 1 := rfl
      omega
  rcases List.prefix_or_prefix_of_prefix h₁ h₂ with h' | h'
  · exact hlt e₁ e₂ h' h
  · exact (hlt e₂ e₁ h' h.symm).symm

/-- **The data loop**, from the ACK of block 0 on. -/
theorem xferData_log {fn : CStr} {len : Nat} {f : List UInt8} {e₀ : List Ev} (h0 : AckedTo fn len (f.take len) 0 e₀)
    (fuel : Nat) (d : Device) (l : List Ev) :
    Sat (xferData fuel len f) d l (fun o e => o = .ret 0 → AckedTo fn len (f.take len) (totalBlk len) (e₀ ++ e)) := by
  rw [xferData_eq]
  refine Sat.loop (fun s e => ∃ i, i ≤ totalBlk len ∧ s.1 = i + 1 ∧ (i < totalBlk len → s.2 = f.drop (1024 * i)) ∧
      AckedTo fn len (f.take len) i (e₀ ++ e)) ?_ (fun _ _ _ => nofun) fuel (1, f)
    ⟨0, Nat.zero_le _, rfl, fun _ => rfl, by rwa [List.append_nil]⟩
  rintro ⟨n, f'⟩ e ⟨i, hi, rfl, hf', hto⟩
  dsimp only at hf' ⊢
  split
  · rename_i hlt
    have hit : i < totalBlk len := by omega
    rw [hf' hit, take_rlen hit]
    split
    · exact Sat.pure (fun h => absurd h (by decide))
    refine Sat.bind (ymodemBlkTimedXmit_log fuel _ d _) (fun r e' h => ?_) (fun _ _ _ => nofun)
    split
    · rename_i hr
      exact Sat.pure (fun h => absurd (Out.ret.inj h) (Int.ne_of_lt hr))
    · rename_i hr
      refine Sat.pure ⟨i + 1, hit, rfl, fun hn => ?_, ?_⟩
      · rw [if_neg (Nat.ne_of_lt hn), List.drop_drop, Nat.mul_add_one]
      · rw [List.append_nil, ← List.append_assoc]
        exact .next hto (h r rfl hr)
  · have hall : i = totalBlk len := by omega
    refine Sat.pure (fun _ => ?_)
    rw [List.append_nil, ← hall]
    exact hto

/-- **A transfer that succeeds** has had an ACK taken for every block, for EOT and for the empty block, in this order. -/
theorem ymodemXfer_log (fuel len : Nat) (f : List UInt8) (fn : CStr) (d : Device) (l : List Ev) :
    Sat (ymodemXfer fuel f fn len) d l (fun o e => o = .ret EXIT_SUCCESS → ∃ e₁ e₂ e₃,
      e = e₁ ++ e₂ ++ e₃ ++ [.ret .ymodemXfer EXIT_SUCCESS] ∧ AckedTo fn len (f.take len) (totalBlk len) e₁ ∧
      Acked [EOT] e₂ ∧ Acked blkEnd e₃) := by
  have hbad : ∀ {r : Int} {P : Prop}, r < 0 → Out.ret r = .ret EXIT_SUCCESS → P := fun hr h =>
    absurd (Out.ret.inj h) (Int.ne_of_lt hr)
  refine called_sat (Sat.bind ((sent_unseen.waitC_silent fuel d l).and (waited_unheard.waitC_silent fuel d l)) ?_
    (fun _ _ _ => nofun))
  rintro ret e ⟨hw, hr⟩
  split
  · rename_i h
    exact Sat.pure (hbad h)
  refine Sat.bind (ymodemBlkTimedXmit_log fuel _ d _) (fun ret e₀ h0 => ?_) (fun _ _ _ => nofun)
  split
  · rename_i h
    exact Sat.pure (hbad h)
  rename_i hret
  have hto : AckedTo fn len (f.take len) 0 (e ++ e₀) := .first hw hr (h0 ret rfl hret)
  refine Sat.bind (xferData_log hto fuel d _) (fun ret e₁ h1 => ?_) (fun _ _ _ => nofun)
  split
  · rename_i h
    exact Sat.pure (fun heq => absurd (Out.ret.inj heq) h)
  rename_i hret
  replace h1 := h1 (by rw [Classical.not_not.1 hret])
  refine Sat.bind (xferEot_log fuel d _) (fun ret e₂ h2 => ?_) (fun _ _ _ => nofun)
  split
  · rename_i h
    exact Sat.pure (hbad h)
  rename_i hret
  replace h2 := h2 ret rfl hret
  refine Sat.bind (ymodemBlkTimedXmit_log fuel _ d _) (fun ret e₃ h3 => ?_) (fun _ _ _ => nofun)
  split
  · rename_i h
    exact Sat.pure (hbad h)
  rename_i hret
  replace h3 := h3 ret rfl hret
  exact Sat.pure (fun _ => ⟨e ++ e₀ ++ e₁, e₂, e₃, by simp only [List.append_assoc, List.nil_append], h1, h2, h3⟩)

end Ws63Flash
