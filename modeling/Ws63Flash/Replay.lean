import Ws63Flash.SenderLog
/-!
# Replay — a line that replays a script of events

`replay script` answers the reads and the looks at the clock as the events of the script say, and takes every write
whole; a session can be followed on it event by event, the blocks left as they are.
-/
namespace Ws63Flash

open Octets Proc

def replay (script : List Ev) : Device where
  read := fun l n => match script.drop l.length with
    | .read (.data bs) :: _ => .data (bs.take n)
    | _                     => .data []
  write := fun _ bs => .wrote bs.length
  time := fun l => match script.drop l.length with
    | .time t :: _ => t
    | _            => 0
  read_le := by
    intro l n bs h
    split at h
    · exact read_part h
    · cases h
      exact Nat.zero_le _
  write_le := fun _ _ _ => wrote_whole

theorem drop_script (pre post : List Ev) (x : Ev) : (pre ++ [x] ++ post).drop pre.length = x :: post := by
  rw [List.append_assoc, List.drop_left]
  rfl

theorem read_plays {n : Nat} {bs : List UInt8} (h : bs.length ≤ n) :
    Replays replay (read n) [.read (.data bs)] (.ret (.data bs)) := by
  intro pre post
  have hr : (replay (pre ++ [.read (.data bs)] ++ post)).read pre n = .data bs := by
    simp only [replay, drop_script, List.take_of_length_le h]
  simp only [read, act, hr]

theorem time_plays (t : Int) : Replays replay time [.time t] (.ret t) := by
  intro pre post
  have ht : (replay (pre ++ [.time t] ++ post)).time pre = t := by
    simp only [replay, drop_script]
  simp only [time, act, ht]

theorem write_plays (bs : List UInt8) : Replays replay (write bs) [.write bs] (.ret (.wrote bs.length)) := by
  intro pre post
  have hw : (replay (pre ++ [.write bs] ++ post)).write pre bs = .wrote bs.length := rfl
  simp only [write, act, hw, List.take_length]

theorem mark_plays (f : Callee) (r : Int) : Replays replay (mark f r) [.ret f r] (.ret ()) := fun _ _ => rfl

theorem called_plays {f : Callee} {m : Tty Int} {e : List Ev} {r : Int} (h : Replays replay m e (.ret r)) :
    Replays replay (called f m) (e ++ [.ret f r]) (.ret r) := h.bind ((mark_plays f r).then (Replays.pure r))

theorem writeAll_plays (n : Nat) {buf : List UInt8} (hb : buf ≠ []) :
    Replays replay (writeAll (n + 2) buf) [.write buf] (.ret 0) := by
  have hpos : 0 < buf.length := List.length_pos_iff.2 hb
  refine Replays.loop_next (u := buf.length) (e := [Ev.write buf]) (f := []) ?_ (Replays.loop_done ?_)
  · rw [if_pos hpos, List.drop_zero]
    apply (write_plays buf).then
    dsimp only
    rw [Nat.zero_add]
    exact Replays.pure _
  · rw [if_neg (Nat.lt_irrefl _)]
    exact Replays.pure _

/-! ## An idle line -/

section

variable {bwd ans : List UInt8} {r r' : Rx} {u : List UInt8}

theorem sees_idle {x : Ev} (hg : x.got = []) (hs : x.sent = []) : Sys.Sees x ⟨[], bwd, r⟩ ⟨[], bwd, r⟩ := by
  have h : Sys.Sees x ⟨[], x.got ++ bwd, r⟩ ⟨[] ++ x.sent, bwd, r⟩ := .mk
  rwa [hg, hs] at h

theorem sees_read (b : UInt8) : Sys.Sees (.read (.data [b])) ⟨[], b :: bwd, r⟩ ⟨[], bwd, r⟩ := by
  have h : Sys.Sees (.read (.data [b])) ⟨[], [b] ++ bwd, r⟩ ⟨[] ++ [], bwd, r⟩ := .mk
  exact h

theorem sees_write (u : List UInt8) : Sys.Sees (.write u) ⟨[], bwd, r⟩ ⟨u, bwd, r⟩ := by
  have h : Sys.Sees (.write u) ⟨[], [] ++ bwd, r⟩ ⟨[] ++ u, bwd, r⟩ := .mk
  exact h

/-- A unit is written and reaches the receiver. -/
theorem write_taken (hu : Units.SelfDelimiting blkSize u) (hT : r.Takes u r' ans) :
    Sys.Goes ⟨[], bwd, r⟩ [.write u] ⟨[], bwd ++ ans, r'⟩ := by
  have hstep : Sys.Step ⟨u ++ [], bwd, r⟩ ⟨[], bwd ++ ans, r'⟩ := .deliver hu hT
  rw [List.append_nil] at hstep
  exact .event (sees_write u) (.step hstep (.refl _))

/-- A unit is written and damaged on its way. -/
theorem write_damaged (hu : Units.SelfDelimiting blkSize u) :
    Sys.Goes ⟨[], bwd, r⟩ [.write u] ⟨[], bwd ++ [NAK], r⟩ := by
  have hstep : Sys.Step ⟨u ++ [], bwd, r⟩ ⟨[], bwd ++ [NAK], r⟩ := .damage hu
  rw [List.append_nil] at hstep
  exact .event (sees_write u) (.step hstep (.refl _))

end

/-! ## The turns of the sender -/

/-- A wait answered at the time `t`. -/
def ackWait (t : Int) : List Ev := .time t :: ackEnd

def nakWait (t : Int) : List Ev := [.time t, .read (.data [NAK]), .ret .ymodemWaitAck EAGAIN.code]

/-- A wait that reads a `C` when its time is over. -/
def lateWait (t t' : Int) : List Ev := [.time t, .read (.data [C]), .time t', .ret .ymodemWaitAck EAGAIN.code]

section

variable {bwd : List UInt8} {r : Rx}

theorem ackWait_goes (t : Int) : Sys.Goes ⟨[], ACK :: bwd, r⟩ (ackWait t) ⟨[], bwd, r⟩ :=
  .event (sees_idle rfl rfl) (.event (sees_read ACK) (.event (sees_idle rfl rfl) (.refl _)))

theorem nakWait_goes (t : Int) : Sys.Goes ⟨[], NAK :: bwd, r⟩ (nakWait t) ⟨[], bwd, r⟩ :=
  .event (sees_idle rfl rfl) (.event (sees_read NAK) (.event (sees_idle rfl rfl) (.refl _)))

theorem lateWait_goes (t t' : Int) : Sys.Goes ⟨[], bwd, r⟩ (lateWait t t') ⟨[], bwd, r⟩ := by
  have hstray : Sys.Step ⟨[], bwd, r⟩ ⟨[], C :: bwd, r⟩ := .stray (a := []) C (by decide) (by decide)
  exact .step hstray (.event (sees_idle rfl rfl) (.event (sees_read C) (.event (sees_idle rfl rfl)
    (.event (sees_idle rfl rfl) (.refl _)))))

end

theorem ackWait_plays (n : Nat) (t : Int) : Replays replay (ymodemWaitAck (n + 1)) (ackWait t) (.ret 0) := by
  have hread : Replays replay (read 1) [.read (.data [ACK])] (.ret (.data [ACK])) := read_plays (Nat.le_refl 1)
  apply called_plays (e := [.time t, .read (.data [ACK])])
  apply (time_plays t).bind (f := [.read (.data [ACK])])
  apply Replays.loop_done
  exact hread.then (Replays.pure _)

theorem nakWait_plays (n : Nat) (t : Int) :
    Replays replay (ymodemWaitAck (n + 1)) (nakWait t) (.ret EAGAIN.code) := by
  have hread : Replays replay (read 1) [.read (.data [NAK])] (.ret (.data [NAK])) := read_plays (Nat.le_refl 1)
  apply called_plays (e := [.time t, .read (.data [NAK])])
  apply (time_plays t).bind (f := [.read (.data [NAK])])
  apply Replays.loop_done
  exact hread.then (Replays.pure _)

theorem lateWait_plays (n : Nat) {t t' : Int} (ht : 2 * (t' - t) > 3) :
    Replays replay (ymodemWaitAck (n + 1)) (lateWait t t') (.ret EAGAIN.code) := by
  have hread : Replays replay (read 1) [.read (.data [C])] (.ret (.data [C])) := read_plays (Nat.le_refl 1)
  apply called_plays (e := [.time t, .read (.data [C]), .time t'])
  apply (time_plays t).bind (f := [.read (.data [C]), .time t'])
  apply Replays.loop_done
  apply hread.bind (f := [.time t'])
  apply (time_plays t').then
  rw [if_pos ht]
  exact Replays.pure _

/-- What a turn makes of the result of its wait. -/
theorem answer_plays {fuel : Nat} {w : List Ev} {r : Int} (hw : Replays replay (ymodemWaitAck fuel) w (.ret r))
    (hr : ¬ r < 0) : Replays replay (do
      let ret ← ymodemWaitAck fuel
      if ret < 0 then return (Iter.done ret : Iter Unit Int)
      else if ret > 0 then return .next ()
      else return .done 0) w (.ret (if r > 0 then .next () else .done 0)) := by
  apply hw.then
  rw [if_neg hr]
  split <;> exact Replays.pure _

theorem xmitTurn_plays (n : Nat) {u : List UInt8} (hu : u ≠ []) {t0 t : Int} (ht : ¬ t - t0 > YMODEM_XMIT_TIMEOUT)
    {w : List Ev} {r : Int} (hw : Replays replay (ymodemWaitAck (n + 2)) w (.ret r)) (hr : ¬ r < 0) :
    Replays replay (do
      let t ← time
      if t - t0 > YMODEM_XMIT_TIMEOUT then return .done ETIMEDOUT.neg
      else
        let ret ← ymodemBlkXmit (n + 2) u
        if ret < 0 then return .done ret
        else
          let ret ← ymodemWaitAck (n + 2)
          if ret < 0 then return (Iter.done ret : Iter Unit Int)
          else if ret > 0 then return .next ()
          else return .done 0) (.time t :: .write u :: w) (.ret (if r > 0 then .next () else .done 0)) := by
  apply (time_plays t).bind (f := .write u :: w)
  rw [if_neg ht]
  apply (writeAll_plays n hu).bind (f := w)
  rw [if_neg (by decide)]
  exact answer_plays hw hr

theorem eotTurn_plays (n : Nat) {w : List Ev} {r : Int} (hw : Replays replay (ymodemWaitAck n) w (.ret r))
    (hr : ¬ r < 0) : Replays replay (do
      match ← write [EOT] with
      | .fail e  => return .done e.neg
      | .wrote _ =>
        let ret ← ymodemWaitAck n
        if ret < 0 then return (Iter.done ret : Iter Unit Int)
        else if ret > 0 then return .next ()
        else return .done 0) (.write [EOT] :: w) (.ret (if r > 0 then .next () else .done 0)) :=
  (write_plays [EOT]).bind (answer_plays hw hr)

/-- A block sent and acknowledged at the time `t`. -/
def sentOnce (t : Int) (u : List UInt8) : List Ev := .time t :: .time t :: .write u :: ackWait t

/-- A block whose first answer does not come within 2 s: it is sent again, and then the answer comes. -/
def sentTwice (u : List UInt8) : List Ev :=
  .time 0 :: ((.time 0 :: .write u :: lateWait 0 2) ++ (.time 2 :: .write u :: ackWait 2))

def eotOnce (t : Int) : List Ev := .write [EOT] :: ackWait t

/-- EOT sent again on a NAK. -/
def eotTwice (t : Int) : List Ev := (.write [EOT] :: nakWait t) ++ (.write [EOT] :: ackWait t)

section

variable {bwd : List UInt8} {r r' : Rx} {u : List UInt8}

/-- A block sent once, whatever becomes of it: the ACK taken is the first answer there. -/
theorem sentOnce_goes {bwd' : List UInt8} (hw : Sys.Goes ⟨[], bwd, r⟩ [.write u] ⟨[], ACK :: bwd', r'⟩) (t : Int) :
    Sys.Goes ⟨[], bwd, r⟩ (sentOnce t u) ⟨[], bwd', r'⟩ :=
  .event (sees_idle rfl rfl) (.event (sees_idle rfl rfl) (hw.trans (ackWait_goes t)))

/-- A block sent twice leaves an ACK behind. -/
theorem sentTwice_goes (hu : Units.SelfDelimiting blkSize u) (hT : r.Takes u r' [ACK]) (hR : r'.Takes u r' [ACK]) :
    Sys.Goes ⟨[], [], r⟩ (sentTwice u) ⟨[], [ACK], r'⟩ := by
  have hfirst : Sys.Goes ⟨[], [], r⟩ ([.write u] ++ lateWait 0 2) ⟨[], [ACK], r'⟩ :=
    (write_taken hu hT).trans (lateWait_goes 0 2)
  have hsecond : Sys.Goes ⟨[], [ACK], r'⟩ ([.write u] ++ ackWait 2) ⟨[], [ACK], r'⟩ :=
    (write_taken hu hR).trans (ackWait_goes 2)
  have hturns := (Coupling.Coupled.event (sees_idle (x := .time 0) rfl rfl) hfirst).trans
    (.event (sees_idle (x := .time 2) rfl rfl) hsecond)
  exact .event (sees_idle rfl rfl) hturns

theorem eotOnce_goes (t : Int) : Sys.Goes ⟨[], [], r⟩ (eotOnce t) ⟨[], [], ⟨0, r.stored⟩⟩ :=
  (write_taken eot_selfDelimiting .eot).trans (ackWait_goes t)

theorem eotTwice_goes (t : Int) : Sys.Goes ⟨[], [NAK], r⟩ (eotTwice t) ⟨[], [ACK], ⟨0, r.stored⟩⟩ := by
  have hfirst : Sys.Goes ⟨[], [NAK], r⟩ ([.write [EOT]] ++ nakWait t) ⟨[], [ACK], ⟨0, r.stored⟩⟩ :=
    (write_taken eot_selfDelimiting .eot).trans (nakWait_goes t)
  have hsecond : Sys.Goes ⟨[], [ACK], ⟨0, r.stored⟩⟩ ([.write [EOT]] ++ ackWait t) ⟨[], [ACK], ⟨0, r.stored⟩⟩ :=
    (write_taken eot_selfDelimiting .eot).trans (ackWait_goes t)
  exact hfirst.trans hsecond

end

theorem sentOnce_plays (n : Nat) {u : List UInt8} (hu : u ≠ []) (t : Int) :
    Replays replay (ymodemBlkTimedXmit (n + 2) u) (sentOnce t u) (.ret 0) := by
  have hlate : ¬ t - t > YMODEM_XMIT_TIMEOUT := by
    unfold YMODEM_XMIT_TIMEOUT
    omega
  have hturn := xmitTurn_plays n hu hlate (ackWait_plays (n + 1) t) (by decide)
  rw [if_neg (by decide)] at hturn
  exact (time_plays t).bind (Replays.loop_done hturn)

theorem sentTwice_plays (n : Nat) {u : List UInt8} (hu : u ≠ []) :
    Replays replay (ymodemBlkTimedXmit (n + 2) u) (sentTwice u) (.ret 0) := by
  have hnow : ¬ (0 : Int) - 0 > YMODEM_XMIT_TIMEOUT := by decide
  have hintime : ¬ (2 : Int) - 0 > YMODEM_XMIT_TIMEOUT := by decide
  have hlate : (2 : Int) * (2 - 0) > 3 := by decide
  have hfirst := xmitTurn_plays n hu hnow (lateWait_plays (n + 1) hlate) (by decide)
  have hsecond := xmitTurn_plays n hu hintime (ackWait_plays (n + 1) 2) (by decide)
  rw [if_pos (by decide)] at hfirst
  rw [if_neg (by decide)] at hsecond
  apply (time_plays 0).bind (f := (.time 0 :: .write u :: lateWait 0 2) ++ (.time 2 :: .write u :: ackWait 2))
  apply Replays.loop_next hfirst
  exact Replays.loop_done hsecond

theorem eotOnce_plays (n : Nat) (t : Int) : Replays replay (xferEot (n + 1)) (eotOnce t) (.ret 0) := by
  have hturn := eotTurn_plays (n + 1) (ackWait_plays n t) (by decide)
  rw [if_neg (by decide)] at hturn
  exact Replays.loop_done hturn

theorem eotTwice_plays (n : Nat) (t : Int) : Replays replay (xferEot (n + 2)) (eotTwice t) (.ret 0) := by
  have hfirst := eotTurn_plays (n + 2) (nakWait_plays (n + 1) t) (by decide)
  have hsecond := eotTurn_plays (n + 2) (ackWait_plays (n + 1) t) (by decide)
  rw [if_pos (by decide)] at hfirst
  rw [if_neg (by decide)] at hsecond
  exact Replays.loop_next hfirst (Replays.loop_done hsecond)

/-- The session of a file of one block. -/
theorem ymodemXfer_plays (n : Nat) {len : Nat} {f : List UInt8} {fn : CStr} (hlen : totalBlk len = 1)
    {e₀ e₁ e₂ e₃ : List Ev} (h₀ : Replays replay (ymodemBlkTimedXmit (n + 2) (blk0 fn len)) e₀ (.ret 0))
    (h₁ : Replays replay (ymodemBlkTimedXmit (n + 2) (dataBlk 1 (slice (f.take len) 0 1024))) e₁ (.ret 0))
    (h₂ : Replays replay (xferEot (n + 2)) e₂ (.ret 0))
    (h₃ : Replays replay (ymodemBlkTimedXmit (n + 2) blkEnd) e₃ (.ret 0)) :
    Replays replay (ymodemXfer (n + 2) f fn len)
      ([.time 0, .read (.data [C])] ++ (e₀ ++ (e₁ ++ (e₂ ++ e₃))) ++ [.ret .ymodemXfer EXIT_SUCCESS]) (.ret EXIT_SUCCESS) := by
  have hC : Replays replay (waitC (n + 2)) [.time 0, .read (.data [C])] (.ret 0) := by
    have hread : Replays replay (read 1) [.read (.data [C])] (.ret (.data [C])) := read_plays (Nat.le_refl 1)
    apply (time_plays 0).bind (f := [.read (.data [C])])
    exact Replays.loop_done (hread.then (Replays.pure _))
  have hdata : Replays replay (xferData (n + 2) len f) (e₁ ++ []) (.ret 0) := by
    have hrlen : f.take (if 1 = totalBlk len then lastBlk len else 1024) = slice (f.take len) 0 1024 :=
      take_rlen (f := f) (i := 0) (by omega)
    rw [xferData_eq]
    refine Replays.loop_next (u := (2, f.drop (if 1 = totalBlk len then lastBlk len else 1024))) ?_ (Replays.loop_done ?_)
    · rw [if_pos (by dsimp only; omega)]
      dsimp only
      rw [if_neg (by omega)]
      refine Replays.then (a := 0) ?_ ?_
      · rw [hrlen]
        exact h₁
      · rw [if_neg (by decide)]
        exact Replays.pure _
    · rw [if_neg (by dsimp only; omega)]
      exact Replays.pure _
  rw [List.append_nil] at hdata
  refine called_plays (hC.bind ?_)
  rw [if_neg (by decide)]
  apply h₀.bind
  rw [if_neg (by decide)]
  apply hdata.bind
  rw [if_neg (by decide)]
  apply h₂.bind
  rw [if_neg (by decide)]
  apply h₃.then
  rw [if_neg (by decide)]
  exact Replays.pure _

end Ws63Flash
