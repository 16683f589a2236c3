import Ws63Flash.Ymodem
/-!
# AckDevice — a device that answers at once

It takes every write whole, answers a written block with ACK and a quiet line with `C`, meets a 32-byte read with the
handshake's acknowledgement and the word the reset poll waits for, and its clock goes 5 s at each look: within the
limits of the handshake and of a block, beyond the one of a command's reply.  Against it every session ends.
-/
namespace Ws63Flash

open Proc

def Ev.isTime : Ev → Bool
  | .time _ => true
  | _       => false

def Ev.isWrite : Ev → Bool
  | .write _ => true
  | _        => false

/-- The last event that is not a look at the clock is a write. -/
def afterWrite (l : List Ev) : Bool :=
  match (l.filter (fun e => !e.isTime)).getLast? with
  | some e => e.isWrite
  | none   => false

def ackAnswer : List UInt8 :=
  [0xEF, 0xBE, 0xAD, 0xDE, 0x0C, 0x00, 0xE1, 0x1E, 0x5A, 0x00, 0x52, 0x65, 0x73, 0x65, 0x74]

def ackClock (l : List Ev) : Int := 5 * ((l.filter Ev.isTime).length : Int)

def ackRead (l : List Ev) (n : Nat) : ReadRes :=
  .data ((if n = 32 then ackAnswer else if afterWrite l then [ACK] else [C]).take n)

def ackDevice : Device where
  read := ackRead
  write := fun _ bs => .wrote bs.length
  time := ackClock
  read_le := fun _ _ _ => read_part
  write_le := fun _ _ _ => wrote_whole

@[simp] theorem afterWrite_time (l : List Ev) (t : Int) : afterWrite (l ++ [.time t]) = afterWrite l := by
  simp [afterWrite, Ev.isTime]

@[simp] theorem afterWrite_write (l : List Ev) (bs : List UInt8) : afterWrite (l ++ [.write bs]) = true := by
  simp [afterWrite, Ev.isTime, Ev.isWrite]

@[simp] theorem afterWrite_read (l : List Ev) (r : ReadRes) : afterWrite (l ++ [.read r]) = false := by
  simp [afterWrite, Ev.isTime, Ev.isWrite]

@[simp] theorem afterWrite_ret (l : List Ev) (f : Callee) (r : Int) : afterWrite (l ++ [.ret f r]) = false := by
  simp [afterWrite, Ev.isTime, Ev.isWrite]

@[simp] theorem ackClock_time (l : List Ev) (t : Int) : ackClock (l ++ [.time t]) = ackClock l + 5 := by
  simp only [ackClock, List.filter_append, List.length_append]
  show 5 * ((_ + 1 : Nat) : Int) = _
  omega

theorem ackRead_one {l : List Ev} (h : afterWrite l = true) : ackDevice.read l 1 = .data [ACK] := by
  show ackRead l 1 = _
  simp [ackRead, h]

theorem ackRead_quiet {l : List Ev} (h : afterWrite l = false) : ackDevice.read l 1 = .data [C] := by
  show ackRead l 1 = _
  simp [ackRead, h]

theorem write_ack (bs : List UInt8) (l : List Ev) :
    Sat (write bs) ackDevice l (fun o e => ∃ r, o = .ret r ∧ r = .wrote bs.length ∧ e = [.write bs]) := by
  refine ⟨_, rfl, rfl, ?_⟩
  show [Ev.write (bs.take bs.length)] = _
  rw [List.take_length]

theorem writeAll_ack {fuel : Nat} {buf : List UInt8} (hf : 2 ≤ fuel) (hb : buf ≠ []) (l : List Ev) :
    Sat (writeAll fuel buf) ackDevice l (fun o e => ∃ r, o = .ret r ∧ r = 0 ∧ e = [.write buf]) := by
  obtain ⟨n, rfl⟩ := Nat.exists_eq_add_of_le' hf
  have hpos : 0 < buf.length := List.length_pos_iff.2 hb
  apply Sat.loop_step
  rw [if_pos hpos, List.drop_zero]
  apply Sat.bind_val (write_ack buf l)
  rintro _ _ ⟨rfl, rfl⟩
  refine Sat.pure (Sat.loop_step ?_)
  rw [if_neg (by omega)]
  exact Sat.pure ⟨0, rfl, rfl, rfl⟩

theorem ymodemWaitAck_ack {fuel : Nat} (hf : 1 ≤ fuel) {l : List Ev} (hl : afterWrite l = true) :
    Sat (ymodemWaitAck fuel) ackDevice l (fun o e => ∃ r, o = .ret r ∧ r = 0 ∧
      e = [.time (ackClock l), .read (.data [ACK]), .ret .ymodemWaitAck 0]) := by
  obtain ⟨n, rfl⟩ := Nat.exists_eq_add_of_le' hf
  refine called_sat (Sat.bind_val (time_sat _ _) ?_)
  rintro _ _ ⟨rfl, rfl⟩
  refine Sat.loop_step (Sat.bind_val (read_sat 1 _ _) ?_)
  rintro _ _ ⟨rfl, rfl⟩
  rw [ackRead_one ((afterWrite_time l _).trans hl)]
  exact Sat.pure ⟨0, rfl, rfl, rfl⟩

theorem ymodemBlkTimedXmit_ack {fuel : Nat} (hf : 2 ≤ fuel) {blk : List UInt8} (hb : blk ≠ []) (l : List Ev) :
    Sat (ymodemBlkTimedXmit fuel blk) ackDevice l (fun o e => ∃ r, o = .ret r ∧ r = 0 ∧ ∃ t0 t t1,
      e = [.time t0, .time t, .write blk, .time t1, .read (.data [ACK]), .ret .ymodemWaitAck 0]) := by
  obtain ⟨n, rfl⟩ := Nat.exists_eq_add_of_le' (Nat.le_of_succ_le hf)
  apply Sat.bind_val (time_sat _ _)
  rintro _ _ ⟨rfl, rfl⟩
  refine Sat.loop_step (Sat.bind_val (time_sat _ _) ?_)
  rintro _ _ ⟨rfl, rfl⟩
  have hlate : ¬ ackDevice.time (l ++ [.time (ackDevice.time l)]) - ackDevice.time l > YMODEM_XMIT_TIMEOUT := by
    show ¬ ackClock (l ++ [.time (ackClock l)]) - ackClock l > 10
    rw [ackClock_time]
    omega
  rw [if_neg hlate]
  apply Sat.bind_val (writeAll_ack hf hb _)
  rintro _ _ ⟨rfl, rfl⟩
  rw [if_neg (by decide)]
  apply Sat.bind_val (ymodemWaitAck_ack (Nat.le_of_succ_le hf) (afterWrite_write _ _))
  rintro _ _ ⟨rfl, rfl⟩
  exact Sat.pure ⟨0, rfl, rfl, _, _, _, rfl⟩

end Ws63Flash
