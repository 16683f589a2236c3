import Ws63Flash.CmdFrames
import Ws63Flash.PlanTrace
/-!
# AckRun — the parts of a verb against the device that answers at once

Each part comes to its end there: the handshake and the commands with 0, a transfer with 0 or, when its stream ends
before the last block, with `EXIT_FAILURE`.
-/
namespace Ws63Flash

open Octets Proc

@[simp] theorem afterWrite_uartOpen (l : List Ev) (b : Nat) : afterWrite (l ++ [.uartOpen b]) = false := by
  simp [afterWrite, Ev.isTime, Ev.isWrite]

@[simp] theorem ackClock_write (l : List Ev) (bs : List UInt8) : ackClock (l ++ [.write bs]) = ackClock l := by
  simp [ackClock, Ev.isTime]

theorem ws63SendCmddef_ack {fuel : Nat} (hf : 2 ≤ fuel) {c : Cmddef} (hc : c.len ≤ 1024) (l : List Ev) :
    Sat (ws63SendCmddef fuel c) ackDevice l (fun o e => ∃ r, o = .ret r ∧ r = 0 ∧ e = [.write (cmdFrame c)]) := by
  rw [ws63SendCmddef, if_neg (by unfold cmdBufLen; omega), if_neg (by omega)]
  exact writeAll_ack hf (List.cons_ne_nil _ _) l

theorem handshakeLoop_ack {fuel : Nat} (hf : 2 ≤ fuel) (a : Args) (l : List Ev) :
    Sat (handshakeLoop fuel a) ackDevice l (fun o e => ∃ r, o = .ret r ∧ r = 0 ∧ afterWrite (l ++ e) = false) := by
  obtain ⟨n, rfl⟩ := Nat.exists_eq_add_of_le' (Nat.le_of_succ_le hf)
  apply Sat.bind_val (time_sat _ _)
  rintro _ _ ⟨rfl, rfl⟩
  refine Sat.loop_step (Sat.bind_val (ws63SendCmddef_ack hf (by rw [handshakeCmd_len]; decide) _) ?_)
  rintro _ _ ⟨rfl, rfl⟩
  rw [if_neg (fun h => h rfl)]
  apply Sat.bind_val (time_sat _ _)
  rintro _ _ ⟨rfl, rfl⟩
  have hin : ¬ ackClock (l ++ [.time (ackClock l)] ++ [.write (cmdFrame (handshakeCmd a))]) - ackClock l
      > RESET_TIMEOUT := by
    rw [ackClock_write, ackClock_time]
    unfold RESET_TIMEOUT
    omega
  refine (if_neg hin).symm ▸ ?_
  refine Sat.bind_val (read_sat 32 _ _) ?_
  rintro _ _ ⟨rfl, rfl⟩
  have hack : ack <:+: ackAnswer := by decide
  have hread : ∀ l', ackDevice.read l' 32 = .data ackAnswer := fun _ => rfl
  rw [hread]
  show Sat (if ack <:+: ackAnswer then _ else _) ackDevice _ _
  rw [if_pos hack]
  split
  · have hopen : ∀ b l', Sat (uartOpen b) ackDevice l' (fun o e => ∃ u, o = .ret u ∧ e = [.uartOpen b]) :=
      fun b l' => ⟨(), rfl, rfl⟩
    apply Sat.bind_val (hopen _ _)
    rintro _ _ rfl
    refine Sat.pure ⟨0, rfl, rfl, ?_⟩
    rw [List.append_nil]
    simp only [← List.append_assoc]
    exact afterWrite_uartOpen _ _
  · refine Sat.pure ⟨0, rfl, rfl, ?_⟩
    rw [List.append_nil]
    simp only [← List.append_assoc]
    exact afterWrite_read _ _

/-- The clock runs out at once, and the reply is not read. -/
theorem uartReadUntilMagic_late {fuel : Nat} (hf : 1 ≤ fuel) (l : List Ev) :
    Sat (uartReadUntilMagic fuel) ackDevice l (fun o e => ∃ r, o = .ret r ∧ ∃ t t' x,
      e = [.time t, .time t', .ret .uartReadUntilMagic x]) := by
  obtain ⟨n, rfl⟩ := Nat.exists_eq_add_of_le' hf
  apply Sat.bind_val (time_sat _ _)
  rintro _ _ ⟨rfl, rfl⟩
  have hlate : ackClock (l ++ [.time (ackClock l)]) - ackClock l > UART_READ_TIMEOUT := by
    rw [ackClock_time]
    unfold UART_READ_TIMEOUT
    omega
  have hloop : Sat (magicLoop (n + 1) (MagicSt.init, ackClock l)) ackDevice (l ++ [.time (ackClock l)])
      (fun o e => ∃ r, o = .ret r ∧ e = [.time (ackClock (l ++ [.time (ackClock l)]))]) := by
    refine Sat.loop_step (Sat.bind_val (time_sat _ _) ?_)
    rintro _ _ ⟨rfl, rfl⟩
    refine (if_pos hlate).symm ▸ ?_
    exact Sat.pure ⟨_, rfl, rfl⟩
  apply Sat.bind_val hloop
  rintro r _ rfl
  apply Sat.bind_val (mark_sat _ _ _ _)
  rintro _ _ rfl
  exact Sat.pure ⟨r, rfl, _, _, _, rfl⟩

theorem uartReadUntilMagic_ack {fuel : Nat} (hf : 1 ≤ fuel) (l : List Ev) :
    Sat (uartReadUntilMagic fuel) ackDevice l (fun o e => ∃ r, o = .ret r ∧ afterWrite (l ++ e) = false) := by
  refine (uartReadUntilMagic_late hf l).mono ?_
  rintro o _ ⟨r, ho, t, t', x, rfl⟩
  refine ⟨r, ho, ?_⟩
  rw [show l ++ [.time t, .time t', .ret .uartReadUntilMagic x] = (l ++ [.time t, .time t']) ++ [.ret .uartReadUntilMagic x]
    by simp]
  exact afterWrite_ret _ _ _

theorem waitC_ack {fuel : Nat} (hf : 1 ≤ fuel) {l : List Ev} (hl : afterWrite l = false) :
    Sat (waitC fuel) ackDevice l (fun o _ => ∃ r, o = .ret r ∧ r = 0) := by
  obtain ⟨n, rfl⟩ := Nat.exists_eq_add_of_le' hf
  apply Sat.bind_val (time_sat _ _)
  rintro _ _ ⟨rfl, rfl⟩
  refine Sat.loop_step (Sat.bind_val (read_sat 1 _ _) ?_)
  rintro _ _ ⟨rfl, rfl⟩
  rw [ackRead_quiet ((afterWrite_time l _).trans hl)]
  exact Sat.pure ⟨0, rfl, rfl⟩

theorem xferEot_ack {fuel : Nat} (hf : 1 ≤ fuel) (l : List Ev) :
    Sat (xferEot fuel) ackDevice l (fun o _ => ∃ r, o = .ret r ∧ r = 0) := by
  obtain ⟨n, rfl⟩ := Nat.exists_eq_add_of_le' hf
  refine Sat.loop_step (Sat.bind_val (write_ack _ _) ?_)
  rintro _ _ ⟨rfl, rfl⟩
  apply Sat.bind_val (ymodemWaitAck_ack hf (afterWrite_write _ _))
  rintro _ _ ⟨rfl, rfl⟩
  exact Sat.pure ⟨0, rfl, rfl⟩

theorem xferData_ack {fuel len : Nat} (f : List UInt8) (hf : totalBlk len + 2 ≤ fuel) (l : List Ev) :
    Sat (xferData fuel len f) ackDevice l
      (fun o _ => ∃ r, o = .ret r ∧ r = if FullBlks f len then EXIT_SUCCESS else EXIT_FAILURE) := by
  rw [xferData_eq]
  refine Sat.loop_total (fun s _ => ∃ i, s.1 = i + 1 ∧ i ≤ totalBlk len ∧ (i < totalBlk len → s.2 = f.drop (1024 * i)) ∧
    ∀ j < totalBlk len, j ≤ i → 1024 * j ≤ f.length) (fun s => totalBlk len + 1 - s.1) ?_ fuel (1, f) (by omega)
    ⟨0, rfl, Nat.zero_le _, fun _ => rfl, fun j _ hj => by omega⟩
  rintro ⟨n, f'⟩ e ⟨i, hn, hi, hf', hall⟩
  dsimp only at hn hf' ⊢
  subst hn
  split
  · rename_i hlt
    have hit : i < totalBlk len := by omega
    rw [hf' hit]
    generalize hrlen : (if i + 1 = totalBlk len then lastBlk len else 1024) = rlen
    split
    · rename_i hshort
      obtain ⟨hnext, hlen⟩ := hshort
      rw [← hrlen, if_neg (Nat.ne_of_lt hnext), List.length_take, List.length_drop] at hlen
      refine Sat.pure ⟨_, rfl, (if_neg ?_).symm⟩
      unfold FullBlks
      omega
    · rename_i hfull
      apply Sat.bind_val (ymodemBlkTimedXmit_ack (by omega) (List.cons_ne_nil _ _) _)
      rintro _ e' ⟨rfl, _⟩
      refine Sat.pure ⟨⟨i + 1, rfl, hit, fun hn => ?_, fun j hj hji => ?_⟩, by dsimp only; omega⟩
      · rw [← hrlen, if_neg (Nat.ne_of_lt hn), List.drop_drop, Nat.mul_add_one]
      · by_cases hlast : j ≤ i
        · exact hall j hj hlast
        · have hji : j = i + 1 := by omega
          rw [hji] at hj
          have hlen : ¬ ((f.drop (1024 * i)).take rlen).length < 1024 := fun h => hfull ⟨hj, h⟩
          rw [← hrlen, if_neg (Nat.ne_of_lt hj), List.length_take, List.length_drop] at hlen
          omega
  · rename_i hge
    refine Sat.pure ⟨0, rfl, (if_pos ?_).symm⟩
    unfold FullBlks
    by_cases hzero : totalBlk len = 0
    · omega
    · exact hall _ (by omega) (by omega)

/-- **A transfer against the device that answers at once** fails only for the blocks its stream lacks. -/
theorem ymodemXfer_ack {fuel len : Nat} (f : List UInt8) (fn : CStr) (hf : totalBlk len + 2 ≤ fuel) {l : List Ev}
    (hl : afterWrite l = false) : Sat (ymodemXfer fuel f fn len) ackDevice l
      (fun o _ => ∃ r, o = .ret r ∧ r = if FullBlks f len then EXIT_SUCCESS else EXIT_FAILURE) := by
  have hblk0 : blk0 fn len ≠ [] := by
    apply List.ne_nil_of_length_pos
    unfold blk0 sealSoh
    rw [List.length_take, setRange, List.length_append, List.length_append, be16_length]
    omega
  have hend : blkEnd ≠ [] := by
    rw [blkEnd_eq]
    exact List.cons_ne_nil _ _
  refine called_sat (Sat.mono (Q := fun o _ => ∃ r, o = .ret r ∧ r = if FullBlks f len then EXIT_SUCCESS else
    EXIT_FAILURE) ?_ (fun o e ho => ?_))
  · apply Sat.bind_val (waitC_ack (by omega) hl)
    rintro _ e rfl
    rw [if_neg (by decide)]
    apply Sat.bind_val (ymodemBlkTimedXmit_ack (by omega) hblk0 _)
    rintro _ _ ⟨rfl, _⟩
    rw [if_neg (by decide)]
    apply Sat.bind_val (xferData_ack f hf _)
    rintro ret _ hret
    split
    · exact Sat.pure ⟨ret, rfl, hret⟩
    · rename_i hgood
      apply Sat.bind_val (xferEot_ack (by omega) _)
      rintro _ _ rfl
      rw [if_neg (by decide)]
      apply Sat.bind_val (ymodemBlkTimedXmit_ack (by omega) hend _)
      rintro _ _ ⟨rfl, _⟩
      rw [if_neg (by decide)]
      exact Sat.pure ⟨_, rfl, (Classical.not_not.1 hgood).symm.trans hret⟩
  · obtain ⟨r, rfl, hr⟩ := ho
    exact ⟨r, rfl, hr⟩

theorem switchIf_ack {fuel : Nat} (hf : 2 ≤ fuel) (a : Args) (switch : Bool) {l : List Ev} (hl : afterWrite l = false) :
    Sat (switchIf fuel a switch) ackDevice l (fun o e => ∃ r, o = .ret r ∧ r = 0 ∧ afterWrite (l ++ e) = false) := by
  have hnone : Sat (pure 0 : Tty Int) ackDevice l (fun o e => ∃ r, o = .ret r ∧ r = 0 ∧ afterWrite (l ++ e) = false) :=
    Sat.pure ⟨0, rfl, rfl, by rwa [List.append_nil]⟩
  unfold switchIf switchBaud
  split
  · split
    · apply Sat.bind_val (ws63SendCmddef_ack hf (show (8 : Nat) ≤ 1024 by decide) _)
      rintro _ _ ⟨rfl, rfl⟩
      rw [if_neg (by decide)]
      apply Sat.bind_val (uartReadUntilMagic_ack (by omega) _)
      rintro _ e' _
      have hopen : ∀ b l', Sat (uartOpen b) ackDevice l' (fun o e => ∃ u, o = .ret u ∧ e = [.uartOpen b]) :=
        fun b l' => ⟨(), rfl, rfl⟩
      apply Sat.bind_val (hopen _ _)
      rintro _ _ rfl
      apply Sat.bind_val (uartReadUntilMagic_ack (by omega) _)
      rintro _ e'' hq
      refine Sat.pure ⟨0, rfl, rfl, ?_⟩
      rw [List.append_nil]
      simpa only [List.append_assoc] using hq
    · exact hnone
  · exact hnone

end Ws63Flash
