import Mathlib.Data.Nat.Count
import Ws63Flash.AckDevice
import Ws63Flash.Lib.Ends
/-!
# AckWait — does the wait for an answer end?

A device is a sequence of reads here, each of one byte or of nothing, with any writes and any clock that grows.
`ymodem_wait_ack` looks at the clock only after a byte (`ymodemWait_terminates_iff`).
-/
namespace Ws63Flash

open Proc

/-- The looks at the clock of a run. -/
def ntimes (e : List Ev) : Nat := e.countP Ev.isTime

@[simp] theorem ntimes_nil : ntimes [] = 0 := rfl

@[simp] theorem ntimes_append (e e' : List Ev) : ntimes (e ++ e') = ntimes e + ntimes e' := List.countP_append

@[simp] theorem ntimes_cons (x : Ev) (e : List Ev) : ntimes (x :: e) = ntimes e + if x.isTime then 1 else 0 :=
  List.countP_cons

@[simp] theorem isTime_read (r : ReadRes) : (Ev.read r).isTime = false := rfl
@[simp] theorem isTime_write (bs : List UInt8) : (Ev.write bs).isTime = false := rfl
@[simp] theorem isTime_writeFail (x : Errno) : (Ev.writeFail x).isTime = false := rfl
@[simp] theorem isTime_time (t : Int) : (Ev.time t).isTime = true := rfl
@[simp] theorem isTime_ret (f : Callee) (r : Int) : (Ev.ret f r).isTime = false := rfl
@[simp] theorem isRead_read (r : ReadRes) : (Ev.read r).isRead = true := rfl
@[simp] theorem isRead_write (bs : List UInt8) : (Ev.write bs).isRead = false := rfl
@[simp] theorem isRead_writeFail (x : Errno) : (Ev.writeFail x).isRead = false := rfl
@[simp] theorem isRead_time (t : Int) : (Ev.time t).isRead = false := rfl
@[simp] theorem isRead_ret (f : Callee) (r : Int) : (Ev.ret f r).isRead = false := rfl

/-- The reads of the device: a byte, or nothing. -/
def Device.Streams (d : Device) (r : Nat → Option UInt8) : Prop := ∀ l, d.read l 1 = .data (r (nreads l)).toList

/-- The clock grows without bound along the looks at it. -/
def Device.Grows (d : Device) : Prop := ∀ M : Int, ∃ n, ∀ l, n ≤ ntimes l → M ≤ d.time l

/-- Against every such device the function returns after finitely many steps. -/
def Terminates (m : Nat → Tty Int) (r : Nat → Option UInt8) : Prop :=
  ∀ d : Device, d.Streams r → d.Grows → ∃ v n, ∀ fuel, n ≤ fuel → (m fuel d []).1 = .ret v

/-- There is no end to the bytes. -/
def Chatters (r : Nat → Option UInt8) : Prop := ∀ n, ∃ i, n ≤ i ∧ r i ≠ none

/-- The ACKs among the first `n` reads. -/
def acksTo (r : Nat → Option UInt8) (n : Nat) : Nat := Nat.count (fun i => r i = some ACK) n

/-- The bytes among the first `n` reads. -/
def bytesTo (r : Nat → Option UInt8) (n : Nat) : Nat := Nat.count (fun i => r i ≠ none) n

/-- What happens again and again passes every count. -/
theorem exists_le_count {p : Nat → Prop} [DecidablePred p] (h : ∀ n, ∃ i, n ≤ i ∧ p i) :
    ∀ m : Nat, ∃ n, m ≤ Nat.count p n
  | 0     => ⟨0, Nat.zero_le _⟩
  | m + 1 => by
    obtain ⟨n, hn⟩ := exists_le_count h m
    obtain ⟨i, hi, hp⟩ := h n
    refine ⟨i + 1, ?_⟩
    rw [Nat.count_succ_eq_succ_count hp]
    exact Nat.succ_le_succ (Nat.le_trans hn (Nat.count_monotone p hi))

section

variable {r : Nat → Option UInt8}

theorem acksTo_succ_ack {n : Nat} (h : r n = some ACK) : acksTo r (n + 1) = acksTo r n + 1 :=
  Nat.count_succ_eq_succ_count h

theorem acksTo_succ {n : Nat} (h : r n ≠ some ACK) : acksTo r (n + 1) = acksTo r n := Nat.count_succ_eq_count h

theorem acksTo_mono {m n : Nat} (h : m ≤ n) : acksTo r m ≤ acksTo r n := Nat.count_monotone _ h

/-- Without an ACK between them an ACK ahead is ahead still. -/
theorem le_of_acksTo_eq {k n i : Nat} (h : acksTo r n = acksTo r k) (hk : k ≤ i) (hi : r i = some ACK) : n ≤ i := by
  by_contra hlt
  have hle : acksTo r (i + 1) ≤ acksTo r n := acksTo_mono (by omega)
  have hge : acksTo r k ≤ acksTo r i := acksTo_mono hk
  rw [acksTo_succ_ack hi] at hle
  omega

theorem bytesTo_mono {m n : Nat} (h : m ≤ n) : bytesTo r m ≤ bytesTo r n := Nat.count_monotone _ h

theorem bytesTo_succ_byte {n : Nat} (h : r n ≠ none) : bytesTo r (n + 1) = bytesTo r n + 1 :=
  Nat.count_succ_eq_succ_count h

theorem bytesTo_succ {n : Nat} (h : r n = none) : bytesTo r (n + 1) = bytesTo r n :=
  Nat.count_succ_eq_count (fun hn => hn h)

end

/-! ## The calls come to their end -/

section

variable {bad : List Ev → Prop} {d : Device} {l : List Ev}

theorem called_ends (hb : Lasting bad) {f : Callee} {m : Nat → Tty Int} {Q : Int → List Ev → Prop}
    (h : Ends bad m d l (fun r l' => Q r (l' ++ [.ret f r]))) : Ends bad (fun fuel => called f (m fuel)) d l Q := by
  refine Ends.bind hb h (fun r l' hQ => ?_)
  refine Ends.bind hb (Ends.of_sat (Q := fun _ l'' => l'' = l' ++ [.ret f r]) ⟨(), rfl, rfl⟩) ?_
  rintro _ _ rfl
  exact Ends.pure hQ

theorem time_ends : Ends bad (fun _ => time) d l (fun t l' => t = d.time l ∧ l' = l ++ [.time (d.time l)]) :=
  Ends.of_run rfl ⟨rfl, rfl⟩

theorem write_ends {bs : List UInt8} (hbs : bs ≠ []) : Ends bad (fun _ => write bs) d l (fun a l' =>
    (∃ k, 0 < k ∧ k ≤ bs.length ∧ a = .wrote k ∧ l' = l ++ [.write (bs.take k)]) ∨
      ∃ x, a = .fail x ∧ l' = l ++ [.writeFail x]) := by
  refine Ends.of_sat ((write_sat bs hbs d l).mono ?_)
  rintro o e (⟨k, h0, hk, ho, rfl⟩ | ⟨x, ho, rfl⟩)
  · exact ⟨_, ho, Or.inl ⟨k, h0, hk, rfl, rfl⟩⟩
  · exact ⟨_, ho, Or.inr ⟨x, rfl, rfl⟩⟩

/-- The last event is a write. -/
def EndsInWrite (l : List Ev) : Prop := ∃ l₀ bs, l = l₀ ++ [.write bs]

/-- **Every write comes to its end**, whatever the single writes do. -/
theorem writeAll_ends (hb : Lasting bad) (buf : List UInt8) : Ends bad (fun fuel => writeAll fuel buf) d l (fun ret l' =>
    nreads l' = nreads l ∧ ntimes l' = ntimes l ∧ (ret = 0 ∧ (buf ≠ [] → EndsInWrite l') ∨ ret < 0)) := by
  refine Ends.loop hb (fun n l' => n ≤ buf.length ∧ nreads l' = nreads l ∧ ntimes l' = ntimes l ∧
    (0 < n → EndsInWrite l')) (fun n _ => buf.length - n) (fun n l' hI => ?_) 0
    ⟨Nat.zero_le _, rfl, rfl, fun h => absurd h (Nat.lt_irrefl 0)⟩
  obtain ⟨hn, hr, ht, hw⟩ := hI
  by_cases hlt : n < buf.length
  · simp only [if_pos hlt]
    have hne : buf.drop n ≠ [] := List.ne_nil_of_length_pos (by rw [List.length_drop]; omega)
    refine Ends.bind hb (write_ends hne) ?_
    rintro _ _ (⟨k, h0, hk, rfl, rfl⟩ | ⟨x, rfl, rfl⟩)
    · rw [List.length_drop] at hk
      refine Ends.pure ⟨⟨by omega, ?_, ?_, fun _ => ⟨l', _, rfl⟩⟩, by omega⟩
      · simp [hr]
      · simp [ht]
    · refine Ends.pure ⟨?_, ?_, Or.inr x.neg_lt⟩
      · simp [hr]
      · simp [ht]
  · simp only [if_neg hlt]
    refine Ends.pure ⟨hr, ht, Or.inl ⟨rfl, fun hne => hw ?_⟩⟩
    have := List.length_pos_iff.2 hne
    omega

/-- What a wait that ended has read: up to an ACK, or to a NAK or a timeout without an ACK before. -/
def Waited (r : Nat → Option UInt8) (l : List Ev) (ret : Int) (l' : List Ev) : Prop :=
  nreads l < nreads l' ∧ ntimes l ≤ ntimes l' ∧ (ret = 0 ∧ acksTo r (nreads l') = acksTo r (nreads l) + 1 ∨
    ret = EAGAIN.code ∧ acksTo r (nreads l') = acksTo r (nreads l))

variable {r : Nat → Option UInt8}

theorem read_ends (hd : d.Streams r) : Ends bad (fun _ => read 1) d l (fun a l' =>
    a = .data (r (nreads l)).toList ∧ l' = l ++ [.read (.data (r (nreads l)).toList)]) := by
  rw [← hd l]
  exact Ends.of_run rfl ⟨rfl, rfl⟩

/-- A wait ends when what it goes on with bounds the number of reads. -/
theorem ymodemWaitAck_bounded (hb : Lasting bad) (hd : d.Streams r) (I : List Ev → Prop) (N : Nat)
    (hbound : ∀ l, I l → nreads l < N) (hstart : I (l ++ [.time (d.time l)]))
    (hsilent : ∀ l, I l → r (nreads l) = none → I (l ++ [.read (.data [])]))
    (hother : ∀ l' b, I l' → r (nreads l') = some b → b ≠ ACK → b ≠ NAK →
      ¬ 2 * (d.time (l' ++ [.read (.data [b])]) - d.time l) > 3 →
      I (l' ++ [.read (.data [b])] ++ [.time (d.time (l' ++ [.read (.data [b])]))])) :
    Ends bad ymodemWaitAck d l (Waited r l) := by
  apply called_ends hb
  refine Ends.bind hb time_ends ?_
  rintro _ _ ⟨rfl, rfl⟩
  refine Ends.loop hb (fun _ l' => I l' ∧ nreads l ≤ nreads l' ∧ ntimes l ≤ ntimes l' ∧
    acksTo r (nreads l') = acksTo r (nreads l)) (fun _ l' => N - nreads l') (fun _ l' hI => ?_) ()
    ⟨hstart, by simp, by simp, by simp⟩
  obtain ⟨hI, hle, htimes, hacks⟩ := hI
  have hlt := hbound l' hI
  refine Ends.bind hb (read_ends hd) ?_
  rintro _ _ ⟨rfl, rfl⟩
  rcases hbyte : r (nreads l') with _ | b
  · have hacks' : acksTo r (nreads l' + 1) = acksTo r (nreads l') := acksTo_succ (by rw [hbyte]; exact nofun)
    refine Ends.pure ⟨⟨hsilent l' hI hbyte, ?_, ?_, ?_⟩, ?_⟩
    · simp; omega
    · simpa using htimes
    · simp [hacks', hacks]
    · simp; omega
  · dsimp only [Option.toList_some]
    by_cases hA : b = ACK
    · simp only [if_pos hA]
      have hacks' := acksTo_succ_ack (hbyte.trans (congrArg some hA))
      refine Ends.pure ⟨?_, ?_, Or.inl ⟨rfl, ?_⟩⟩
      · simp; omega
      · simpa using htimes
      · simp [hacks', hacks]
    have hacks' : acksTo r (nreads l' + 1) = acksTo r (nreads l') := acksTo_succ (by simp [hbyte, hA])
    simp only [if_neg hA]
    by_cases hN : b = NAK
    · simp only [if_pos hN]
      refine Ends.pure ⟨?_, ?_, Or.inr ⟨rfl, ?_⟩⟩
      · simp; omega
      · simpa using htimes
      · simp [hacks', hacks]
    simp only [if_neg hN]
    refine Ends.bind hb time_ends ?_
    rintro _ _ ⟨rfl, rfl⟩
    by_cases hlate : 2 * (d.time (l' ++ [.read (.data [b])]) - d.time l) > 3
    · simp only [if_pos hlate]
      refine Ends.pure ⟨?_, ?_, Or.inr ⟨rfl, ?_⟩⟩
      · simp; omega
      · simp; omega
      · simp [hacks', hacks]
    · simp only [if_neg hlate]
      refine Ends.pure ⟨⟨hother l' b hI hbyte hA hN hlate, ?_, ?_, ?_⟩, ?_⟩
      · simp; omega
      · simp; omega
      · simp [hacks', hacks]
      · simp; omega

/-- A wait ends when an answer is ahead. -/
theorem ymodemWaitAck_answered (hb : Lasting bad) (hd : d.Streams r) {i : Nat} (hi : nreads l ≤ i)
    (hans : r i = some ACK ∨ r i = some NAK) : Ends bad ymodemWaitAck d l (Waited r l) := by
  refine ymodemWaitAck_bounded hb hd (fun l' => nreads l' ≤ i) (i + 1) (fun _ h => Nat.lt_succ_of_le h) (by simpa) ?_ ?_
  · intro l' hI hnone
    have hne : nreads l' ≠ i := by
      rintro rfl
      simp [hnone] at hans
    simp
    omega
  · intro l' b hI hbyte hA hN _
    have hne : nreads l' ≠ i := by
      rintro rfl
      simp [hbyte, hA, hN] at hans
    simp
    omega

/-- A wait ends when there is no end to the bytes. -/
theorem ymodemWaitAck_chatters (hb : Lasting bad) (hd : d.Streams r) (hg : d.Grows) (hr : Chatters r) :
    Ends bad ymodemWaitAck d l (Waited r l) := by
  obtain ⟨T, hT⟩ := hg (d.time l + 2)
  obtain ⟨N, hN⟩ : ∃ N, bytesTo r (nreads l) + T + ntimes l + 1 ≤ bytesTo r N := exists_le_count hr _
  refine ymodemWaitAck_bounded hb hd (fun l' => bytesTo r (nreads l') + ntimes l + 1 ≤ bytesTo r (nreads l) + ntimes l' ∧
    ntimes l' ≤ T + ntimes l + 1) N ?_ ?_ ?_ ?_
  · rintro l' ⟨hbytes, htimes⟩
    by_contra hle
    have := bytesTo_mono (r := r) (Nat.le_of_not_lt hle)
    omega
  · have hreads : ∀ t, nreads (l ++ [.time t]) = nreads l := by simp
    have htimes : ∀ t, ntimes (l ++ [.time t]) = ntimes l + 1 := by simp
    simp only [hreads, htimes]
    omega
  · rintro l' ⟨hbytes, htimes⟩ hnone
    constructor
    · simpa [bytesTo_succ hnone] using hbytes
    · simpa using htimes
  · rintro l' b ⟨hbytes, htimes⟩ hbyte _ _ hlate
    have hearly : ntimes (l' ++ [.read (.data [b])]) < T := by
      by_contra hge
      have := hT _ (Nat.le_of_not_lt hge)
      omega
    constructor
    · simp [bytesTo_succ_byte (r := r) (n := nreads l') (by simp [hbyte])]; omega
    · simp at hearly ⊢; omega

/-- **A block comes to its end** when every wait for its answer does. -/
theorem ymodemBlkTimedXmit_ends (hb : Lasting bad) (hg : d.Grows) (blk : List UInt8)
    (hwait : ∀ l', nreads l ≤ nreads l' → acksTo r (nreads l') = acksTo r (nreads l) → (blk ≠ [] → EndsInWrite l') →
      Ends bad ymodemWaitAck d l' (Waited r l')) :
    Ends bad (fun fuel => ymodemBlkTimedXmit fuel blk) d l (fun ret l' => nreads l ≤ nreads l' ∧
      (ret = 0 ∧ acksTo r (nreads l') = acksTo r (nreads l) + 1 ∨ ret < 0)) := by
  refine Ends.bind hb time_ends ?_
  rintro _ _ ⟨rfl, rfl⟩
  obtain ⟨T, hT⟩ := hg (d.time l + YMODEM_XMIT_TIMEOUT + 1)
  refine Ends.loop hb (fun _ l' => nreads l ≤ nreads l' ∧ acksTo r (nreads l') = acksTo r (nreads l))
    (fun _ l' => T - ntimes l') (fun _ l' hI => ?_) () ⟨by simp, by simp⟩
  obtain ⟨hle, hacks⟩ := hI
  refine Ends.bind hb time_ends ?_
  rintro _ _ ⟨rfl, rfl⟩
  by_cases hlate : d.time l' - d.time l > YMODEM_XMIT_TIMEOUT
  · simp only [if_pos hlate]
    refine Ends.pure ⟨?_, Or.inr ETIMEDOUT.neg_lt⟩
    simpa using hle
  simp only [if_neg hlate]
  have hearly : ntimes l' < T := by
    by_contra hge
    have := hT _ (Nat.le_of_not_lt hge)
    omega
  refine Ends.bind hb (writeAll_ends hb blk) ?_
  rintro ret l₁ ⟨hr₁, ht₁, hret⟩
  simp at hr₁ ht₁
  rcases hret with ⟨rfl, hend⟩ | hneg
  · simp only [if_neg (show ¬ (0 : Int) < 0 by decide)]
    refine Ends.bind hb (hwait l₁ (by omega) (by rw [hr₁, hacks]) hend) ?_
    rintro ret l₂ ⟨hlt, htimes, ⟨rfl, hacks₂⟩ | ⟨rfl, hacks₂⟩⟩
    · exact Ends.pure ⟨by omega, Or.inl ⟨rfl, by rw [hacks₂, hr₁, hacks]⟩⟩
    · exact Ends.pure ⟨⟨by omega, by rw [hacks₂, hr₁, hacks]⟩, by omega⟩
  · simp only [if_pos hneg]
    exact Ends.pure ⟨by omega, Or.inr hneg⟩

end

/-! ## A clock that is slow to start -/

/-- It reads by `r`, takes every write whole, and its clock stands still for `M` looks. -/
def slowDevice (r : Nat → Option UInt8) (M : Nat) : Device where
  read := fun l n => .data ((r (nreads l)).toList.take n)
  write := fun _ bs => .wrote bs.length
  time := fun l => ((ntimes l - M : Nat) : Int)
  read_le := fun _ _ _ => read_part
  write_le := fun _ _ _ => wrote_whole

section

variable {r : Nat → Option UInt8} {M : Nat} {l : List Ev}

theorem slowDevice_streams (r : Nat → Option UInt8) (M : Nat) : (slowDevice r M).Streams r := by
  intro l
  show ReadRes.data ((r (nreads l)).toList.take 1) = _
  cases r (nreads l) <;> rfl

theorem slowDevice_grows (r : Nat → Option UInt8) (M : Nat) : (slowDevice r M).Grows := by
  intro m
  refine ⟨m.toNat + M, fun l hl => ?_⟩
  show m ≤ ((ntimes l - M : Nat) : Int)
  omega

theorem slowDevice_accepts (r : Nat → Option UInt8) (M : Nat) : (slowDevice r M).Accepts := fun _ bs => ⟨bs.length, rfl⟩

theorem slowDevice_time (h : ntimes l ≤ M) : (slowDevice r M).time l = 0 := by
  show ((ntimes l - M : Nat) : Int) = 0
  omega

/-- On a device that takes its writes the loop has no failure to return. -/
theorem writeAll_takes {d : Device} (hacc : d.Accepts) (fuel : Nat) (buf : List UInt8) :
    Sat (writeAll fuel buf) d l (fun o e => o = .stop .pending ∨ o = .ret 0 ∧ nreads e = 0 ∧ ntimes e = 0) := by
  refine Sat.loop (fun _ e => nreads e = 0 ∧ ntimes e = 0) ?_ (fun _ _ _ => Or.inl rfl) fuel 0 ⟨rfl, rfl⟩
  rintro n e ⟨hr, ht⟩
  by_cases hlt : n < buf.length
  · rw [if_pos hlt]
    obtain ⟨k, hk⟩ := hacc (l ++ e) (buf.drop n)
    have hwrite : Sat (write (buf.drop n)) d (l ++ e) (fun o e => ∃ a, o = .ret a ∧
        a = .wrote k ∧ e = [.write ((buf.drop n).take k)]) := by
      refine ⟨.wrote k, ?_⟩
      simp only [write, act, hk]
      exact ⟨trivial, trivial, trivial⟩
    apply Sat.bind_val hwrite
    rintro _ _ ⟨rfl, rfl⟩
    refine Sat.pure ⟨?_, ?_⟩
    · simp [hr]
    · simp [ht]
  · rw [if_neg hlt]
    exact Sat.pure (Or.inr ⟨rfl, by simpa using hr, by simpa using ht⟩)

/-- The reads from `n` on are silent from `B` on, up to an ACK. -/
def SilentFrom (r : Nat → Option UInt8) (B n : Nat) : Prop :=
  ∀ i, B ≤ i → n ≤ i → acksTo r i = acksTo r n → r i = none

theorem SilentFrom.later {B n m : Nat} (h : SilentFrom r B n) (hnm : n ≤ m) (hacks : acksTo r m = acksTo r n) :
    SilentFrom r B m := fun i hi hm heq => h i hi (Nat.le_trans hnm hm) (heq.trans hacks)

/-- **A wait against the slow clock** ends on an answer. -/
theorem ymodemWaitAck_slow (fuel : Nat) {B : Nat} (hM : ntimes l + B < M + nreads l) (hB : SilentFrom r B (nreads l)) :
    Sat (ymodemWaitAck fuel) (slowDevice r M) l (fun o e => o = .stop .pending ∨
      ∃ ret, o = .ret ret ∧ nreads (l ++ e) ≤ B ∧ nreads l < nreads (l ++ e) ∧ ntimes e ≤ nreads e ∧
        (ret = 0 ∧ acksTo r (nreads (l ++ e)) = acksTo r (nreads l) + 1 ∨ ret = EAGAIN.code ∧
          acksTo r (nreads (l ++ e)) = acksTo r (nreads l) ∧ ∃ i, r i = some NAK)) := by
  refine called_sat (Sat.bind_val (time_sat _ _) ?_)
  rintro _ _ ⟨rfl, rfl⟩
  refine Sat.loop (fun _ e => acksTo r (nreads l + nreads e) = acksTo r (nreads l) ∧ ntimes e ≤ nreads e) ?_ ?_ fuel ()
    ⟨by simp, by simp⟩
  · rintro _ e ⟨hacks, htimes⟩
    apply Sat.bind_val (read_sat 1 _ _)
    rintro _ _ ⟨rfl, rfl⟩
    rw [slowDevice_streams r M]
    have hat : nreads (l ++ [Ev.time ((slowDevice r M).time l)] ++ e) = nreads l + nreads e := by simp
    rw [hat]
    rcases hbyte : r (nreads l + nreads e) with _ | b
    · have hacks' := acksTo_succ (r := r) (n := nreads l + nreads e) (by simp [hbyte])
      refine Sat.pure ⟨?_, ?_⟩
      · simpa [← Nat.add_assoc, hacks'] using hacks
      · simp; omega
    · have hlow : nreads l + nreads e < B := by
        by_contra hge
        have hnone := hB _ (Nat.le_of_not_lt hge) (Nat.le_add_right _ _) hacks
        simp [hbyte] at hnone
      dsimp only [Option.toList_some]
      by_cases hA : b = ACK
      · rw [if_pos hA]
        have hacks' := acksTo_succ_ack (hbyte.trans (congrArg some hA))
        refine Sat.pure (Or.inr ⟨0, rfl, ?_, ?_, ?_, Or.inl ⟨rfl, ?_⟩⟩)
        · simp; omega
        · simp
        · simp; omega
        · simp [← Nat.add_assoc, hacks', hacks]
      have hacks' := acksTo_succ (r := r) (n := nreads l + nreads e) (by simp [hbyte, hA])
      rw [if_neg hA]
      by_cases hN : b = NAK
      · rw [if_pos hN]
        refine Sat.pure (Or.inr ⟨_, rfl, ?_, ?_, ?_, Or.inr ⟨rfl, ?_, _, hbyte.trans (congrArg some hN)⟩⟩)
        · simp; omega
        · simp
        · simp; omega
        · simp [← Nat.add_assoc, hacks', hacks]
      rw [if_neg hN]
      apply Sat.bind_val (time_sat _ _)
      rintro _ _ ⟨rfl, rfl⟩
      have hearly : ¬ 2 * ((slowDevice r M).time (l ++ [Ev.time ((slowDevice r M).time l)] ++ e ++
          [Ev.read (.data [b])]) - (slowDevice r M).time l) > 3 := by
        rw [slowDevice_time (by simp; omega), slowDevice_time (by omega)]
        decide
      rw [if_neg hearly]
      refine Sat.pure ⟨?_, ?_⟩
      · simpa [← Nat.add_assoc, hacks'] using hacks
      · simp; omega
  · exact fun _ _ _ => Or.inl rfl

/-- **A block against the slow clock** ends on an ACK. -/
theorem ymodemBlkTimedXmit_slow (fuel : Nat) (blk : List UInt8) {B : Nat} (hM : 3 * B + 5 < M) (hn : nreads l ≤ B)
    (ht : ntimes l ≤ 3 * nreads l + 1) (hB : SilentFrom r B (nreads l)) :
    Sat (ymodemBlkTimedXmit fuel blk) (slowDevice r M) l (fun o e => o = .stop .pending ∨
      o = .ret 0 ∧ nreads (l ++ e) ≤ B ∧ ntimes (l ++ e) ≤ 3 * nreads (l ++ e) + 1 ∧
        acksTo r (nreads (l ++ e)) = acksTo r (nreads l) + 1) := by
  apply Sat.bind_val (time_sat _ _)
  rintro _ _ ⟨rfl, rfl⟩
  refine Sat.loop (fun _ e => nreads l + nreads e ≤ B ∧ ntimes e ≤ 2 * nreads e ∧
    acksTo r (nreads l + nreads e) = acksTo r (nreads l)) ?_ ?_ fuel () ⟨by simpa using hn, by simp, by simp⟩
  · rintro _ e ⟨hle, htimes, hacks⟩
    apply Sat.bind_val (time_sat _ _)
    rintro _ _ ⟨rfl, rfl⟩
    have hearly : ¬ (slowDevice r M).time (l ++ [Ev.time ((slowDevice r M).time l)] ++ e) - (slowDevice r M).time l
        > YMODEM_XMIT_TIMEOUT := by
      rw [slowDevice_time (by simp; omega), slowDevice_time (by omega)]
      decide
    rw [if_neg hearly]
    refine (writeAll_takes (slowDevice_accepts r M) fuel blk).bind_pending ?_ (fun _ => Or.inl rfl)
    rintro e₁ ⟨hr₁, ht₁⟩
    rw [if_neg (by decide)]
    have hlater : SilentFrom r B (nreads l + nreads e) := hB.later (Nat.le_add_right _ _) hacks
    refine Sat.bind (ymodemWaitAck_slow fuel (B := B) ?_ ?_) ?_ ?_
    · simp [hr₁, ht₁]; omega
    · simpa [hr₁] using hlater
    · rintro ret e₂ (h | ⟨ret', h, hle₂, hlt₂, htimes₂, hret⟩)
      · cases h
      cases h
      simp [hr₁, ← Nat.add_assoc] at hle₂ hlt₂ hret
      rcases hret with ⟨rfl, hacks₂⟩ | ⟨rfl, hacks₂, _⟩
      · rw [if_neg (by decide), if_neg (by decide)]
        refine Sat.pure (Or.inr ⟨rfl, ?_, ?_, ?_⟩)
        · simp [hr₁]; omega
        · simp [hr₁, ht₁]; omega
        · simp [hr₁, ← Nat.add_assoc, hacks₂, hacks]
      · rw [if_neg (by decide), if_pos (by decide)]
        refine Sat.pure ⟨?_, ?_, ?_⟩
        · simp [hr₁]; omega
        · simp [hr₁, ht₁]; omega
        · simp [hr₁, ← Nat.add_assoc, hacks₂, hacks]
    · rintro x e₂ (h | ⟨ret', h, _⟩)
      · cases h
        exact Or.inl rfl
      · cases h
  · exact fun _ _ _ => Or.inl rfl

end

/-! ## When the waits end -/

section

variable {r : Nat → Option UInt8}

theorem acksTo_none (h : ∀ i, r i ≠ some ACK) : ∀ n, acksTo r n = 0
  | 0     => rfl
  | n + 1 => (acksTo_succ (h n)).trans (acksTo_none h n)

theorem not_chatters (h : ¬ Chatters r) : ∃ B, ∀ i, B ≤ i → r i = none := by
  simpa [Chatters] using h

/-- Without an answer, and with an end to the bytes, a wait does not end. -/
theorem ymodemWaitAck_stuck {B : Nat} (hans : ∀ i, r i ≠ some ACK ∧ r i ≠ some NAK) (hB : ∀ i, B ≤ i → r i = none) :
    ∀ fuel, (ymodemWaitAck fuel (slowDevice r (B + 1)) []).1 = .stop .pending := by
  intro fuel
  have hslow := ymodemWaitAck_slow (r := r) (M := B + 1) (l := []) fuel (B := B) (by simp) (fun i hi _ _ => hB i hi)
  rcases hslow with h | ⟨ret, _, _, _, _, ⟨_, h⟩ | ⟨_, _, i, hi⟩⟩
  · exact h
  · rw [acksTo_none (fun i => (hans i).1), acksTo_none (fun i => (hans i).1)] at h
    omega
  · exact absurd hi (hans i).2

/-- Without an ACK, and with an end to the bytes, a block does not come to its end. -/
theorem ymodemBlkTimedXmit_stuck {B : Nat} (hack : ∀ i, r i ≠ some ACK) (hB : ∀ i, B ≤ i → r i = none) (blk : List UInt8) :
    ∀ fuel, (ymodemBlkTimedXmit fuel blk (slowDevice r (3 * B + 6)) []).1 = .stop .pending := by
  intro fuel
  have hslow := ymodemBlkTimedXmit_slow (r := r) (M := 3 * B + 6) (l := []) fuel blk (B := B) (by omega) (Nat.zero_le _)
    (by simp) (fun i hi _ _ => hB i hi)
  rcases hslow with h | ⟨_, _, _, h⟩
  · exact h
  · rw [acksTo_none hack, acksTo_none hack] at h
    omega

theorem Terminates.not_stuck {m : Nat → Tty Int} (h : Terminates m r) (M : Nat)
    (hstuck : ∀ fuel, (m fuel (slowDevice r M) []).1 = .stop .pending) : False := by
  obtain ⟨v, n, hrun⟩ := h _ (slowDevice_streams r M) (slowDevice_grows r M)
  have hret := hrun n (Nat.le_refl n)
  rw [hstuck n] at hret
  cases hret

/-- **When the wait and the block come to their end**: when an answer comes, an ACK for the block, or there is no end to
the bytes. -/
theorem ymodemWait_terminates_iff (r : Nat → Option UInt8) (blk : List UInt8) :
    (Terminates ymodemWaitAck r ↔ (∃ i, r i = some ACK ∨ r i = some NAK) ∨ Chatters r) ∧
      (Terminates (fun fuel => ymodemBlkTimedXmit fuel blk) r ↔ (∃ i, r i = some ACK) ∨ Chatters r) := by
  refine ⟨⟨fun h => ?_, fun h d hd hg => ?_⟩, fun h => ?_, fun h d hd hg => ?_⟩
  · by_contra hno
    rw [not_or] at hno
    obtain ⟨hans, hchat⟩ := hno
    obtain ⟨B, hB⟩ := not_chatters hchat
    refine h.not_stuck _ (ymodemWaitAck_stuck (B := B) (fun i => ⟨fun hi => ?_, fun hi => ?_⟩) hB)
    · exact hans ⟨i, Or.inl hi⟩
    · exact hans ⟨i, Or.inr hi⟩
  · rcases h with ⟨i, hi⟩ | hchat
    · exact (ymodemWaitAck_answered .harmless hd (Nat.zero_le i) hi).returns (fun _ h => h)
    · exact (ymodemWaitAck_chatters .harmless hd hg hchat).returns (fun _ h => h)
  · by_contra hno
    rw [not_or] at hno
    obtain ⟨hack, hchat⟩ := hno
    obtain ⟨B, hB⟩ := not_chatters hchat
    exact h.not_stuck _ (ymodemBlkTimedXmit_stuck (B := B) (fun i hi => hack ⟨i, hi⟩) hB blk)
  · refine (ymodemBlkTimedXmit_ends (r := r) .harmless hg blk (fun l' _ hacks _ => ?_)).returns (fun _ h => h)
    rcases h with ⟨i, hi⟩ | hchat
    · exact ymodemWaitAck_answered .harmless hd (le_of_acksTo_eq hacks (Nat.zero_le i) hi) (Or.inl hi)
    · exact ymodemWaitAck_chatters .harmless hd hg hchat

end

/-- **A silent device** keeps a block for ever. -/
theorem ymodemBlkTimedXmit_silent : ∃ d : Device, d.Streams (fun _ => none) ∧ d.Grows ∧
    (∀ fuel, (ymodemWaitAck fuel d []).1 = .stop .pending) ∧
    ∀ fuel, (ymodemBlkTimedXmit fuel blkEnd d []).1 = .stop .pending := by
  refine ⟨slowDevice (fun _ => none) (3 * 0 + 6), slowDevice_streams _ _, slowDevice_grows _ _, ?_, ?_⟩
  · exact ymodemWaitAck_stuck (r := fun _ => none) (B := 5) (by simp) (by simp)
  · exact ymodemBlkTimedXmit_stuck (r := fun _ => none) (by simp) (by simp) blkEnd

end Ws63Flash
