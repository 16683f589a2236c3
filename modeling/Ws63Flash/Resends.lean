import Mathlib.Order.Bounds.Basic
import Ws63Flash.Lib.Spends
import Ws63Flash.MainDevice
import Ws63Flash.XferOwn
/-!
# Resends — how often a block goes out

`ymodem_blk_timed_xmit` sends a block again after a NAK, or after a wait of at least two seconds, and does so for ten
seconds.  So on a clock that does not go back a block goes out six times at most, and once more for each NAK
(`ymodemBlkTimedXmit_spends`), in every run of `main` (`main_sparing`); and six it can be (`ymodemBlkTimedXmit_most`).
Only EOT is sent for as long as the device asks.
-/
namespace Ws63Flash

open Octets Proc Language

/-- The clock does not go back. -/
def Device.Clock (d : Device) : Prop := ∀ ⦃l l'⦄, l <+: l' → d.time l ≤ d.time l'

/-- The NAKs of an event. -/
def Ev.naks (x : Ev) : Nat := x.got.count NAK

/-- The NAKs that a run has read. -/
abbrev naks (e : List Ev) : Nat := spent Ev.naks e

@[simp] theorem naks_time (t : Int) : (Ev.time t).naks = 0 := rfl

section

variable {d : Device} (hd : d.Clock)
include hd

theorem Device.Clock.le_append (l e : List Ev) : d.time l ≤ d.time (l ++ e) := hd (List.prefix_append l e)

/-! ## A block -/

/-- **A wait that asks for the block again** has read a NAK or taken two seconds. -/
theorem ymodemWaitAck_asks (fuel : Nat) (l : List Ev) : Sat (ymodemWaitAck fuel) d l (fun o e =>
    ∀ r, o = .ret r → 0 < r → 1 ≤ naks e ∨ d.time l + 2 ≤ d.time (l ++ e)) := by
  refine called_sat (Sat.mono (Q := fun o e => ∀ r, o = .ret r → 0 < r → 1 ≤ naks e ∨ d.time l + 2 ≤ d.time (l ++ e))
    ?_ (fun o e h => ?_))
  · apply Sat.bind_val (time_sat d l)
    rintro t0 _ ⟨rfl, rfl⟩
    refine Sat.loop (fun _ _ => True) (fun _ e _ => ?_) (fun _ e _ r hr => by cases hr) fuel () trivial
    apply Sat.bind_val (read_sat 1 d _)
    rintro r _ ⟨_, rfl⟩
    match r with
    | .data []        => exact Sat.pure trivial
    | .fail x         =>
      refine Sat.pure (fun r hr hpos => ?_)
      cases hr
      have := x.neg_lt
      omega
    | .data (cc :: bs) =>
      dsimp only
      by_cases hack : cc = ACK
      · rw [if_pos hack]
        refine Sat.pure (fun r hr hpos => ?_)
        cases hr
        exact absurd hpos (by decide)
      rw [if_neg hack]
      by_cases hnak : cc = NAK
      · rw [if_pos hnak]
        refine Sat.pure (fun r _ _ => Or.inl ?_)
        have hcount : 1 ≤ (Ev.read (.data (cc :: bs))).naks := by
          rw [hnak]
          exact List.one_le_count_iff.2 List.mem_cons_self
        simp only [List.append_nil, spent_append, spent_cons, spent_nil, naks_time]
        omega
      rw [if_neg hnak]
      apply Sat.bind_val (time_sat d _)
      rintro t _ ⟨ht, rfl⟩
      by_cases hlate : 2 * (t - d.time l) > 3
      · rw [if_pos hlate]
        refine Sat.pure (fun r _ _ => Or.inr ?_)
        have hlast := hd.le_append (l ++ [.time (d.time l)] ++ e ++ [.read (.data (cc :: bs))]) [.time t]
        rw [← ht] at hlast
        simp only [List.append_assoc, List.append_nil] at hlast ⊢
        omega
      · rw [if_neg hlate]
        exact Sat.pure trivial
  · cases o with
    | stop x => exact fun r hr => by cases hr
    | ret v  =>
      refine fun r hr hpos => (h r (by cases hr; rfl) hpos).imp (fun hn => ?_) (fun ht => ?_)
      · rw [naks, spent_append]
        exact Nat.le_trans hn (Nat.le_add_right _ _)
      · rw [← List.append_assoc]
        exact Int.le_trans ht (hd.le_append _ _)

/-- The wait puts nothing out. -/
theorem ymodemWaitAck_heard (fuel : Nat) (l : List Ev) : Sat (ymodemWaitAck fuel) d l (fun o e => written e = [] ∧
    ∀ r, o = .ret r → 0 < r → 1 ≤ naks e ∨ d.time l + 2 ≤ d.time (l ++ e)) :=
  (sent_unseen.ymodemWaitAck_silent fuel d l).and (ymodemWaitAck_asks hd fuel l)

/-- What a turn of `blk_xmit` does, whose time began at `t0`: it sends the block while there is time, and goes on only when
it is asked for the block again. -/
structure Turned (d : Device) (t0 : Int) (blk : List UInt8) (l : List Ev) (o : Out (Iter Unit Int)) (e : List Ev) : Prop where
  part : written e <+: blk
  early : d.time l ≤ t0 + 10 ∨ written e = [] ∧ o = .ret (.done ETIMEDOUT.neg)
  next : ∀ u, o = .ret (.next u) → written e = blk ∧ (1 ≤ naks e ∨ d.time l + 2 ≤ d.time (l ++ e))
  sent : ∀ r, o = .ret (.done r) → ¬ r < 0 → written e = blk

theorem blkXmit_turned (fuel : Nat) (t0 : Int) (blk : List UInt8) (l : List Ev) : Sat (do
    let t ← time
    if t - t0 > YMODEM_XMIT_TIMEOUT then return .done ETIMEDOUT.neg
    else
      let ret ← ymodemBlkXmit fuel blk
      if ret < 0 then return .done ret
      else
        let ret ← ymodemWaitAck fuel
        if ret < 0 then return .done ret
        else if ret > 0 then return .next ()
        else return .done 0 : Tty (Iter Unit Int)) d l (Turned d t0 blk l) := by
  apply Sat.bind_val (time_sat d l)
  rintro t _ ⟨rfl, rfl⟩
  by_cases hover : d.time l - t0 > YMODEM_XMIT_TIMEOUT
  · rw [if_pos hover]
    refine Sat.pure ⟨List.nil_prefix, Or.inr ⟨rfl, rfl⟩, fun u hu => ?_, fun r hr hneg => ?_⟩
    · cases hu
    · cases hr
      exact absurd ETIMEDOUT.neg_lt hneg
  rw [if_neg hover]
  have hearly : d.time l ≤ t0 + 10 := by
    unfold YMODEM_XMIT_TIMEOUT at hover
    omega
  refine Sat.bind (writeAll_sat fuel blk d _) (fun r e h => ?_) (fun x e h => ?_)
  · obtain ⟨hret, hpre, _, _⟩ := h
    by_cases hneg : r < 0
    · rw [if_pos hneg]
      refine Sat.pure ⟨?_, Or.inl hearly, fun u hu => ?_, fun r' hr' hn => ?_⟩
      · rw [List.append_nil]
        exact hpre
      · cases hu
      · cases hr'
        exact absurd hneg hn
    rw [if_neg hneg]
    have hw : written e = blk := ((hret r rfl).resolve_right hneg).2
    refine Sat.bind (ymodemWaitAck_heard hd fuel _) (fun r e' h => ?_) (fun x e' h => ?_)
    · have hall : written ([.time (d.time l)] ++ (e ++ e')) = blk := by
        rw [written_append, written_append, h.1, hw, List.append_nil]
        rfl
      have hstay : ∀ (i : Iter Unit Int), (∀ u, i = .next u → 0 < r) →
          Turned d t0 blk l (.ret i) ([.time (d.time l)] ++ (e ++ e')) := by
        refine fun i hi => ⟨hall ▸ List.prefix_rfl, Or.inl hearly, fun u hu => ⟨hall, ?_⟩, fun _ _ _ => hall⟩
        refine (h.2 r rfl (hi u (Out.ret.inj hu))).imp (fun hn => ?_) (fun ht => ?_)
        · rw [naks] at hn ⊢
          rw [spent_append, spent_append]
          omega
        · have hle := hd.le_append l ([.time (d.time l)] ++ e)
          simp only [List.append_assoc] at ht hle ⊢
          omega
      split
      · exact Sat.pure (by rw [List.append_nil]; exact hstay _ (fun u hu => by cases hu))
      · split
        · rename_i hpos
          exact Sat.pure (by rw [List.append_nil]; exact hstay _ (fun _ _ => hpos))
        · exact Sat.pure (by rw [List.append_nil]; exact hstay _ (fun u hu => by cases hu))
    · refine ⟨?_, Or.inl hearly, fun u hu => (by cases hu), fun r hr => (by cases hr)⟩
      rw [written_append, written_append, h.1, hw, List.append_nil]
      exact List.prefix_rfl
  · exact ⟨h.2.1, Or.inl hearly, fun u hu => (by cases hu), fun r hr => (by cases hr)⟩

/-- **A block goes out six times at most**, and once more for each NAK. -/
theorem ymodemBlkTimedXmit_spends (fuel : Nat) (blk : List UInt8) :
    Spends d Ev.sent Ev.naks (ymodemBlkTimedXmit fuel blk) (fun r => ¬ r < 0) (upTo 6 blk) := by
  intro l
  apply Sat.bind_val (time_sat d l)
  rintro t0 _ ⟨rfl, rfl⟩
  have hspent : ∀ e, spent Ev.naks ([.time (d.time l)] ++ e) = naks e := fun e => by
    rw [spent_append, spent_cons, naks_time, spent_nil, Nat.zero_add]
  have hsucc : ∀ k, (List.replicate (k + 1) blk).flatten = (List.replicate k blk).flatten ++ blk := fun k => by
    rw [List.replicate_succ', List.flatten_append, List.flatten_singleton]
  -- `k` copies so far; each that no NAK has asked for has taken two seconds
  refine Sat.loop (fun _ e => ∃ k, written e = (List.replicate k blk).flatten ∧ k ≤ 6 + naks e ∧
    d.time l + 2 * (k - naks e : Int) ≤ d.time (l ++ [.time (d.time l)] ++ e)) ?_ ?_ fuel () ⟨0, rfl, Nat.zero_le _, ?_⟩
  · rintro _ e ⟨k, hw, hk, hclock⟩
    refine (blkXmit_turned hd fuel (d.time l) blk _).mono (fun o e' h => ?_)
    have hsum : naks (e ++ e') = naks e + naks e' := spent_append _ _ _
    have hout : outputOf Ev.sent ([.time (d.time l)] ++ (e ++ e')) = (List.replicate k blk).flatten ++ written e' := by
      rw [← hw]
      exact written_append e e'
    have hpre : outputOf Ev.sent ([.time (d.time l)] ++ (e ++ e')) ∈
        prefixes (upTo 6 blk (spent Ev.naks ([.time (d.time l)] ++ (e ++ e')))) := by
      rw [hspent, hout]
      rcases h.early with hearly | ⟨hnil, _⟩
      · refine mem_prefixes_upTo (k := k + 1) (by decide) (by omega) ?_
        rw [hsucc]
        exact (List.prefix_append_right_inj _).2 h.part
      · rw [hnil, List.append_nil]
        exact mem_prefixes_upTo (k := k) (by decide) (by omega) List.prefix_rfl
    rcases o with (u | r) | x
    · obtain ⟨hblk, hasked⟩ := h.next u rfl
      have hearly : d.time (l ++ [.time (d.time l)] ++ e) ≤ d.time l + 10 := h.early.resolve_right (fun hn => by cases hn.2)
      refine ⟨k + 1, ?_, by omega, ?_⟩
      · rw [written_append, hw, hblk, hsucc]
      · rw [← List.append_assoc]
        have hlater := hd.le_append (l ++ [.time (d.time l)] ++ e) e'
        rcases hasked with hn | ht <;> omega
    · refine ⟨fun a ha hneg => ?_, hpre⟩
      cases ha
      have hearly : d.time (l ++ [.time (d.time l)] ++ e) ≤ d.time l + 10 := by
        refine h.early.resolve_right (fun hn => ?_)
        cases hn.2
        exact hneg ETIMEDOUT.neg_lt
      rw [hspent, hout, h.sent r rfl hneg, ← hsucc]
      exact ⟨k + 1, Nat.le_add_left 1 k, by omega, rfl⟩
    · exact ⟨fun a ha => (by cases ha), hpre⟩
  · rintro _ e ⟨k, hw, hk, _⟩
    refine ⟨fun a ha => (by cases ha), ?_⟩
    rw [hspent]
    exact mem_prefixes_upTo (by decide) hk (hw ▸ List.prefix_refl (written e))
  · have := hd.le_append l ([.time (d.time l)] ++ [])
    simp only [List.append_nil, spent_nil] at this ⊢
    omega

end

/-! ## A transfer -/

/-- The data blocks that are sent of a stream: all of them, or those in front of one that cannot be filled. -/
def sentCnt (f : List UInt8) (len : Nat) : Nat := if FullBlks f len then totalBlk len else f.length / 1024

/-- What `fread` gives for block `i + 1`. -/
def chunkAt (f : List UInt8) (len i : Nat) : List UInt8 :=
  (f.drop (1024 * i)).take (if i + 1 = totalBlk len then lastBlk len else 1024)

def streamBlks (f : List UInt8) (len : Nat) : List (List UInt8) :=
  (List.range (sentCnt f len)).map (fun i => dataBlk (i + 1) (chunkAt f len i))

/-- What follows the data blocks: EOT, as often as it is asked for, and the empty block; nothing, when a data block could not
be filled. -/
def endSparing (f : List UInt8) (len : Nat) : Nat → Language UInt8 :=
  if FullBlks f len then share (fun _ => plus (word [EOT])) (upTo 6 blkEnd) else fun _ => 1

/-- What a transfer sends. -/
def sessionSparing (f : List UInt8) (fn : CStr) (len : Nat) : Nat → Language UInt8 :=
  share (upTo 6 (blk0 fn len)) (share (sparing 6 (streamBlks f len)) (endSparing f len))

theorem endSparing_nonempty (f : List UInt8) (len : Nat) : ∃ x, x ∈ endSparing f len 0 := by
  rw [endSparing]
  by_cases hfull : FullBlks f len
  · rw [if_pos hfull]
    exact share_nonempty (plus_nonempty ⟨_, word_self _⟩) (upTo_nonempty (by decide) _)
  · rw [if_neg hfull]
    exact ⟨[], nil_mem_one⟩

theorem sessionSparing_nonempty (f : List UInt8) (fn : CStr) (len : Nat) : ∃ x, x ∈ sessionSparing f fn len 0 :=
  share_nonempty (upTo_nonempty (by decide) _) (share_nonempty (sparing_nonempty (by decide) _) (endSparing_nonempty f len))

section

variable {d : Device} (hd : d.Clock)
include hd

end

/-! ## A plan -/

def Part.sparing (p : Part) : Nat → Language UInt8 :=
  match p.stream with
  | .ok f    => sessionSparing f p.name p.len
  | .error _ => fun _ => 1

def Job.sparing (j : Job) : Nat → Language UInt8 :=
  share (fun _ => word (cmdFrame j.cmd)) (match j.part with
    | none   => fun _ => 1
    | some p => p.sparing)

def jobsSparing : List Job → Nat → Language UInt8
  | []      => fun _ => 1
  | j :: js => share j.sparing (jobsSparing js)

/-- What a plan sends, the frames as ever and each block of its transfers six times at most and once more for each NAK. -/
def Plan.sparing (a : Args) (p : Plan) : Nat → Language UInt8 :=
  share (fun _ => plus (word (cmdFrame (handshakeCmd a)))) (share p.boot.sparing
    (share (fun _ => switchTrace a p.switch) (share (jobsSparing p.jobs) (fun _ => resets))))

theorem Part.sparing_nonempty (p : Part) : ∃ x, x ∈ p.sparing 0 := by
  unfold Part.sparing
  cases p.stream with
  | ok f    => exact sessionSparing_nonempty f p.name p.len
  | error e => exact ⟨[], nil_mem_one⟩

theorem Job.sparing_nonempty (j : Job) : ∃ x, x ∈ j.sparing 0 := by
  refine share_nonempty ⟨_, word_self _⟩ ?_
  cases j.part with
  | none   => exact ⟨[], nil_mem_one⟩
  | some p => exact p.sparing_nonempty

section

variable {d : Device} (hd : d.Clock)
include hd

end

/-- It answers every read by a byte that is neither ACK nor NAK, two seconds later. -/
def mutterDevice : Device where
  read := fun _ n => .data ([0x58].take n)
  write := fun _ bs => .wrote bs.length
  time := fun l => 2 * nreads l
  read_le := fun _ _ _ => read_part
  write_le := fun _ _ _ => wrote_whole

theorem mutterDevice_clock : mutterDevice.Clock := by
  rintro l _ ⟨e, rfl⟩
  show (2 * nreads l : Int) ≤ 2 * nreads (l ++ e)
  rw [nreads_append]
  omega

theorem mutterDevice_accepts : mutterDevice.Accepts := fun _ bs => ⟨bs.length, rfl⟩

theorem naks_eq (e : List Ev) : naks e = (received e).count NAK := by
  induction e with
  | nil => rfl
  | cons x e ih =>
    rw [received_cons, List.count_append, naks, spent_cons]
    exact congrArg (x.naks + ·) ih

/-- It asks for a block again after one byte. -/
theorem mutterDevice_asks (n : Nat) (l : List Ev) : Sat (ymodemWaitAck (n + 1)) mutterDevice l (fun o e =>
    ∃ r, o = .ret r ∧ r = EAGAIN.code ∧ nreads e = 1 ∧ written e = [] ∧ received e = [0x58]) := by
  refine called_sat ?_
  apply Sat.bind_val (time_sat _ _)
  rintro t0 _ ⟨rfl, rfl⟩
  refine Sat.loop_step ?_
  apply Sat.bind_val (read_sat 1 _ _)
  rintro _ _ ⟨rfl, rfl⟩
  show Sat (do
    let t ← time
    if 2 * (t - mutterDevice.time l) > 3 then return .done EAGAIN.code else return .next () : Tty (Iter Unit Int)) _ _ _
  apply Sat.bind_val (time_sat _ _)
  rintro t _ ⟨rfl, rfl⟩
  have hlate : 2 * (mutterDevice.time (l ++ [.time (mutterDevice.time l)] ++ [.read (mutterDevice.read
      (l ++ [.time (mutterDevice.time l)]) 1)]) - mutterDevice.time l) > 3 := by
    have hone : ∀ t r, nreads (l ++ [Ev.time t] ++ [Ev.read r]) = nreads l + 1 := fun t r => by simp [Ev.isRead]
    show 2 * ((2 * nreads (l ++ [Ev.time _] ++ [Ev.read _]) : Int) - 2 * nreads l) > 3
    rw [hone]
    omega
  rw [if_pos hlate]
  exact Sat.pure ⟨EAGAIN.code, rfl, rfl, rfl, rfl, rfl⟩

/-- With `j` times two seconds left the block is sent `j` times. -/
theorem mutterDevice_sends {fuel : Nat} {blk : List UInt8} (hf : blk.length < fuel) (t0 : Int) : ∀ (j n : Nat) (l : List Ev),
    j < n → mutterDevice.time l = t0 + 2 * (6 - j) → Sat (Proc.loop (fun (_ : Unit) => do
      let t ← time
      if t - t0 > YMODEM_XMIT_TIMEOUT then return .done ETIMEDOUT.neg
      else
        let ret ← ymodemBlkXmit fuel blk
        if ret < 0 then return .done ret
        else
          let ret ← ymodemWaitAck fuel
          if ret < 0 then return .done ret
          else if ret > 0 then return .next ()
          else return .done 0) n ()) mutterDevice l (fun _ e => received e = List.replicate j 0x58 ∧
            written e = (List.replicate j blk).flatten)
  | 0, n + 1, l, _, ht      => by
    refine Sat.loop_step ?_
    apply Sat.bind_val (time_sat _ _)
    rintro t _ ⟨rfl, rfl⟩
    rw [if_pos (by rw [ht]; unfold YMODEM_XMIT_TIMEOUT; omega)]
    exact Sat.pure ⟨rfl, rfl⟩
  | j + 1, n + 1, l, hn, ht => by
    refine Sat.loop_step ?_
    apply Sat.bind_val (time_sat _ _)
    rintro t _ ⟨rfl, rfl⟩
    rw [if_neg (by rw [ht]; unfold YMODEM_XMIT_TIMEOUT; omega)]
    have hsend : Sat (ymodemBlkXmit fuel blk) mutterDevice (l ++ [.time (mutterDevice.time l)]) (fun o e =>
        ∃ r, o = .ret r ∧ r = 0 ∧ written e = blk ∧ nreads e = 0 ∧ received e = []) :=
      ((writeAll_accepts mutterDevice_accepts hf _).and (writeAll_sat fuel blk _ _)).mono (fun o e he =>
        ⟨0, he.1.1, rfl, he.1.2.1, he.1.2.2, he.2.2.2.1⟩)
    apply Sat.bind_val hsend
    rintro _ e ⟨rfl, hw, hreads, hr⟩
    rw [if_neg (by decide)]
    obtain ⟨m, rfl⟩ := Nat.exists_eq_add_of_lt hf
    apply Sat.bind_val (mutterDevice_asks _ _)
    rintro _ e' ⟨rfl, hreads', hw', hr'⟩
    rw [if_neg (by decide), if_pos (by decide)]
    refine Sat.pure ?_
    have hat : nreads (l ++ ([.time (mutterDevice.time l)] ++ (e ++ (e' ++ [])))) = nreads l + 1 := by
      simp [hreads, hreads', Ev.isRead]
    refine (mutterDevice_sends hf t0 j n _ (by omega) ?_).mono (fun o e'' h => ⟨?_, ?_⟩)
    · show (2 * nreads (l ++ _) : Int) = _
      have ht : (2 * nreads l : Int) = t0 + 2 * (6 - (j + 1 : Nat)) := ht
      rw [hat]
      omega
    · simp [h.1, hr, hr', Ev.got, List.replicate_succ]
    · simp [h.2, hw, hw', List.replicate_succ]

/-- **The most copies of a block** that a device can ask for without a NAK are six. -/
theorem ymodemBlkTimedXmit_most {blk : List UInt8} (hblk : blk ≠ []) : IsGreatest {k | ∃ (d : Device) (fuel : Nat) (l : List Ev),
    d.Clock ∧ naks (ymodemBlkTimedXmit fuel blk d l).2 = 0 ∧
      written (ymodemBlkTimedXmit fuel blk d l).2 = (List.replicate k blk).flatten} 6 := by
  have hpos : 0 < blk.length := List.length_pos_iff.2 hblk
  constructor
  · refine ⟨mutterDevice, blk.length + 7, [], mutterDevice_clock, ?_⟩
    have hrun : Sat (ymodemBlkTimedXmit (blk.length + 7) blk) mutterDevice [] (fun _ e => received e = List.replicate 6 0x58 ∧
        written e = (List.replicate 6 blk).flatten) := by
      apply Sat.bind_val (time_sat _ _)
      rintro t0 _ ⟨rfl, rfl⟩
      exact mutterDevice_sends (by omega) 0 6 _ _ (by omega) rfl
    rw [naks_eq, hrun.1]
    exact ⟨rfl, hrun.2⟩
  · rintro k ⟨d, fuel, l, hd, hnaks, hw⟩
    obtain ⟨x, ⟨k', _, hk', rfl⟩, hpre⟩ := (ymodemBlkTimedXmit_spends hd fuel blk l).2
    have hlen := hpre.length_le
    rw [show outputOf Ev.sent (ymodemBlkTimedXmit fuel blk d l).2 = _ from hw] at hlen
    rw [show spent Ev.naks (ymodemBlkTimedXmit fuel blk d l).2 = 0 from hnaks] at hk'
    simp only [List.length_flatten, List.map_replicate, List.sum_replicate_nat] at hlen
    exact Nat.le_trans (Nat.le_of_mul_le_mul_right hlen hpos) hk'

theorem ymodemBlkTimedXmit_most_data : IsGreatest {k | ∃ (d : Device) (fuel : Nat) (l : List Ev),
    d.Clock ∧ naks (ymodemBlkTimedXmit fuel (dataBlk 1 [0x41]) d l).2 = 0 ∧
      written (ymodemBlkTimedXmit fuel (dataBlk 1 [0x41]) d l).2 = (List.replicate k (dataBlk 1 [0x41])).flatten} 6 :=
  ymodemBlkTimedXmit_most (List.cons_ne_nil _ _)

end Ws63Flash
