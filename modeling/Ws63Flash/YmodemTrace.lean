import Ws63Flash.AckDevice
import Ws63Flash.YmodemBlocks
/-!
# YmodemTrace — the bytes of a session

Every run of `ymodem_xfer` on a stream that holds its `len` bytes writes a prefix of block 0, the data blocks, EOT and
the empty block, each repeated at least once, and all of it when it returns `EXIT_SUCCESS` (`ymodemXfer_emits`).
-/
namespace Ws63Flash

open Octets Proc Language

def session (fn : CStr) (data : List UInt8) : Language UInt8 := repeated (sessionBlks fn data)

theorem session_nonempty (fn : CStr) (data : List UInt8) : ∃ w, w ∈ session fn data := repeated_nonempty _

theorem Unheard.waitC_silent {β : Type} {obs : Ev → List β} (h : Unheard obs) (fuel : Nat) :
    Silent obs (waitC fuel) := by
  refine h.time_silent.bind (fun t0 => Silent.loop (fun _ => (h.read_silent 1).bind (fun r => ?_)) fuel ())
  match r with
  | .fail e         => exact Silent.pure _
  | .data []        =>
    refine h.time_silent.bind (fun t => ?_)
    split <;> exact Silent.pure _
  | .data (cc :: _) =>
    dsimp only
    split <;> exact Silent.pure _

section

variable {β : Type} {obs : Ev → List β} (h : Unseen obs)
include h

theorem Unseen.ymodemWaitAck_silent (fuel : Nat) : Silent obs (ymodemWaitAck fuel) := by
  refine Silent.bind (h.time_silent.bind (fun t0 => Silent.loop (fun _ => ?_) fuel ())) (fun r => ?_)
  · refine (h.read_silent 1).bind (fun r => ?_)
    match r with
    | .data []        => exact Silent.pure _
    | .fail e         => exact Silent.pure _
    | .data (cc :: _) =>
      dsimp only
      split
      · exact Silent.pure _
      · split
        · exact Silent.pure _
        · refine h.time_silent.bind (fun t => ?_)
          split <;> exact Silent.pure _
  · exact (h.mark_silent (by decide) r).bind (fun _ => Silent.pure r)

/-- What becomes of an answer: a failure leaves the loop with it, `EAGAIN` turns it, an ACK leaves it well. -/
theorem Unseen.answer_silent (fuel : Nat) : Silent obs (do
    let ret ← ymodemWaitAck fuel
    if ret < 0 then return (Iter.done ret : Iter Unit Int)
    else if ret > 0 then return .next ()
    else return .done 0) := by
  refine (h.ymodemWaitAck_silent fuel).bind (fun r => ?_)
  split
  · exact Silent.pure _
  · split <;> exact Silent.pure _

end

theorem ymodemBlkTimedXmit_emits (fuel : Nat) (blk : List UInt8) :
    Emits Ev.sent (ymodemBlkTimedXmit fuel blk) (fun r => ¬ r < 0) (plus (word blk)) := by
  have hne : ∃ x, x ∈ word blk := ⟨blk, word_self blk⟩
  refine Emits.silent_bind sent_unseen.time_silent (fun t0 => ?_) (plus_nonempty hne)
  refine Emits.loop_plus hne (fun _ => ?_) fuel ()
  refine Emits.silent_bind sent_unseen.time_silent (fun t => ?_) hne
  split
  · exact (Refuses.pure (fun h => h ETIMEDOUT.neg_lt)).emits hne
  · refine (writeAll_emits fuel blk).then_silent (fun r hr => ?_) (fun r hr => ?_)
    · rw [if_neg hr]
      exact sent_unseen.answer_silent fuel
    · rw [if_pos (Classical.not_not.1 hr)]
      exact Refuses.pure hr

theorem xferEot_emits (fuel : Nat) : Emits Ev.sent (xferEot fuel) (fun r => ¬ r < 0) (plus (word [EOT])) := by
  refine Emits.loop_plus ⟨[EOT], word_self _⟩ (fun _ d l => ?_) fuel ()
  refine Sat.bind (write_sat [EOT] (List.cons_ne_nil _ _) d l) ?_ ?_
  · rintro a e (⟨k, h0, hk, ha, rfl⟩ | ⟨x, ha, rfl⟩) <;> cases ha
    · have hk1 : k = 1 := by simp only [List.length_cons, List.length_nil] at hk; omega
      subst hk1
      refine (sent_unseen.answer_silent fuel d _).mono (fun o e' he' => ?_)
      have hw : outputOf Ev.sent ([Ev.write ([EOT].take 1)] ++ e') = [EOT] := by rw [outputOf_append, he']; rfl
      rw [hw]
      exact ⟨fun _ _ _ => word_self _, prefixes_of_mem (word_self _)⟩
    · exact Sat.pure ⟨fun a ha hg => by cases ha; exact absurd x.neg_lt hg, nil_mem_prefixes ⟨[EOT], word_self _⟩⟩
  · rintro x e (⟨k, _, _, ha, _⟩ | ⟨x', ha, _⟩) <;> cases ha

/-! ## The data blocks -/

/-- `last_blk` is what the blocks before the last leave. -/
theorem lastBlk_eq {len i : Nat} (h : i + 1 = totalBlk len) : lastBlk len = len - 1024 * i := by
  rw [totalBlk_eq (le_xferMax (by omega))] at h
  unfold lastBlk
  split <;> omega

/-- The bytes `fread` is asked for at block `i + 1`, cut out of a stream at its place, are the block's own. -/
theorem take_rlen {f : List UInt8} {len i : Nat} (h : i < totalBlk len) :
    (f.drop (1024 * i)).take (if i + 1 = totalBlk len then lastBlk len else 1024)
      = slice (f.take len) (1024 * i) 1024 := by
  have hmax := le_xferMax (Nat.zero_lt_of_lt h)
  have h1 := totalBlk_lt h
  have h2 := totalBlk_mul hmax
  rw [slice, List.drop_take, List.take_take]
  split
  · rename_i hl
    rw [lastBlk_eq hl]
    congr 1
    omega
  · rename_i hl
    congr 1
    rw [totalBlk_eq hmax] at h hl h2
    omega

/-- The blocks `1 .. i`. -/
def dataBlksTo (data : List UInt8) (i : Nat) : List (List UInt8) :=
  (List.range i).map (fun i => dataBlk (i + 1) (slice data (1024 * i) 1024))

theorem dataBlksTo_succ (data : List UInt8) (i : Nat) :
    dataBlksTo data (i + 1) = dataBlksTo data i ++ [dataBlk (i + 1) (slice data (1024 * i) 1024)] := by
  rw [dataBlksTo, dataBlksTo, List.range_succ, List.map_append]
  rfl

theorem dataBlks_split (data : List UInt8) {i : Nat} (h : i ≤ totalBlk data.length) :
    ∃ us, dataBlks data = dataBlksTo data i ++ us := by
  obtain ⟨k, hk⟩ := Nat.exists_eq_add_of_le h
  rw [dataBlks, hk, List.range_add, List.map_append]
  exact ⟨_, rfl⟩

theorem prefixes_dataBlks {data w : List UInt8} {i : Nat} (hi : i ≤ totalBlk data.length)
    (hw : w ∈ prefixes (repeated (dataBlksTo data i))) : w ∈ prefixes (repeated (dataBlks data)) := by
  obtain ⟨us, hus⟩ := dataBlks_split data hi
  rw [hus, repeated_append]
  exact prefixes_mul_left (repeated_nonempty us) hw

theorem repeated_dataBlksTo_succ (data : List UInt8) (i : Nat) : repeated (dataBlksTo data (i + 1))
    = repeated (dataBlksTo data i) * plus (word (dataBlk (i + 1) (slice data (1024 * i) 1024))) := by
  rw [dataBlksTo_succ, repeated_append, repeated_cons, repeated_nil, mul_one]

/-- **The data loop**, with `len` bytes in the stream: before block `i + 1` it has written the blocks `1 .. i`. -/
theorem xferData_emits (fuel len : Nat) (f : List UInt8) (hf : len ≤ f.length) :
    Emits Ev.sent (xferData fuel len f) (fun r => r = 0) (repeated (dataBlks (f.take len))) := by
  have hlen : (f.take len).length = len := by rw [List.length_take]; omega
  have hto : ∀ i w, i ≤ totalBlk len → w ∈ prefixes (repeated (dataBlksTo (f.take len) i)) →
      w ∈ prefixes (repeated (dataBlks (f.take len))) := fun i w hi hw =>
    prefixes_dataBlks (by rw [hlen]; exact hi) hw
  intro d l
  rw [xferData_eq]
  refine Sat.loop (fun s e => ∃ i, i ≤ totalBlk len ∧ s.1 = i + 1 ∧ (i < totalBlk len → s.2 = f.drop (1024 * i)) ∧
      written e ∈ repeated (dataBlksTo (f.take len) i)) ?_ ?_ fuel (1, f)
    ⟨0, Nat.zero_le _, rfl, fun _ => rfl, nil_mem_one⟩
  · rintro ⟨n, f'⟩ e ⟨i, hi, rfl, hf', hw⟩
    dsimp only at hf' ⊢
    split
    · rename_i hlt
      have hit : i < totalBlk len := by omega
      rw [hf' hit, take_rlen hit]
      split
      · -- the stream cannot run out: every block but the last is a full one
        rename_i hshort
        have hfull : 1024 * (i + 1) < len := totalBlk_lt hshort.1
        rw [slice_length (by rw [hlen]; omega)] at hshort
        omega
      · have hblk : ∀ w, w ∈ prefixes (plus (word (dataBlk (i + 1) (slice (f.take len) (1024 * i) 1024)))) →
            written e ++ w ∈ prefixes (repeated (dataBlks (f.take len))) := fun w hw' => by
          apply hto (i + 1) _ hit
          rw [repeated_dataBlksTo_succ]
          exact append_mem_prefixes_mul hw hw'
        refine Sat.bind (ymodemBlkTimedXmit_emits fuel _ d _) (fun r e' ⟨h1, h2⟩ => ?_) (fun x e' ⟨_, h2⟩ => ?_)
        · split
          · rename_i hr
            refine Sat.pure ⟨fun a ha h0 => ?_, ?_⟩
            · cases ha
              exact absurd h0 (Int.ne_of_lt hr)
            · rw [List.append_nil, outputOf_append]
              exact hblk _ h2
          · rename_i hr
            refine Sat.pure ⟨i + 1, hit, rfl, fun hn => ?_, ?_⟩
            · rw [if_neg (Nat.ne_of_lt hn), List.drop_drop, Nat.mul_add_one]
            · rw [List.append_nil, repeated_dataBlksTo_succ, written_append]
              exact append_mem_mul hw (h1 r rfl hr)
        · refine ⟨fun a ha => (by cases ha), ?_⟩
          rw [outputOf_append]
          exact hblk _ h2
    · have hall : i = totalBlk len := by omega
      have hw' : written e ∈ repeated (dataBlks (f.take len)) := by
        rw [hall] at hw
        rwa [dataBlks, hlen]
      refine Sat.pure ⟨fun _ _ _ => ?_, ?_⟩ <;> rw [List.append_nil]
      · exact hw'
      · exact prefixes_of_mem hw'
  · rintro s e ⟨i, hi, _, _, hw⟩
    exact ⟨fun a ha => (by cases ha), hto i _ hi (prefixes_of_mem hw)⟩

/-! ## Any stream -/

section

variable {B : Language UInt8}

theorem plus_blk {u w : List UInt8} (hu : u ∈ B) (hw : w ∈ plus (word u)) : w ∈ KStar.kstar B :=
  kstar_mono (fun v hv => by rw [mem_word.1 hv]; exact hu) (plus_subset_kstar hw)

theorem blk_emits (fuel : Nat) {blk : List UInt8} (hb : blk ∈ B) :
    Emits Ev.sent (ymodemBlkTimedXmit fuel blk) (fun r => ¬ r < 0) (KStar.kstar B) :=
  (ymodemBlkTimedXmit_emits fuel blk).mono (fun _ hw => plus_blk hb hw)

variable (hsoh : ∀ seq p, p.length = 128 → sohBlk seq p ∈ B) (hstx : ∀ seq p, p.length = 1024 → stxBlk seq p ∈ B)
  (heot : [EOT] ∈ B)

include hstx in
theorem xferData_emits_in (fuel len : Nat) (f : List UInt8) :
    Emits Ev.sent (xferData fuel len f) (fun r => ¬ r < 0) (KStar.kstar B) := by
  rw [xferData_eq]
  refine Emits.loop_kstar (fun s => ?_) fuel (1, f)
  have hnil : ([] : List UInt8) ∈ KStar.kstar B := nil_mem_kstar _
  split
  · generalize hrlen : (if s.1 = totalBlk len then lastBlk len else 1024) = rlen
    have hle : rlen ≤ 1024 := by
      unfold lastBlk at hrlen
      rw [← hrlen]
      split
      · split <;> omega
      · exact Nat.le_refl _
    have hblk : dataBlk s.1 (s.2.take rlen) ∈ B := hstx _ _ (padTo_length (by rw [List.length_take]; omega))
    dsimp only
    split
    · exact Emits.pure hnil
    · refine (blk_emits fuel hblk).bind_kstar (fun r hr => ?_) (fun r hr => ?_)
      · rw [if_neg hr]
        exact Emits.pure hnil
      · rw [if_pos (Classical.not_not.1 hr)]
        exact Refuses.pure hr
  · exact Emits.pure hnil

include hsoh hstx heot in
/-- **Whatever the stream holds**, a transfer sends blocks and EOT, and a part of one only when it fails. -/
theorem ymodemXfer_emits_in (fuel len : Nat) (f : List UInt8) (fn : CStr) :
    Emits Ev.sent (ymodemXfer fuel f fn len) (fun r => ¬ r < 0) (KStar.kstar B) := by
  have hnil : ([] : List UInt8) ∈ KStar.kstar B := nil_mem_kstar _
  have hblk0 : blk0 fn len ∈ B := by
    obtain ⟨p, hp, heq⟩ := blk0_shape fn len
    rw [heq]
    exact hsoh 0 p hp
  have hblkEnd : blkEnd ∈ B := by
    rw [blkEnd_eq]
    exact hsoh 0 _ List.length_replicate
  have heot : Emits Ev.sent (xferEot fuel) (fun r => ¬ r < 0) (KStar.kstar B) :=
    (xferEot_emits fuel).mono (fun _ hw => plus_blk heot hw)
  have hrefuse : ∀ r : Int, ¬ ¬ r < 0 → Refuses Ev.sent (Pure.pure r : Tty Int) (fun r => ¬ r < 0) := fun r hr =>
    Refuses.pure hr
  refine called_emits (Emits.silent_bind (sent_unseen.waitC_silent fuel) (fun ret => ?_) ⟨[], hnil⟩)
  split
  · rename_i hr
    exact (hrefuse ret (fun h => h hr)).emits ⟨[], hnil⟩
  refine (blk_emits fuel hblk0).bind_kstar (fun r hr => ?_) (fun r hr => ?_)
  · rw [if_neg hr]
    refine (xferData_emits_in hstx fuel len f).bind_kstar (fun r hr => ?_) (fun r hr => ?_)
    · split
      · exact Emits.pure hnil
      · refine heot.bind_kstar (fun r hr => ?_) (fun r hr => ?_)
        · rw [if_neg hr]
          refine (blk_emits fuel hblkEnd).bind_kstar (fun r hr => ?_) (fun r hr => ?_)
          · rw [if_neg hr]
            exact Emits.pure hnil
          · rw [if_pos (Classical.not_not.1 hr)]
            exact hrefuse r hr
        · rw [if_pos (Classical.not_not.1 hr)]
          exact hrefuse r hr
    · rw [if_pos (fun h => hr (by rw [h]; decide))]
      exact hrefuse r hr
  · rw [if_pos (Classical.not_not.1 hr)]
    exact hrefuse r hr

end

/-- The whole blocks. -/
def wholeBlk : Language UInt8 := {u | Units.SelfDelimiting blkSize u}

theorem ymodemXfer_emits_blks (fuel len : Nat) (f : List UInt8) (fn : CStr) :
    Emits Ev.sent (ymodemXfer fuel f fn len) (fun r => ¬ r < 0) (KStar.kstar wholeBlk) :=
  ymodemXfer_emits_in (fun _ _ hp => sohBlk_selfDelimiting hp) (fun _ _ hp => stxBlk_selfDelimiting hp) eot_selfDelimiting
    fuel len f fn

/-! ## What the sender returns -/

/-- All blocks of a transfer of `len` bytes but the last are in the stream. -/
def FullBlks (f : List UInt8) (len : Nat) : Prop := 1024 * (totalBlk len - 1) ≤ f.length

instance (f : List UInt8) (len : Nat) : Decidable (FullBlks f len) := inferInstanceAs (Decidable (_ ≤ _))

theorem fullBlks_of_le {f : List UInt8} {len : Nat} (h : len ≤ f.length) : FullBlks f len := by
  unfold FullBlks
  rcases Nat.eq_zero_or_pos (totalBlk len) with hzero | hpos
  · rw [hzero]
    exact Nat.zero_le _
  · have hlt := totalBlk_lt (Nat.sub_lt hpos Nat.one_pos)
    omega

/-- Done well, or failed with a negative number. -/
def Failed (r : Int) : Prop := r = 0 ∨ r < 0

/-- The end of a turn that asked for an answer. -/
theorem answer_returns (fuel : Nat) : Returns (do
    let ret ← ymodemWaitAck fuel
    if ret < 0 then return (Iter.done ret : Iter Unit Int)
    else if ret > 0 then return .next ()
    else return .done 0) (Iter.Ends Failed) := by
  refine (Returns.any _).bind (fun r _ => ?_)
  split
  · rename_i hr
    exact Returns.pure (Or.inr hr)
  · split
    · exact Returns.pure trivial
    · exact Returns.pure (Or.inl rfl)

theorem ymodemBlkTimedXmit_returns (fuel : Nat) (blk : List UInt8) : Returns (ymodemBlkTimedXmit fuel blk) Failed := by
  refine (Returns.any time).bind (fun t0 _ => Returns.loop (fun _ => ?_) fuel ())
  refine (Returns.any time).bind (fun t _ => ?_)
  split
  · exact Returns.pure (Or.inr ETIMEDOUT.neg_lt)
  · refine (Returns.any _).bind (fun r _ => ?_)
    split
    · rename_i hr
      exact Returns.pure (Or.inr hr)
    · exact answer_returns fuel

theorem waitC_returns (fuel : Nat) : Returns (waitC fuel) Failed := by
  refine (Returns.any time).bind (fun t0 _ => Returns.loop (fun _ => (Returns.any (read 1)).bind (fun r _ => ?_)) fuel ())
  match r with
  | .fail e         => exact Returns.pure (Or.inr e.neg_lt)
  | .data []        =>
    refine (Returns.any time).bind (fun t _ => ?_)
    split
    · exact Returns.pure (Or.inr ETIMEDOUT.neg_lt)
    · exact Returns.pure trivial
  | .data (cc :: _) =>
    dsimp only
    split
    · exact Returns.pure (Or.inl rfl)
    · exact Returns.pure trivial

theorem xferEot_returns (fuel : Nat) : Returns (xferEot fuel) Failed := by
  refine Returns.loop (fun _ => (Returns.any (write [EOT])).bind (fun r _ => ?_)) fuel ()
  cases r with
  | fail e  => exact Returns.pure (Or.inr e.neg_lt)
  | wrote k => exact answer_returns fuel

theorem xferData_returns (fuel : Nat) {len : Nat} {f : List UInt8} (hf : FullBlks f len) :
    Returns (xferData fuel len f) Failed := by
  intro d l
  rw [xferData_eq]
  refine Sat.loop (fun s _ => ∃ i, s.1 = i + 1 ∧ (i < totalBlk len → s.2 = f.drop (1024 * i))) ?_
    (fun _ _ _ _ hb => nomatch hb) fuel (1, f) ⟨0, rfl, fun _ => rfl⟩
  rintro ⟨n, f'⟩ e ⟨i, rfl, hf'⟩
  dsimp only at hf' ⊢
  split
  · rename_i hlt
    have hit : i < totalBlk len := by omega
    rw [hf' hit]
    generalize hrlen : (if i + 1 = totalBlk len then lastBlk len else 1024) = rlen
    split
    · -- every block but the last is a full one
      rename_i hshort
      obtain ⟨hi, hlen⟩ := hshort
      unfold FullBlks at hf
      rw [← hrlen, if_neg (Nat.ne_of_lt hi), List.length_take, List.length_drop] at hlen
      omega
    · refine Sat.bind (ymodemBlkTimedXmit_returns fuel _ d _) (fun r e' hr => ?_) ?_
      · split
        · exact Sat.pure (fun b hb => by cases hb; exact hr r rfl)
        · refine Sat.pure ⟨i + 1, rfl, fun hn => ?_⟩
          rw [← hrlen, if_neg (Nat.ne_of_lt hn), List.drop_drop, Nat.mul_add_one]
      · exact fun x e' _ b hb => nomatch hb
  · exact Sat.pure (fun b hb => by cases hb; exact Or.inl rfl)

/-- **A transfer that has its blocks succeeds or returns a negative number**; only the end of the stream before the last
block makes it return `EXIT_FAILURE`. -/
theorem ymodemXfer_returns (fuel : Nat) {len : Nat} {f : List UInt8} (fn : CStr) (hf : FullBlks f len) :
    Returns (ymodemXfer fuel f fn len) Failed := by
  refine Returns.bind (P := Failed) ?_ (fun r hr => (Returns.any _).bind (fun _ _ => Returns.pure hr))
  refine (waitC_returns fuel).bind (fun r hr => ?_)
  split
  · exact Returns.pure hr
  refine (ymodemBlkTimedXmit_returns fuel _).bind (fun r hr => ?_)
  split
  · exact Returns.pure hr
  refine (xferData_returns fuel hf).bind (fun r hr => ?_)
  split
  · exact Returns.pure hr
  refine (xferEot_returns fuel).bind (fun r hr => ?_)
  split
  · exact Returns.pure hr
  refine (ymodemBlkTimedXmit_returns fuel _).bind (fun r hr => ?_)
  split
  · exact Returns.pure hr
  · exact Returns.pure (Or.inl rfl)

/-! ## The session -/

/-- **The trace of a session** whose bytes are all in the stream. -/
theorem ymodemXfer_emits (fuel len : Nat) (f : List UInt8) (fn : CStr) (hf : len ≤ f.length) :
    Emits Ev.sent (ymodemXfer fuel f fn len) (fun r => r = EXIT_SUCCESS) (session fn (f.take len)) := by
  have hlen : (f.take len).length = len := by rw [List.length_take]; omega
  have hbad : ∀ r : Int, ¬ ¬ r < 0 → ¬ r = EXIT_SUCCESS := fun r hr h => by
    rw [h] at hr; exact hr (by decide)
  have hsess : session fn (f.take len) = plus (word (blk0 fn len)) *
      (repeated (dataBlks (f.take len)) * (plus (word [EOT]) * plus (word blkEnd))) := by
    rw [session, sessionBlks, hlen, List.cons_append, repeated_cons, repeated_append, repeated_cons, repeated_cons,
      repeated_nil, mul_one]
  have hne : ∀ u : List UInt8, ∃ x, x ∈ plus (word u) := fun u => plus_nonempty ⟨u, word_self u⟩
  have hne2 := mul_nonempty (hne [EOT]) (hne blkEnd)
  have hne3 := mul_nonempty (repeated_nonempty (dataBlks (f.take len))) hne2
  rw [hsess]
  refine called_emits (Emits.silent_bind (sent_unseen.waitC_silent fuel) (fun ret => ?_) (mul_nonempty (hne _) hne3))
  split
  · rename_i hr
    have hno : Refuses Ev.sent (Pure.pure ret : Tty Int) (fun r => r = EXIT_SUCCESS) :=
      Refuses.pure (hbad ret (fun h => h hr))
    exact hno.emits (mul_nonempty (hne _) hne3)
  refine (ymodemBlkTimedXmit_emits fuel _).bind (fun r hr => ?_) (fun r hr => ?_) hne3
  · rw [if_neg hr]
    refine (xferData_emits fuel len f hf).bind (fun r hr => ?_) (fun r hr => ?_) hne2
    · rw [if_neg (fun h => h hr)]
      refine (xferEot_emits fuel).bind (fun r hr => ?_) (fun r hr => ?_) (hne _)
      · rw [if_neg hr]
        refine (ymodemBlkTimedXmit_emits fuel _).then_silent (fun r hr => ?_) (fun r hr => ?_)
        · rw [if_neg hr]; exact Silent.pure _
        · rw [if_pos (Classical.not_not.1 hr)]; exact Refuses.pure (hbad r hr)
      · rw [if_pos (Classical.not_not.1 hr)]; exact Refuses.pure (hbad r hr)
    · rw [if_pos hr]; exact Refuses.pure hr
  · rw [if_pos (Classical.not_not.1 hr)]; exact Refuses.pure (hbad r hr)

/-- **A session carries its data**: when `ymodem_xfer` succeeds it has written block 0, the data blocks, EOT and the
empty block, each at least once and in order, and a reader that drops the repeats gets the `len` bytes back; on any
other outcome, also that of a run still going, it has written a prefix of such a session. -/
theorem ymodemXfer_session (d : Device) (l : List Ev) (fuel len : Nat) (f : List UInt8) (fn : CStr)
    (hf : len ≤ f.length) (h40 : len < 2 ^ 40) (hfit : FitsBlk0 fn len) :
    let run := ymodemXfer fuel f fn len d l
    blk0 fn len = sohBlk 0 (fileInfo fn len) ∧
    (run.1 = .ret EXIT_SUCCESS →
      written run.2 ∈ session fn (f.take len) ∧ readSession len (written run.2) = f.take len) ∧
    (run.1 ≠ .ret EXIT_SUCCESS → written run.2 ∈ prefixes (session fn (f.take len))) := by
  have hlen : (f.take len).length = len := by rw [List.length_take]; omega
  obtain ⟨hfull, hpre⟩ := ymodemXfer_emits fuel len f fn hf d l
  refine ⟨blk0_eq hfit, fun hret => ?_, fun _ => hpre⟩
  have hw := hfull _ hret rfl
  have hmax : (f.take len).length ≤ xferMax := by
    rw [hlen]
    exact Nat.le_trans (Nat.le_of_lt h40) (by decide)
  have hread := readSession_repeated (by rw [hlen]; exact hfit) hmax hw
  rw [hlen] at hread
  exact ⟨hw, hread⟩

theorem ymodemXfer_session_ack :
    let run := ymodemXfer 2 [0x41] ⟨[0x61], by decide⟩ 1 ackDevice []
    run.1 = .ret EXIT_SUCCESS ∧ readSession 1 (written run.2) = [0x41] :=
  have hret : (ymodemXfer 2 [0x41] ⟨[0x61], by decide⟩ 1 ackDevice []).1 = .ret EXIT_SUCCESS := by decide +kernel
  ⟨hret, ((ymodemXfer_session ackDevice [] 2 1 [0x41] ⟨[0x61], by decide⟩ (by decide) (by decide) (by decide)).2.1
    hret).2⟩

end Ws63Flash
