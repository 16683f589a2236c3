import Ws63Flash.CmdFrames
import Ws63Flash.Verbs
/-!
# Handshake — which reads end the handshake

The loop looks for the acknowledgement in what one read returned, so it is left at the first read that holds one whole
(`handshakeLoop_run`).  An acknowledgement that two reads share is missed, where `uart_read_until_magic` puts a frame
together from as many reads as it takes.
-/
namespace Ws63Flash

open Proc

/-- The clock stays within the limit of the handshake. -/
def Device.InTime (d : Device) : Prop :=
  ∀ l e, d.time (l ++ .time (d.time l) :: e) - d.time l ≤ RESET_TIMEOUT

/-- From `l` on, the reads of 32 bytes return the chunks `cs`. -/
def Device.Chunks (d : Device) (l : List Ev) (cs : Nat → List UInt8) : Prop :=
  ∀ e, d.read (l ++ e) 32 = .data (cs (nreads e))

theorem handshakeTurn_sat {d : Device} {l e₁ : List Ev} {cs : Nat → List UInt8} (haccept : d.Accepts)
    (hclock : d.InTime) (hread : d.Chunks l cs) {fuel : Nat} (hf : 1034 < fuel) (a : Args) {l₀ : List Ev}
    (he : l ++ e = l₀ ++ .time (d.time l₀) :: e₁) :
    Sat (handshakeTurn fuel a (d.time l₀)) d (l ++ e) (fun o e' => nreads e' = 1 ∧
      o = .ret (if ack <:+: cs (nreads e) then .done 0 else .next ())) := by
  have hlen : (handshakeCmd a).len ≤ 1024 := by rw [handshakeCmd_len]; omega
  refine Sat.bind (ws63SendCmddef_accepts haccept hlen hf _) ?_ ?_
  · rintro r e' ⟨hr, _, hn⟩
    cases hr
    rw [if_neg (fun h => h rfl)]
    apply Sat.bind_val (time_sat d _)
    rintro t _ ⟨rfl, rfl⟩
    have hin : ¬ d.time (l ++ e ++ e') - d.time l₀ > RESET_TIMEOUT := by
      have := hclock l₀ (e₁ ++ e')
      rw [← List.cons_append, ← List.append_assoc, ← he] at this
      omega
    rw [if_neg hin]
    apply Sat.bind_val (read_sat 32 d _)
    rintro r _ ⟨rfl, rfl⟩
    have hgot : d.read (l ++ e ++ e' ++ [.time (d.time (l ++ e ++ e'))]) 32 = .data (cs (nreads e)) := by
      have := hread (e ++ e' ++ [.time (d.time (l ++ e ++ e'))])
      simpa [hn, Ev.isRead] using this
    rw [hgot]
    cases hcs : cs (nreads e) with
    | nil =>
      refine Sat.pure ⟨by simp [hn, Ev.isRead], ?_⟩
      rw [if_neg (by decide)]
    | cons b bs =>
      dsimp only
      split
      · split
        · refine Sat.bind (m := uartOpen a.baud.toNat) (Q := fun o e => o = .ret () ∧ e = [.uartOpen a.baud.toNat])
            ⟨rfl, rfl⟩ ?_ (fun x e h => by cases h.1)
          rintro _ _ ⟨_, rfl⟩
          exact Sat.pure ⟨by simp [hn, Ev.isRead], rfl⟩
        · exact Sat.pure ⟨by simp [hn, Ev.isRead], rfl⟩
      · exact Sat.pure ⟨by simp [hn, Ev.isRead], rfl⟩
  · rintro x e' ⟨hx, _⟩
    cases hx

/-- **The loop ends at the first read that holds the acknowledgement**, and goes on while none does. -/
theorem handshakeLoop_run {d : Device} {l : List Ev} {cs : Nat → List UInt8} (haccept : d.Accepts) (hclock : d.InTime)
    (hread : d.Chunks l cs) {fuel : Nat} (hf : 1034 < fuel) (a : Args) :
    Sat (handshakeLoop fuel a) d l (fun o e =>
      (o = .ret 0 ∧ ∃ n, ack <:+: cs n ∧ (∀ i < n, ¬ ack <:+: cs i) ∧ nreads e = n + 1) ∨
        (o = .stop .pending ∧ ∀ i < fuel, ¬ ack <:+: cs i)) := by
  -- the induction is on the turns left; `e` starts with the look at the clock before the loop
  have hloop : ∀ (m : Nat) (e e₁ : List Ev), e = .time (d.time l) :: e₁ → (∀ i < nreads e, ¬ ack <:+: cs i) →
      Sat (Proc.loop (fun (_ : Unit) => handshakeTurn fuel a (d.time l)) m ()) d (l ++ e) (fun o e' =>
        (o = .ret 0 ∧ ∃ n, ack <:+: cs n ∧ (∀ i < n, ¬ ack <:+: cs i) ∧ nreads (e ++ e') = n + 1) ∨
          (o = .stop .pending ∧ ∀ i < nreads e + m, ¬ ack <:+: cs i)) := by
    intro m
    induction m with
    | zero => exact fun e e₁ _ hno => Sat.halt (Or.inr ⟨rfl, hno⟩)
    | succ m ih =>
      intro e e₁ he hno
      refine Sat.loop_step ((handshakeTurn_sat haccept hclock hread hf a
        (show l ++ e = l ++ .time (d.time l) :: e₁ by rw [he])).mono ?_)
      rintro o e' ⟨hn, rfl⟩
      by_cases hack : ack <:+: cs (nreads e)
      · rw [if_pos hack]
        exact Or.inl ⟨rfl, nreads e, hack, hno, by rw [nreads_append, hn]⟩
      · rw [if_neg hack]
        have hn' : nreads (e ++ e') = nreads e + 1 := by rw [nreads_append, hn]
        have hno' : ∀ i < nreads (e ++ e'), ¬ ack <:+: cs i := fun i hi => by
          rcases Nat.lt_succ_iff_lt_or_eq.1 (hn' ▸ hi) with h | rfl
          · exact hno i h
          · exact hack
        have := ih (e ++ e') (e₁ ++ e') (by rw [he]; rfl) hno'
        rw [List.append_assoc]
        refine this.mono (fun o e'' h => ?_)
        rw [hn', Nat.add_assoc, Nat.add_comm 1 m] at h
        rwa [List.append_assoc] at h
  apply Sat.bind_val (time_sat d l)
  rintro t _ ⟨rfl, rfl⟩
  have := hloop fuel [.time (d.time l)] [] rfl (fun i hi => absurd hi (by simp [Ev.isRead]))
  simpa [Ev.isRead] using this

/-- The bytes of the first `n` reads. -/
def readSoFar (cs : Nat → List UInt8) (n : Nat) : List UInt8 := (List.range n).flatMap cs

/-- The loop has been left well by the `n`-th read exactly when the bytes of the first `n` reads hold the
acknowledgement. -/
def LeavesOnAck (d : Device) (l : List Ev) (a : Args) (cs : Nat → List UInt8) : Prop :=
  ∀ n fuel, 1035 + n ≤ fuel →
    ((∃ e, handshakeLoop fuel a d l = (.ret 0, e) ∧ nreads e ≤ n) ↔ ack <:+: readSoFar cs n)

/-- Once the bytes read hold the acknowledgement, one of the reads holds it whole. -/
def Unsplit (cs : Nat → List UInt8) : Prop := ∀ n, ack <:+: readSoFar cs n → ∃ i < n, ack <:+: cs i

theorem infix_readSoFar {cs : Nat → List UInt8} {i n : Nat} (hi : i < n) (h : ack <:+: cs i) :
    ack <:+: readSoFar cs n :=
  h.trans (List.infix_of_mem_flatten (List.mem_map.2 ⟨i, List.mem_range.2 hi, rfl⟩))

theorem LeavesOnAck.unsplit {d : Device} {l : List Ev} {a : Args} {cs : Nat → List UInt8} (haccept : d.Accepts)
    (hclock : d.InTime) (hread : d.Chunks l cs) (h : LeavesOnAck d l a cs) : Unsplit cs := by
  intro n hn
  obtain ⟨e, he, hle⟩ := (h n (1035 + n) (Nat.le_refl _)).2 hn
  have hrun := handshakeLoop_run haccept hclock hread (show 1034 < 1035 + n by omega) a
  unfold Sat at hrun
  rw [he] at hrun
  rcases hrun with ⟨_, i, hack, _, hi⟩ | ⟨hstop, _⟩
  · dsimp only at hi
    exact ⟨i, by omega, hack⟩
  · exact nomatch hstop

theorem Unsplit.leavesOnAck {d : Device} {l : List Ev} {a : Args} {cs : Nat → List UInt8} (haccept : d.Accepts)
    (hclock : d.InTime) (hread : d.Chunks l cs) (h : Unsplit cs) : LeavesOnAck d l a cs := by
  intro n fuel hf
  have hrun := handshakeLoop_run haccept hclock hread (show 1034 < fuel by omega) a
  unfold Sat at hrun
  constructor
  · rintro ⟨e, he, hle⟩
    rw [he] at hrun
    rcases hrun with ⟨_, i, hack, _, hi⟩ | ⟨hstop, _⟩
    · dsimp only at hi
      exact infix_readSoFar (by omega) hack
    · exact nomatch hstop
  · intro hn
    obtain ⟨i, hi, hack⟩ := h n hn
    rcases hrun with ⟨hret, j, _, hmin, hj⟩ | ⟨_, hnone⟩
    · refine ⟨_, Prod.ext hret rfl, ?_⟩
      have hji : ¬ i < j := fun hij => hmin i hij hack
      exact Nat.le_trans (Nat.le_of_eq hj) (by omega)
    · exact absurd hack (hnone i (by omega))

/-- **The handshake sees the stream exactly when no read boundary cuts the acknowledgement**: on a line whose reads and
writes succeed, within the time limit. -/
theorem handshakeLoop_leavesOnAck_iff {d : Device} {l : List Ev} {cs : Nat → List UInt8} (haccept : d.Accepts)
    (hclock : d.InTime) (hread : d.Chunks l cs) (a : Args) : LeavesOnAck d l a cs ↔ Unsplit cs :=
  ⟨fun h => h.unsplit haccept hclock hread, fun h => h.leavesOnAck haccept hclock hread⟩

theorem scriptDevice_inTime (script : List (List UInt8)) : (scriptDevice script).InTime := by
  intro l e
  show (0 : Int) - 0 ≤ 10
  decide

theorem scriptDevice_chunks {script : List (List UInt8)} (h : ∀ bs ∈ script, bs.length ≤ 32) :
    (scriptDevice script).Chunks [] (fun n => script.getD n []) := by
  intro e
  show ReadRes.data ((script.getD (nreads e) []).take 32) = .data (script.getD (nreads e) [])
  rw [List.take_of_length_le]
  rw [List.getD_eq_getElem?_getD]
  cases hs : script[nreads e]? with
  | none    => exact Nat.zero_le _
  | some bs => exact h bs (List.mem_of_getElem? hs)

theorem handshakeLoop_leavesOnAck_whole :
    LeavesOnAck (scriptDevice [ack]) [] ⟨[], 115200, false⟩ (fun n => [ack].getD n []) := by
  refine (handshakeLoop_leavesOnAck_iff (scriptDevice_accepts _) (scriptDevice_inTime _)
    (scriptDevice_chunks (by decide)) _).2 (fun n hn => ?_)
  cases n with
  | zero   => exact absurd hn (by decide)
  | succ n => exact ⟨0, Nat.succ_pos n, List.infix_rfl⟩

/-- The acknowledgement in two reads. -/
def splitAck : List (List UInt8) := [ack.take 5, ack.drop 5]

/-- **An acknowledgement in two reads is missed.** -/
theorem handshakeLoop_misses_split :
    ¬ LeavesOnAck (scriptDevice splitAck) [] ⟨[], 115200, false⟩ (fun n => splitAck.getD n []) := by
  intro h
  obtain ⟨i, hi, hack⟩ := h.unsplit (scriptDevice_accepts _) (scriptDevice_inTime _) (scriptDevice_chunks (by decide)) 2
    (by decide)
  have hno : ∀ i < 2, ¬ ack <:+: splitAck.getD i [] := by decide
  exact hno i hi hack

end Ws63Flash
