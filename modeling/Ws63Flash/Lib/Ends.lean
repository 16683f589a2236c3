import Ws63Flash.Lib.Proc
/-!
# Ends — processes that come to an end

A process with loops is a function of its budget.  `Ends bad m d l Q` says of such a process, started after the events
`l`, that from some budget on it returns, each time with the same result and events, and these satisfy `Q`; or that from
some budget on its events are `bad`, a thing that no later event undoes.  One rule for each way to build a process;
`Ends.loop` is the variant rule, with a variant that may look at the events.
-/
namespace Proc

variable {δ ε α β σ : Type}

/-- What later events do not undo. -/
def Lasting (bad : List ε → Prop) : Prop := ∀ l e, bad l → bad (l ++ e)

def Ends (bad : List ε → Prop) (m : Nat → Proc δ ε α) (d : δ) (l : List ε) (Q : α → List ε → Prop) : Prop :=
  (∃ a e n, (∀ fuel, n ≤ fuel → m fuel d l = (.ret a, e)) ∧ Q a (l ++ e)) ∨
    ∃ n, ∀ fuel, n ≤ fuel → bad (l ++ (m fuel d l).2)

/-- Nothing is bad. -/
abbrev Harmless : List ε → Prop := fun _ => False

theorem Lasting.harmless : Lasting (Harmless : List ε → Prop) := fun _ _ h => h

section

variable {bad : List ε → Prop} {d : δ} {l : List ε}

theorem Ends.of_run {m : Proc δ ε α} {Q : α → List ε → Prop} {a : α} {e : List ε} (h : m d l = (.ret a, e))
    (hQ : Q a (l ++ e)) : Ends bad (fun _ => m) d l Q := Or.inl ⟨a, e, 0, fun _ _ => h, hQ⟩

theorem Ends.pure {a : α} {Q : α → List ε → Prop} (h : Q a l) : Ends bad (fun _ => (Pure.pure a : Proc δ ε α)) d l Q :=
  Ends.of_run (pure_run a d l) (by rwa [List.append_nil])

theorem Ends.of_sat {m : Proc δ ε α} {Q : α → List ε → Prop} (h : Sat m d l (fun o e => ∃ a, o = .ret a ∧ Q a (l ++ e))) :
    Ends bad (fun _ => m) d l Q := by
  obtain ⟨a, ha, hQ⟩ := h
  exact Ends.of_run (Prod.ext ha rfl) hQ

theorem Ends.mono {m : Nat → Proc δ ε α} {P Q : α → List ε → Prop} (h : Ends bad m d l P) (hPQ : ∀ a l, P a l → Q a l) :
    Ends bad m d l Q := by
  rcases h with ⟨a, e, n, hrun, hP⟩ | h
  · exact Or.inl ⟨a, e, n, hrun, hPQ a _ hP⟩
  · exact Or.inr h

theorem Ends.bind {m : Nat → Proc δ ε α} {k : Nat → α → Proc δ ε β} {P : α → List ε → Prop} {Q : β → List ε → Prop}
    (hb : Lasting bad) (hm : Ends bad m d l P) (hk : ∀ a l, P a l → Ends bad (fun fuel => k fuel a) d l Q) :
    Ends bad (fun fuel => m fuel >>= k fuel) d l Q := by
  rcases hm with ⟨a, e, n, hrun, hP⟩ | ⟨n, hbad⟩
  · rcases hk a _ hP with ⟨b, e', n', hrun', hQ⟩ | ⟨n', hbad⟩
    · refine Or.inl ⟨b, e ++ e', max n n', fun fuel hf => ?_, by rwa [← List.append_assoc]⟩
      have hk' : k fuel a d (l ++ e) = (.ret b, e') := hrun' fuel (by omega)
      have hm' := bind_ret (k := k fuel) (hrun fuel (by omega))
      rw [hk'] at hm'
      exact hm'
    · refine Or.inr ⟨max n n', fun fuel hf => ?_⟩
      have hm' : ((m fuel >>= k fuel) d l).2 = e ++ (k fuel a d (l ++ e)).2 := by
        rw [bind_ret (hrun fuel (by omega))]
      have hbad' := hbad fuel (by omega)
      rw [List.append_assoc, ← hm'] at hbad'
      exact hbad'
  · refine Or.inr ⟨n, fun fuel hf => ?_⟩
    obtain ⟨e, he⟩ := bind_events (m fuel) (k fuel) d l
    have hbad' := hb _ e (hbad fuel hf)
    rw [List.append_assoc, he] at hbad'
    exact hbad'

/-- **The variant rule**: a loop whose every turn makes `μ` smaller ends. -/
theorem Ends.loop {body : Nat → σ → Proc δ ε (Iter σ α)} {Q : α → List ε → Prop} (hb : Lasting bad)
    (I : σ → List ε → Prop) (μ : σ → List ε → Nat)
    (hstep : ∀ s l, I s l → Ends bad (fun fuel => body fuel s) d l (fun i l' => match i with
      | .next s' => I s' l' ∧ μ s' l' < μ s l
      | .done a  => Q a l')) (s : σ) (h0 : I s l) : Ends bad (fun fuel => Proc.loop (body fuel) fuel s) d l Q := by
  -- the budget of the turns and the number of turns are told apart
  have hgen : ∀ (x : Nat) (s : σ) (l : List ε), I s l → μ s l = x →
      (∃ a e n, (∀ fuel k, n ≤ fuel → n ≤ k → Proc.loop (body fuel) k s d l = (.ret a, e)) ∧ Q a (l ++ e)) ∨
        ∃ n, ∀ fuel k, n ≤ fuel → n ≤ k → bad (l ++ (Proc.loop (body fuel) k s d l).2) := by
    intro x
    induction x using Nat.strongRecOn with
    | _ x ih =>
      rintro s l hI rfl
      rcases hstep s l hI with ⟨i, e, n, hrun, hi⟩ | ⟨n, hbad⟩
      · rcases i with s' | a
        · obtain ⟨hI', hlt⟩ := hi
          rcases ih _ hlt s' (l ++ e) hI' rfl with ⟨a, e', n', hrun', hQ⟩ | ⟨n', hbad⟩
          · refine Or.inl ⟨a, e ++ e', max n n' + 1, fun fuel k hf hk => ?_, by rwa [← List.append_assoc]⟩
            obtain ⟨k, rfl⟩ := Nat.exists_eq_add_of_le' (Nat.le_trans (Nat.le_add_left 1 _) hk)
            rw [loop_succ, bind_ret (hrun fuel (by omega))]
            dsimp only
            rw [hrun' fuel k (by omega) (by omega)]
          · refine Or.inr ⟨max n n' + 1, fun fuel k hf hk => ?_⟩
            obtain ⟨k, rfl⟩ := Nat.exists_eq_add_of_le' (Nat.le_trans (Nat.le_add_left 1 _) hk)
            rw [loop_succ, bind_ret (hrun fuel (by omega)), ← List.append_assoc]
            exact hbad fuel k (by omega) (by omega)
        · refine Or.inl ⟨a, e, n + 1, fun fuel k hf hk => ?_, hi⟩
          obtain ⟨k, rfl⟩ := Nat.exists_eq_add_of_le' (Nat.le_trans (Nat.le_add_left 1 _) hk)
          rw [loop_succ, bind_ret (hrun fuel (by omega))]
          dsimp only
          rw [pure_run, List.append_nil]
      · refine Or.inr ⟨n + 1, fun fuel k hf hk => ?_⟩
        obtain ⟨k, rfl⟩ := Nat.exists_eq_add_of_le' (Nat.le_trans (Nat.le_add_left 1 _) hk)
        obtain ⟨e, he⟩ := loop_events (body fuel) k s d l
        rw [← he, ← List.append_assoc]
        exact hb _ e (hbad fuel (by omega))
  rcases hgen _ s l h0 rfl with ⟨a, e, n, hrun, hQ⟩ | ⟨n, hbad⟩
  · exact Or.inl ⟨a, e, n, fun fuel hf => hrun fuel fuel hf hf, hQ⟩
  · exact Or.inr ⟨n, fun fuel hf => hbad fuel fuel hf hf⟩

/-- What every result of the process satisfies. -/
theorem Ends.and_returns {m : Nat → Proc δ ε α} {P : α → Prop} {Q : α → List ε → Prop} (h : Ends bad m d l Q)
    (hP : ∀ fuel, ReturnsIn d (m fuel) P) : Ends bad m d l (fun a l' => Q a l' ∧ P a) := by
  rcases h with ⟨a, e, n, hrun, hQ⟩ | h
  · have hsat := hP n l
    unfold Sat at hsat
    rw [hrun n (Nat.le_refl n)] at hsat
    exact Or.inl ⟨a, e, n, hrun, hQ, hsat a rfl⟩
  · exact Or.inr h

/-- A process that does nothing bad returns. -/
theorem Ends.returns {m : Nat → Proc δ ε α} {Q : α → List ε → Prop} (h : Ends bad m d l Q)
    (hgood : ∀ fuel, ¬ bad (l ++ (m fuel d l).2)) : ∃ a n, ∀ fuel, n ≤ fuel → (m fuel d l).1 = .ret a := by
  rcases h with ⟨a, e, n, hrun, _⟩ | ⟨n, hbad⟩
  · exact ⟨a, n, fun fuel hf => by rw [hrun fuel hf]⟩
  · exact absurd (hbad n (Nat.le_refl n)) (hgood n)

end

end Proc
