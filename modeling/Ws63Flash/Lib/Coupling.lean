import Mathlib.Tactic.TypeStar
/-!
# Coupling — one party's events in a system

The events of one party are given, in order; before, between and after them the rest of the system takes steps of its
own.  `Coupled step event s e t` says that the system can go like that from `s` through the events `e` to `t`.  An
invariant of such a run speaks of the events still to come (`Coupled.inv`).
-/
namespace Coupling

variable {σ ε : Type*}

inductive Coupled (step : σ → σ → Prop) (event : ε → σ → σ → Prop) : σ → List ε → σ → Prop where
  | refl (s : σ) : Coupled step event s [] s
  | step {s t u : σ} {e : List ε} (hs : step s t) (h : Coupled step event t e u) : Coupled step event s e u
  | event {s t u : σ} {x : ε} {e : List ε} (hx : event x s t) (h : Coupled step event t e u) :
    Coupled step event s (x :: e) u

variable {step step' : σ → σ → Prop} {event : ε → σ → σ → Prop} {s t u : σ}

theorem Coupled.trans {e e' : List ε} (h : Coupled step event s e t) (h' : Coupled step event t e' u) :
    Coupled step event s (e ++ e') u := by
  induction h with
  | refl s => exact h'
  | step hs _ ih => exact .step hs (ih h')
  | event hx _ ih => exact .event hx (ih h')

/-- A run through `e ++ e'` has been somewhere after `e`. -/
theorem Coupled.split {e e' : List ε} (h : Coupled step event s (e ++ e') u) :
    ∃ t, Coupled step event s e t ∧ Coupled step event t e' u := by
  generalize hl : e ++ e' = l at h
  induction h generalizing e with
  | refl s =>
    obtain ⟨rfl, rfl⟩ := List.append_eq_nil_iff.1 hl
    exact ⟨s, .refl s, .refl s⟩
  | step hs _ ih =>
    obtain ⟨m, h1, h2⟩ := ih hl
    exact ⟨m, .step hs h1, h2⟩
  | event hx h ih =>
    cases e with
    | nil =>
      rw [List.nil_append] at hl
      rw [hl]
      exact ⟨_, .refl _, .event hx h⟩
    | cons y e =>
      rw [List.cons_append] at hl
      obtain ⟨rfl, htl⟩ := List.cons.inj hl
      obtain ⟨m, h1, h2⟩ := ih htl
      exact ⟨m, .event hx h1, h2⟩

/-- **The invariant rule**: `I e s` in the state `s` with the events `e` still to come. -/
theorem Coupled.inv (I : List ε → σ → Prop) (hstep : ∀ e s t, step s t → I e s → I e t)
    (hevent : ∀ x e s t, event x s t → I (x :: e) s → I e t) {e : List ε} (h : Coupled step event s e t) (h0 : I e s) :
    I [] t := by
  induction h with
  | refl s => exact h0
  | step hs _ ih => exact ih (hstep _ _ _ hs h0)
  | event hx _ ih => exact ih (hevent _ _ _ _ hx h0)

/-- **The refinement rule**: where the invariant `I` holds, a step of the one system is a step of the other. -/
theorem Coupled.refine (I : List ε → σ → Prop) (hstep : ∀ e s t, step s t → I e s → step' s t ∧ I e t)
    (hevent : ∀ x e s t, event x s t → I (x :: e) s → I e t) {e : List ε} (h : Coupled step event s e t) (h0 : I e s) :
    Coupled step' event s e t := by
  induction h with
  | refl s => exact .refl s
  | step hs _ ih =>
    obtain ⟨hs', hI⟩ := hstep _ _ _ hs h0
    exact .step hs' (ih hI)
  | event hx _ ih => exact .event hx (ih (hevent _ _ _ _ hx h0))

end Coupling
