import Ws63Flash.Lib.Proc
/-!
# Relate — two processes that do the same

`Relate S m m'` says that `m` and `m'` leave the same events in every environment, and stop alike or return results that
`S` relates.  One rule for each way to build a process; for a loop, a relation between its states.
-/
namespace Proc

variable {δ ε α β γ κ σ τ : Type}

inductive Alike (S : α → β → Prop) : Out α × List ε → Out β × List ε → Prop where
  | ret {a : α} {b : β} (e : List ε) (h : S a b) : Alike S (.ret a, e) (.ret b, e)
  | stop (x : Halt) (e : List ε) : Alike S (.stop x, e) (.stop x, e)

def Relate (S : α → β → Prop) (m : Proc δ ε α) (m' : Proc δ ε β) : Prop := ∀ d l, Alike S (m d l) (m' d l)

theorem Relate.pure {S : α → β → Prop} {a : α} {b : β} (h : S a b) :
    Relate S (Pure.pure a : Proc δ ε α) (Pure.pure b : Proc δ ε β) := fun _ _ => .ret [] h

theorem Relate.refl (m : Proc δ ε α) : Relate Eq m m := by
  intro d l
  rcases m d l with ⟨a | x, e⟩
  · exact .ret e rfl
  · exact .stop x e

theorem Relate.bind {S : α → β → Prop} {T : γ → κ → Prop} {m : Proc δ ε α} {m' : Proc δ ε β} {k : α → Proc δ ε γ}
    {k' : β → Proc δ ε κ} (hm : Relate S m m') (hk : ∀ a b, S a b → Relate T (k a) (k' b)) :
    Relate T (m >>= k) (m' >>= k') := by
  intro d l
  have h := hm d l
  generalize hu : m d l = u at h
  generalize hv : m' d l = v at h
  cases h with
  | ret e hS =>
    rw [bind_ret hu, bind_ret hv]
    have hnext := hk _ _ hS d (l ++ e)
    generalize k _ d (l ++ e) = p at hnext ⊢
    generalize k' _ d (l ++ e) = q at hnext ⊢
    cases hnext with
    | ret e' hT  => exact .ret _ hT
    | stop x e'  => exact .stop x _
  | stop x e =>
    rw [bind_stop hu, bind_stop hv]
    exact .stop x e

/-- The same first part. -/
theorem Relate.then {T : γ → κ → Prop} (m : Proc δ ε α) {k : α → Proc δ ε γ} {k' : α → Proc δ ε κ}
    (hk : ∀ a, Relate T (k a) (k' a)) : Relate T (m >>= k) (m >>= k') :=
  (Relate.refl m).bind (fun a b h => by cases h; exact hk a)

/-- Turns that go on from related states, or leave with related results. -/
inductive IterRel (R : σ → τ → Prop) (S : α → β → Prop) : Iter σ α → Iter τ β → Prop where
  | next {s : σ} {t : τ} (h : R s t) : IterRel R S (.next s) (.next t)
  | done {a : α} {b : β} (h : S a b) : IterRel R S (.done a) (.done b)

theorem Relate.loop {R : σ → τ → Prop} {S : α → β → Prop} {body : σ → Proc δ ε (Iter σ α)}
    {body' : τ → Proc δ ε (Iter τ β)} (h : ∀ s t, R s t → Relate (IterRel R S) (body s) (body' t)) :
    ∀ (n : Nat) (s : σ) (t : τ), R s t → Relate S (Proc.loop body n s) (Proc.loop body' n t)
  | 0, _, _, _      => fun _ _ => .stop .pending []
  | n + 1, s, t, hR => by
    rw [loop_succ, loop_succ]
    refine (h s t hR).bind (fun i j hij => ?_)
    cases hij with
    | next hst => exact Relate.loop h n _ _ hst
    | done hab => exact Relate.pure hab

end Proc
