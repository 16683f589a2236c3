import Mathlib.Logic.Basic
import Mathlib.Tactic.TypeStar
/-!
# Proc — processes over an adaptive environment

A process acts on an environment that answers each action from everything that happened before it, and leaves a list of
events.  `Proc δ ε α` is such a process as a function of the environment `δ` and the events so far; it yields its
outcome and the events it adds, so that no process can forget an event.  A loop runs on a budget: `Halt.pending` is the
outcome of a run observed before its end, and a statement for every budget is one about every run.

`Sat m d l Q` says that `m`, started after the events `l` in the environment `d`, ends in an outcome and with added
events that satisfy `Q`.  One rule for each way to build a process; `Sat.loop` is the invariant rule.
-/

/-- Why a run has no result: it is still going, an assertion failed, or it left the objects of the program. -/
inductive Halt where
  | pending
  | abort
  | undefined
deriving DecidableEq, Repr

/-- The outcome of a run. -/
inductive Out (α : Type) where
  | ret (a : α)
  | stop (h : Halt)
deriving DecidableEq, Repr

/-- What one iteration of a loop says: go on from a new state, or leave with a result. -/
inductive Iter (σ α : Type) where
  | next (s : σ)
  | done (a : α)

/-- A turn that leaves the loop leaves it with a result that satisfies `P`. -/
def Iter.Ends {σ α : Type} (P : α → Prop) : Iter σ α → Prop
  | .next _ => True
  | .done a => P a

def Proc (δ ε α : Type) : Type := δ → List ε → Out α × List ε

namespace Proc

variable {δ ε α β γ σ τ : Type}

instance : Monad (Proc δ ε) where
  pure a := fun _ _ => (.ret a, [])
  bind m k := fun d l =>
    match m d l with
    | (.ret a, e)  => ((k a d (l ++ e)).1, e ++ (k a d (l ++ e)).2)
    | (.stop h, e) => (.stop h, e)

/-- One action: the environment answers from the events so far, and the event is kept. -/
def act (f : δ → List ε → ε × α) : Proc δ ε α := fun d l => (.ret (f d l).2, [(f d l).1])

def halt (h : Halt) : Proc δ ε α := fun _ _ => (.stop h, [])

/-- An outcome computed without the environment. -/
def lift : Out α → Proc δ ε α
  | .ret a  => pure a
  | .stop h => halt h

def loop (body : σ → Proc δ ε (Iter σ α)) : Nat → σ → Proc δ ε α
  | 0, _     => halt .pending
  | n + 1, s => do
    match ← body s with
    | .next s' => loop body n s'
    | .done a  => pure a

theorem pure_run (a : α) (d : δ) (l : List ε) : (pure a : Proc δ ε α) d l = (.ret a, []) := rfl

theorem bind_ret {m : Proc δ ε α} {k : α → Proc δ ε β} {d : δ} {l e : List ε} {a : α} (h : m d l = (.ret a, e)) :
    (m >>= k) d l = ((k a d (l ++ e)).1, e ++ (k a d (l ++ e)).2) := by
  show (match m d l with | (.ret a, e) => _ | (.stop h, e) => _) = _
  rw [h]

theorem bind_stop {m : Proc δ ε α} {k : α → Proc δ ε β} {d : δ} {l e : List ε} {x : Halt}
    (h : m d l = (.stop x, e)) : (m >>= k) d l = (.stop x, e) := by
  show (match m d l with | (.ret a, e) => _ | (.stop h, e) => _) = _
  rw [h]

/-- A sequence goes on from the events of its first part. -/
theorem bind_events (m : Proc δ ε α) (k : α → Proc δ ε β) (d : δ) (l : List ε) :
    (m d l).2 <+: ((m >>= k) d l).2 := by
  rcases hm : m d l with ⟨a | x, e⟩
  · rw [bind_ret hm]
    exact List.prefix_append _ _
  · exact ⟨[], by rw [bind_stop hm, List.append_nil]⟩

theorem bind_pure_run (m : Proc δ ε α) : (m >>= fun a => (pure a : Proc δ ε α)) = m := by
  funext d l
  rcases hm : m d l with ⟨a | x, e⟩
  · rw [bind_ret hm, pure_run, List.append_nil]
  · exact bind_stop hm

theorem pure_bind_run (a : α) (k : α → Proc δ ε β) : (pure a : Proc δ ε α) >>= k = k a := by
  funext d l
  rw [bind_ret (pure_run a d l), List.append_nil]
  rfl

theorem bind_assoc_run (m : Proc δ ε α) (k : α → Proc δ ε β) (k' : β → Proc δ ε γ) :
    m >>= k >>= k' = m >>= fun a => k a >>= k' := by
  funext d l
  rcases hm : m d l with ⟨a | x, e⟩
  · rw [bind_ret hm]
    rcases hk : k a d (l ++ e) with ⟨b | x, e'⟩
    · rw [bind_ret (show (m >>= k) d l = (.ret b, e ++ e') by rw [bind_ret hm, hk]), bind_ret hk]
      simp only [List.append_assoc]
    · rw [bind_stop (show (m >>= k) d l = (.stop x, e ++ e') by rw [bind_ret hm, hk]), bind_stop hk]
  · rw [bind_stop hm, bind_stop (bind_stop hm)]

instance : LawfulMonad (Proc δ ε) := LawfulMonad.mk' _ bind_pure_run pure_bind_run bind_assoc_run

theorem halt_bind (x : Halt) (k : α → Proc δ ε β) : (halt x : Proc δ ε α) >>= k = halt x := rfl

theorem loop_succ (body : σ → Proc δ ε (Iter σ α)) (n : Nat) (s : σ) :
    loop body (n + 1) s = body s >>= fun i => match i with
      | .next s' => loop body n s'
      | .done a  => pure a := rfl

/-- A loop goes on from the events of its first turn. -/
theorem loop_events (body : σ → Proc δ ε (Iter σ α)) (n : Nat) (s : σ) (d : δ) (l : List ε) :
    (body s d l).2 <+: (loop body (n + 1) s d l).2 := bind_events _ _ d l

/-- A process with the events that it adds, when it returns. -/
def listen (m : Proc δ ε α) : Proc δ ε (α × List ε) := fun d l =>
  match m d l with
  | (.ret a, e)  => (.ret (a, e), e)
  | (.stop h, e) => (.stop h, e)

theorem listen_ret {m : Proc δ ε α} {d : δ} {l e : List ε} {a : α} (h : m d l = (.ret a, e)) :
    listen m d l = (.ret (a, e), e) := by
  rw [listen, h]

theorem listen_stop {m : Proc δ ε α} {d : δ} {l e : List ε} {x : Halt} (h : m d l = (.stop x, e)) :
    listen m d l = (.stop x, e) := by
  rw [listen, h]

/-- What does not look at the events goes on as before. -/
theorem listen_bind (m : Proc δ ε α) (k : α → Proc δ ε β) : (listen m >>= fun s => k s.1) = m >>= k := by
  funext d l
  rcases hm : m d l with ⟨a | x, e⟩
  · rw [bind_ret hm, bind_ret (listen_ret hm)]
  · rw [bind_stop hm, bind_stop (listen_stop hm)]

/-- The runs of processes one after the other. -/
def runs (d : δ) : List ε → List (Proc δ ε α) → List (Out α × List ε)
  | _, []      => []
  | l, m :: ms => m d l :: runs d (l ++ (m d l).2) ms

/-! ## Simulation -/

/-- Two turns with the same events that go on from states related by `R`, or end alike. -/
inductive Lockstep (R : σ → τ → Prop) : Out (Iter σ α) × List ε → Out (Iter τ α) × List ε → Prop where
  | next {s : σ} {t : τ} (e : List ε) (h : R s t) : Lockstep R (.ret (.next s), e) (.ret (.next t), e)
  | done (a : α) (e : List ε) : Lockstep R (.ret (.done a), e) (.ret (.done a), e)
  | stop (x : Halt) (e : List ε) : Lockstep R (.stop x, e) (.stop x, e)

theorem Lockstep.bind {R : σ → τ → Prop} {m : Proc δ ε β} {k : β → Proc δ ε (Iter σ α)} {k' : β → Proc δ ε (Iter τ α)}
    (h : ∀ b d l, Lockstep R (k b d l) (k' b d l)) (d : δ) (l : List ε) :
    Lockstep R ((m >>= k) d l) ((m >>= k') d l) := by
  rcases hm : m d l with ⟨b | x, e⟩
  · rw [bind_ret hm, bind_ret hm]
    have hb := h b d (l ++ e)
    generalize k b d (l ++ e) = u at hb ⊢
    generalize k' b d (l ++ e) = v at hb ⊢
    cases hb with
    | next e' hR => exact .next _ hR
    | done a e'  => exact .done a _
    | stop x e'  => exact .stop x _
  · rw [bind_stop hm, bind_stop hm]
    exact .stop x e

/-- **Loops in lockstep** are the same process. -/
theorem loop_sim {body : σ → Proc δ ε (Iter σ α)} {body' : τ → Proc δ ε (Iter τ α)} (R : σ → τ → Prop)
    (h : ∀ s t, R s t → ∀ d l, Lockstep R (body s d l) (body' t d l)) : ∀ (n : Nat) (s : σ) (t : τ), R s t →
    loop body n s = loop body' n t
  | 0, _, _, _      => rfl
  | n + 1, s, t, hR => by
    funext d l
    have hstep := h s t hR d l
    rw [loop_succ, loop_succ]
    generalize hs : body s d l = u at hstep
    generalize ht : body' t d l = v at hstep
    cases hstep with
    | next e hst =>
      rw [bind_ret hs, bind_ret ht]
      dsimp only
      rw [loop_sim R h n _ _ hst]
    | done a e => rw [bind_ret hs, bind_ret ht]
    | stop x e => rw [bind_stop hs, bind_stop ht]

/-! ## Satisfaction -/

/-- `m` in the environment `d` after the events `l` ends as `Q` says. -/
def Sat (m : Proc δ ε α) (d : δ) (l : List ε) (Q : Out α → List ε → Prop) : Prop := Q (m d l).1 (m d l).2

variable {d : δ} {l : List ε}

theorem Sat.mono {m : Proc δ ε α} {Q R : Out α → List ε → Prop} (hm : Sat m d l Q) (h : ∀ o e, Q o e → R o e) :
    Sat m d l R := h _ _ hm

theorem Sat.and {m : Proc δ ε α} {Q R : Out α → List ε → Prop} (hQ : Sat m d l Q) (hR : Sat m d l R) :
    Sat m d l (fun o e => Q o e ∧ R o e) := ⟨hQ, hR⟩

theorem Sat.pure {a : α} {Q : Out α → List ε → Prop} (h : Q (.ret a) []) : Sat (Pure.pure a : Proc δ ε α) d l Q := h

theorem Sat.halt {x : Halt} {Q : Out α → List ε → Prop} (h : Q (.stop x) []) :
    Sat (Proc.halt x : Proc δ ε α) d l Q := h

theorem Sat.act {f : δ → List ε → ε × α} {Q : Out α → List ε → Prop} (h : Q (.ret (f d l).2) [(f d l).1]) :
    Sat (Proc.act f) d l Q := h

theorem Sat.bind {m : Proc δ ε α} {k : α → Proc δ ε β} {Q : Out α → List ε → Prop} {R : Out β → List ε → Prop}
    (hm : Sat m d l Q) (hk : ∀ a e, Q (.ret a) e → Sat (k a) d (l ++ e) (fun o e' => R o (e ++ e')))
    (hs : ∀ x e, Q (.stop x) e → R (.stop x) e) : Sat (m >>= k) d l R := by
  unfold Sat at hm ⊢
  rcases h : m d l with ⟨a | x, e⟩
  · rw [h] at hm
    rw [bind_ret h]
    exact hk a e hm
  · rw [h] at hm
    rw [bind_stop h]
    exact hs x e hm

/-- Sequencing after a process that always returns. -/
theorem Sat.bind_val {m : Proc δ ε α} {k : α → Proc δ ε β} {Q : α → List ε → Prop} {R : Out β → List ε → Prop}
    (hm : Sat m d l (fun o e => ∃ a, o = .ret a ∧ Q a e))
    (hk : ∀ a e, Q a e → Sat (k a) d (l ++ e) (fun o e' => R o (e ++ e'))) : Sat (m >>= k) d l R := by
  refine Sat.bind hm (fun a e ⟨b, hb, hQ⟩ => ?_) (fun x e ⟨b, hb, _⟩ => nomatch hb)
  cases hb
  exact hk a e hQ

/-- Sequencing after a process that returns `a`, if it is not still going. -/
theorem Sat.bind_pending {m : Proc δ ε α} {k : α → Proc δ ε β} {a : α} {Q : List ε → Prop} {R : Out β → List ε → Prop}
    (hm : Sat m d l (fun o e => o = .stop .pending ∨ o = .ret a ∧ Q e))
    (hk : ∀ e, Q e → Sat (k a) d (l ++ e) (fun o e' => R o (e ++ e'))) (hp : ∀ e, R (.stop .pending) e) :
    Sat (m >>= k) d l R := by
  refine Sat.bind hm (fun b e h => ?_) (fun x e h => ?_)
  · rcases h with h | ⟨h, hQ⟩
    · cases h
    · cases h
      exact hk e hQ
  · rcases h with h | ⟨h, _⟩
    · cases h
      exact hp e
    · cases h

/-- What the first part of a sequence has done stays done. -/
theorem Sat.bind_keep {m : Proc δ ε α} {k : α → Proc δ ε β} {P : List ε → Prop} (hP : ∀ e e', P e → P (e ++ e'))
    (hm : Sat m d l (fun _ e => P e)) : Sat (m >>= k) d l (fun _ e => P e) := by
  obtain ⟨e', he⟩ := bind_events m k d l
  unfold Sat at hm ⊢
  rw [← he]
  exact hP _ e' hm

theorem Sat.listen {m : Proc δ ε α} {Q : Out (α × List ε) → List ε → Prop} (h : Sat m d l (fun o e => match o with
      | .ret a  => Q (.ret (a, e)) e
      | .stop x => Q (.stop x) e)) : Sat (Proc.listen m) d l Q := by
  unfold Sat at h ⊢
  rcases hm : m d l with ⟨a | x, e⟩
  · rw [hm] at h
    rw [listen_ret hm]
    exact h
  · rw [hm] at h
    rw [listen_stop hm]
    exact h

/-- One turn of a loop. -/
theorem Sat.loop_step {body : σ → Proc δ ε (Iter σ α)} {Q : Out α → List ε → Prop} {n : Nat} {s : σ}
    (h : Sat (body s) d l (fun o e => match o with
      | .ret (.next s') => Sat (Proc.loop body n s') d (l ++ e) (fun o' e' => Q o' (e ++ e'))
      | .ret (.done a)  => Q (.ret a) e
      | .stop x         => Q (.stop x) e)) : Sat (Proc.loop body (n + 1) s) d l Q := by
  rw [loop_succ]
  refine Sat.bind h ?_ (fun x e hx => hx)
  rintro (s' | a) e he
  · exact he
  · exact Sat.pure (by simpa only [List.append_nil] using he)

/-- **The invariant rule**: `I s e` before an iteration from the state `s`, the loop having added the events `e`. -/
theorem Sat.loop {body : σ → Proc δ ε (Iter σ α)} {Q : Out α → List ε → Prop} (I : σ → List ε → Prop)
    (hstep : ∀ s e, I s e → Sat (body s) d (l ++ e) (fun o e' => match o with
      | .ret (.next s') => I s' (e ++ e')
      | .ret (.done a)  => Q (.ret a) (e ++ e')
      | .stop x         => Q (.stop x) (e ++ e')))
    (hpend : ∀ s e, I s e → Q (.stop .pending) e) (n : Nat) (s : σ) (h0 : I s []) :
    Sat (loop body n s) d l Q := by
  have hgen : ∀ (n : Nat) (s : σ) (e : List ε), I s e → Sat (Proc.loop body n s) d (l ++ e) (fun o e' => Q o (e ++ e')) := by
    intro n
    induction n with
    | zero =>
      intro s e hI
      exact Sat.halt (by rw [List.append_nil]; exact hpend s e hI)
    | succ n ih =>
      intro s e hI
      rw [loop_succ]
      refine Sat.bind (hstep s e hI) ?_ (fun x e' h => h)
      rintro (s' | a) e' h
      · have := ih s' (e ++ e') h
        simpa only [List.append_assoc] using this
      · exact Sat.pure (by simpa only [List.append_nil] using h)
  simpa only [List.append_nil, List.nil_append] using hgen n s [] h0

/-- Every result of `m` satisfies `P`, whatever the environment. -/
def Returns (m : Proc δ ε α) (P : α → Prop) : Prop := ∀ d l, Sat m d l (fun o _ => ∀ a, o = .ret a → P a)

theorem Returns.pure {a : α} {P : α → Prop} (h : P a) : Returns (Pure.pure a : Proc δ ε α) P :=
  fun _ _ => Sat.pure (fun b hb => by cases hb; exact h)

theorem Returns.any (m : Proc δ ε α) : Returns m (fun _ => True) := fun _ _ _ _ => trivial

theorem Returns.mono {m : Proc δ ε α} {P R : α → Prop} (h : Returns m P) (hPR : ∀ a, P a → R a) : Returns m R :=
  fun d l => (h d l).mono (fun _ _ ho a ha => hPR a (ho a ha))

/-- Every result of `m` in the environment `d` satisfies `P`. -/
def ReturnsIn (d : δ) (m : Proc δ ε α) (P : α → Prop) : Prop := ∀ l, Sat m d l (fun o _ => ∀ a, o = .ret a → P a)

theorem ReturnsIn.pure {a : α} {P : α → Prop} (h : P a) : ReturnsIn d (Pure.pure a : Proc δ ε α) P :=
  fun _ => Sat.pure (fun b hb => by cases hb; exact h)

theorem ReturnsIn.any (m : Proc δ ε α) : ReturnsIn d m (fun _ => True) := fun _ _ _ => trivial

theorem ReturnsIn.bind {m : Proc δ ε α} {k : α → Proc δ ε β} {P : α → Prop} {R : β → Prop} (hm : ReturnsIn d m P)
    (hk : ∀ a, P a → ReturnsIn d (k a) R) : ReturnsIn d (m >>= k) R := by
  intro l
  refine Sat.bind (hm l) (fun a e ha => ?_) (fun x e _ => fun b hb => nomatch hb)
  exact hk a (ha a rfl) (l ++ e)

theorem Returns.bind {m : Proc δ ε α} {k : α → Proc δ ε β} {P : α → Prop} {R : β → Prop} (hm : Returns m P)
    (hk : ∀ a, P a → Returns (k a) R) : Returns (m >>= k) R :=
  fun d => ReturnsIn.bind (hm d) (fun a ha => hk a ha d)

theorem Returns.loop {body : σ → Proc δ ε (Iter σ α)} {P : α → Prop}
    (h : ∀ s, Returns (body s) (Iter.Ends P)) (n : Nat) (s : σ) :
    Returns (Proc.loop body n s) P := by
  intro d l
  refine Sat.loop (fun _ _ => True) (fun s e _ => ?_) (fun _ _ _ b hb => nomatch hb) n s trivial
  refine (h s d (l ++ e)).mono (fun o e' ho => ?_)
  rcases o with (s' | a) | x
  · trivial
  · exact fun b hb => by cases hb; exact ho _ rfl
  · exact fun b hb => nomatch hb

/-- Whatever the environment, `m` does not stop for the reason `x`. -/
def Never (x : Halt) (m : Proc δ ε α) : Prop := ∀ d l, Sat m d l (fun o _ => o ≠ .stop x)

variable {x : Halt}

theorem Never.pure (a : α) : Never x (Pure.pure a : Proc δ ε α) := fun _ _ => nofun

theorem Never.act (f : δ → List ε → ε × α) : Never x (Proc.act f) := fun _ _ => nofun

theorem Never.bind {m : Proc δ ε α} {k : α → Proc δ ε β} (hm : Never x m) (hk : ∀ a, Never x (k a)) :
    Never x (m >>= k) :=
  fun d l => Sat.bind (hm d l) (fun a e _ => hk a d (l ++ e)) (fun y _ hy hx => hy (by cases hx; rfl))

theorem Never.loop {body : σ → Proc δ ε (Iter σ α)} (hx : x ≠ .pending) (h : ∀ s, Never x (body s)) (n : Nat) (s : σ) :
    Never x (Proc.loop body n s) := by
  intro d l
  refine Sat.loop (fun _ _ => True) (fun s e _ => ?_) (fun _ _ _ ho => hx (by cases ho; rfl)) n s trivial
  refine (h s d (l ++ e)).mono (fun o e' ho => ?_)
  rcases o with (s' | a) | y
  · trivial
  · exact nofun
  · exact fun hy => ho (by cases hy; rfl)

/-- **The variant rule**: a loop whose every turn makes `μ` smaller ends on a budget above `μ`. -/
theorem Sat.loop_total {body : σ → Proc δ ε (Iter σ α)} {Q : Out α → List ε → Prop} (I : σ → List ε → Prop)
    (μ : σ → Nat)
    (hstep : ∀ s e, I s e → Sat (body s) d (l ++ e) (fun o e' => match o with
      | .ret (.next s') => I s' (e ++ e') ∧ μ s' < μ s
      | .ret (.done a)  => Q (.ret a) (e ++ e')
      | .stop x         => Q (.stop x) (e ++ e'))) (n : Nat) (s : σ) (hn : μ s < n) (h0 : I s []) :
    Sat (Proc.loop body n s) d l Q := by
  have hgen : ∀ (n : Nat) (s : σ) (e : List ε), μ s < n → I s e →
      Sat (Proc.loop body n s) d (l ++ e) (fun o e' => Q o (e ++ e')) := by
    intro n
    induction n with
    | zero => exact fun s e hn _ => absurd hn (Nat.not_lt_zero _)
    | succ n ih =>
      intro s e hn hI
      rw [loop_succ]
      refine Sat.bind (hstep s e hI) ?_ (fun x e' h => h)
      rintro (s' | a) e' h
      · have := ih s' (e ++ e') (by omega) h.1
        simpa only [List.append_assoc] using this
      · exact Sat.pure (by simpa only [List.append_nil] using h)
  simpa only [List.append_nil, List.nil_append] using hgen n s [] hn h0

/-! ## Replays -/

section

variable {dev : List ε → δ}

/-- Against a device made from a script that goes on with `e`, `m` leaves the events `e` and ends in `o`. -/
def Replays (dev : List ε → δ) (m : Proc δ ε α) (e : List ε) (o : Out α) : Prop :=
  ∀ pre post, m (dev (pre ++ e ++ post)) pre = (o, e)

theorem Replays.pure (a : α) : Replays dev (Pure.pure a : Proc δ ε α) [] (.ret a) := fun _ _ => rfl

theorem Replays.bind {m : Proc δ ε α} {k : α → Proc δ ε β} {e f : List ε} {a : α} {o : Out β}
    (h : Replays dev m e (.ret a)) (hk : Replays dev (k a) f o) : Replays dev (m >>= k) (e ++ f) o := by
  intro pre post
  have h1 := h pre (f ++ post)
  have h2 := hk (pre ++ e) post
  have hscript : pre ++ (e ++ f) ++ post = pre ++ e ++ (f ++ post) := by simp only [List.append_assoc]
  rw [hscript, bind_ret h1]
  rw [List.append_assoc (pre ++ e)] at h2
  rw [h2]

/-- Going on without an event. -/
theorem Replays.then {m : Proc δ ε α} {k : α → Proc δ ε β} {e : List ε} {a : α} {o : Out β}
    (h : Replays dev m e (.ret a)) (hk : Replays dev (k a) [] o) : Replays dev (m >>= k) e o := by
  have := h.bind hk
  rwa [List.append_nil] at this

theorem Replays.loop_next {body : σ → Proc δ ε (Iter σ α)} {n : Nat} {s u : σ} {e f : List ε} {o : Out α}
    (h : Replays dev (body s) e (.ret (.next u))) (h' : Replays dev (Proc.loop body n u) f o) :
    Replays dev (Proc.loop body (n + 1) s) (e ++ f) o := Replays.bind h h'

theorem Replays.loop_done {body : σ → Proc δ ε (Iter σ α)} {n : Nat} {s : σ} {e : List ε} {a : α}
    (h : Replays dev (body s) e (.ret (.done a))) : Replays dev (Proc.loop body (n + 1) s) e (.ret a) :=
  Replays.then h (Replays.pure a)

end

end Proc
