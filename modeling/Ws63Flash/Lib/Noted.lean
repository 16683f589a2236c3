import Ws63Flash.Lib.Proc
/-!
# Noted — processes that leave notes

A process that leaves notes beside its events, which stay when it stops.  `erase` drops them, and each way to build a
process is one to build a noted one: what is proved of the notes is about the process that is left.
-/

/-- The outcome, the notes and the events. -/
def Noted (δ ε ν α : Type) : Type := δ → List ε → Out α × List ν × List ε

namespace Noted

variable {δ ε ν α β : Type}

instance : Monad (Noted δ ε ν) where
  pure a := fun _ _ => (.ret a, [], [])
  bind m k := fun d l =>
    match m d l with
    | (.ret a, n, e)  => ((k a d (l ++ e)).1, n ++ (k a d (l ++ e)).2.1, e ++ (k a d (l ++ e)).2.2)
    | (.stop x, n, e) => (.stop x, n, e)

/-- A process that leaves none. -/
def quiet (m : Proc δ ε α) : Noted δ ε ν α := fun d l => ((m d l).1, [], (m d l).2)

/-- Notes, and nothing else. -/
def note (xs : List ν) : Noted δ ε ν Unit := fun _ _ => (.ret (), xs, [])

/-- The process without its notes. -/
def erase (m : Noted δ ε ν α) : Proc δ ε α := fun d l => ((m d l).1, (m d l).2.2)

/-- The notes of a run. -/
def notes (m : Noted δ ε ν α) (d : δ) (l : List ε) : List ν := (m d l).2.1

theorem bind_ret {m : Noted δ ε ν α} {k : α → Noted δ ε ν β} {d : δ} {l e : List ε} {n : List ν} {a : α}
    (h : m d l = (.ret a, n, e)) :
    (m >>= k) d l = ((k a d (l ++ e)).1, n ++ (k a d (l ++ e)).2.1, e ++ (k a d (l ++ e)).2.2) := by
  show (match m d l with | (.ret a, n, e) => _ | (.stop x, n, e) => _) = _
  rw [h]

theorem bind_stop {m : Noted δ ε ν α} {k : α → Noted δ ε ν β} {d : δ} {l e : List ε} {n : List ν} {x : Halt}
    (h : m d l = (.stop x, n, e)) : (m >>= k) d l = (.stop x, n, e) := by
  show (match m d l with | (.ret a, n, e) => _ | (.stop x, n, e) => _) = _
  rw [h]

theorem quiet_pure_bind (a : α) (k : α → Noted δ ε ν β) : quiet (pure a) >>= k = k a := by
  funext d l
  rw [bind_ret (show quiet (pure a) d l = (.ret a, [], []) from rfl), List.append_nil]
  rfl

theorem bind_assoc_run {γ : Type} (m : Noted δ ε ν α) (k : α → Noted δ ε ν β) (k' : β → Noted δ ε ν γ) :
    m >>= k >>= k' = m >>= fun a => k a >>= k' := by
  funext d l
  rcases hm : m d l with ⟨a | x, n, e⟩
  · rw [bind_ret hm]
    rcases hk : k a d (l ++ e) with ⟨b | y, n', e'⟩
    · rw [bind_ret ((bind_ret hm).trans (by rw [hk])), bind_ret hk, List.append_assoc, List.append_assoc, List.append_assoc]
    · rw [bind_stop ((bind_ret hm).trans (by rw [hk])), bind_stop hk]
  · rw [bind_stop hm, bind_stop (bind_stop hm)]

/-! ## Dropping the notes -/

@[simp] theorem erase_pure (a : α) : erase (pure a : Noted δ ε ν α) = pure a := rfl

@[simp] theorem erase_quiet (m : Proc δ ε α) : erase (quiet m : Noted δ ε ν α) = m := rfl

@[simp] theorem erase_note (xs : List ν) : erase (note xs : Noted δ ε ν Unit) = pure () := rfl

@[simp] theorem erase_bind (m : Noted δ ε ν α) (k : α → Noted δ ε ν β) :
    erase (m >>= k) = erase m >>= fun a => erase (k a) := by
  funext d l
  rcases hm : m d l with ⟨a | x, n, e⟩
  · rw [Proc.bind_ret (show erase m d l = (.ret a, e) by rw [erase, hm]), erase, bind_ret hm]
    rfl
  · rw [Proc.bind_stop (show erase m d l = (.stop x, e) by rw [erase, hm]), erase, bind_stop hm]

theorem erase_ite (p : Prop) [Decidable p] (m k : Noted δ ε ν α) :
    erase (if p then m else k) = if p then erase m else erase k := apply_ite erase p m k

/-! ## What is noted -/

theorem notes_note_bind (xs : List ν) (k : Unit → Noted δ ε ν β) (d : δ) (l : List ε) :
    notes (note xs >>= k) d l = xs ++ notes (k ()) d l := by
  rw [notes, bind_ret (show note xs d l = (.ret (), xs, []) from rfl), List.append_nil]
  rfl

/-- What the first part notes stays. -/
theorem notes_bind_left {m : Noted δ ε ν α} (k : α → Noted δ ε ν β) {d : δ} {l : List ε} {x : ν}
    (hx : x ∈ notes m d l) : x ∈ notes (m >>= k) d l := by
  unfold notes at hx ⊢
  rcases hm : m d l with ⟨a | h, n, e⟩
  · rw [hm] at hx
    rw [bind_ret hm]
    exact List.mem_append_left _ hx
  · rw [hm] at hx
    rw [bind_stop hm]
    exact hx

/-- What follows a part that returns is noted. -/
theorem notes_bind_right {m : Noted δ ε ν α} {k : α → Noted δ ε ν β} {d : δ} {l : List ε} {x : ν} {a : α}
    (ha : (erase m d l).1 = .ret a) (hx : x ∈ notes (k a) d (l ++ (erase m d l).2)) : x ∈ notes (m >>= k) d l := by
  unfold erase at ha hx
  unfold notes at hx ⊢
  rcases hm : m d l with ⟨a' | h, n, e⟩
  · rw [hm] at ha hx
    cases ha
    rw [bind_ret hm]
    exact List.mem_append_right _ hx
  · rw [hm] at ha
    cases ha

/-- Every note of `m` satisfies `P`, whatever the environment. -/
def All (P : ν → Prop) (m : Noted δ ε ν α) : Prop := ∀ d l, ∀ x ∈ notes m d l, P x

theorem All.pure {P : ν → Prop} (a : α) : All P (Pure.pure a : Noted δ ε ν α) :=
  fun _ _ _ hx => absurd hx List.not_mem_nil

theorem All.quiet {P : ν → Prop} (m : Proc δ ε α) : All P (Noted.quiet m) :=
  fun _ _ _ hx => absurd hx List.not_mem_nil

theorem All.note {P : ν → Prop} {xs : List ν} (h : ∀ x ∈ xs, P x) : All P (Noted.note xs : Noted δ ε ν Unit) :=
  fun _ _ => h

theorem All.bind {P : ν → Prop} {m : Noted δ ε ν α} {k : α → Noted δ ε ν β} (hm : All P m) (hk : ∀ a, All P (k a)) :
    All P (m >>= k) := by
  intro d l x hx
  have hfst := hm d l
  unfold notes at hx hfst
  rcases h : m d l with ⟨a | y, n, e⟩
  · rw [h] at hfst
    rw [bind_ret h] at hx
    rcases List.mem_append.1 hx with hx | hx
    · exact hfst x hx
    · exact hk a d (l ++ e) x hx
  · rw [h] at hfst
    rw [bind_stop h] at hx
    exact hfst x hx

theorem All.ite {P : ν → Prop} {c : Prop} [Decidable c] {m k : Noted δ ε ν α} (hm : All P m) (hk : All P k) :
    All P (if c then m else k) := by
  split
  · exact hm
  · exact hk

end Noted
