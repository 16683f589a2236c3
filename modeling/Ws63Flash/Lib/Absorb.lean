import Mathlib.Data.List.Basic
/-!
# Absorb — a function of one block, over the blocks of a text that arrives in pieces

`absorb n f k` folds `f` over the first `k` blocks of `n` elements.  A program that is fed a text piece by piece keeps the
value so far and what it could not absorb yet; `Fed` says that the two stand for the text, whatever the pieces were.
-/
namespace Absorb

variable {α σ : Type*} (n : Nat) (f : σ → List α → σ)

def absorb : Nat → σ → List α → σ
  | 0, s, _      => s
  | k + 1, s, bs => absorb k (f s (bs.take n)) (bs.drop n)

@[simp] theorem absorb_zero (s : σ) (bs : List α) : absorb n f 0 s bs = s := rfl

theorem absorb_succ (k : Nat) (s : σ) (bs : List α) :
    absorb n f (k + 1) s bs = absorb n f k (f s (bs.take n)) (bs.drop n) := rfl

/-- What follows the blocks does not matter. -/
theorem absorb_append : ∀ (k : Nat) (s : σ) {bs : List α} (more : List α), n * k ≤ bs.length →
    absorb n f k s (bs ++ more) = absorb n f k s bs
  | 0, _, _, _, _       => rfl
  | k + 1, s, bs, more, h => by
    rw [Nat.mul_add_one] at h
    rw [absorb_succ, absorb_succ, List.take_append_of_le_length (by omega), List.drop_append_of_le_length (by omega)]
    exact absorb_append k _ more (by rw [List.length_drop]; omega)

theorem absorb_add : ∀ (j k : Nat) (s : σ) (bs : List α),
    absorb n f (j + k) s bs = absorb n f k (absorb n f j s bs) (bs.drop (n * j))
  | 0, k, s, bs     => by rw [Nat.zero_add, Nat.mul_zero, List.drop_zero, absorb_zero]
  | j + 1, k, s, bs => by
    rw [Nat.add_right_comm, absorb_succ, absorb_succ, absorb_add j k, List.drop_drop, Nat.mul_add_one, Nat.add_comm n]

/-- A map that takes one step to another takes the folds to each other. -/
theorem map_absorb {τ : Type*} {n : Nat} {f : σ → List α → σ} {g : τ → List α → τ} (φ : σ → τ) {P : σ → Prop}
    (hP : ∀ s b, P s → P (f s b)) (h : ∀ s b, P s → b.length = n → φ (f s b) = g (φ s) b) :
    ∀ (k : Nat) (s : σ) (bs : List α), P s → n * k ≤ bs.length → φ (absorb n f k s bs) = absorb n g k (φ s) bs
  | 0, _, _, _, _       => rfl
  | k + 1, s, bs, hs, hk => by
    rw [Nat.mul_add_one] at hk
    rw [absorb_succ, absorb_succ, map_absorb φ hP h k _ _ (hP s _ hs) (by rw [List.length_drop]; omega),
      h s _ hs (by rw [List.length_take]; omega)]

/-- After `text`, `k` blocks are in `s`, and `rest` is still to be absorbed. -/
structure Fed (s₀ : σ) (text : List α) (k : Nat) (s : σ) (rest : List α) : Prop where
  le : n * k ≤ text.length
  state : s = absorb n f k s₀ text
  rest : rest = text.drop (n * k)

variable {n f} {s₀ s : σ} {text rest : List α} {k : Nat}

theorem Fed.nil : Fed n f s₀ [] 0 s₀ [] := ⟨Nat.le_refl _, rfl, rfl⟩

theorem Fed.append (h : Fed n f s₀ text k s rest) (more : List α) : Fed n f s₀ (text ++ more) k s (rest ++ more) where
  le := by rw [List.length_append]; exact Nat.le_add_right_of_le h.le
  state := by rw [h.state, absorb_append n f k s₀ more h.le]
  rest := by rw [h.rest, List.drop_append_of_le_length h.le]

theorem Fed.length (h : Fed n f s₀ text k s rest) : n * k + rest.length = text.length := by
  have := h.le
  rw [h.rest, List.length_drop]
  omega

/-- `j` more blocks go in. -/
theorem Fed.blocks (h : Fed n f s₀ text k s rest) {j : Nat} (hj : n * j ≤ rest.length) :
    Fed n f s₀ text (k + j) (absorb n f j s rest) (rest.drop (n * j)) where
  le := by have := h.length; rw [Nat.mul_add]; omega
  state := by rw [absorb_add, ← h.state, ← h.rest]
  rest := by rw [h.rest, List.drop_drop, Nat.mul_add]

/-- A text of whole blocks, all of them absorbed. -/
theorem Fed.whole (h : Fed n f s₀ text k s []) : s = absorb n f k s₀ text ∧ text.length = n * k :=
  ⟨h.state, h.length.symm⟩

end Absorb
