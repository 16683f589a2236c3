import Ws63Flash.Lib.Emits
/-!
# Spends — what a process puts out for what it spends

A language for each budget says what may be put out for it.  `Spends d obs cost m good L` refines `Emits` for the
environment `d`: the output of every run of `m` is a prefix of a word of the language for what the run's events cost, and
a word of it when the run ends in a `good` result.  The parts of a sequence share a budget.
-/
namespace Language

variable {β : Type}

/-- A word of `L` and one of `M`, out of one budget. -/
def share (L M : Nat → Language β) (n : Nat) : Language β := {w | ∃ i j, i + j ≤ n ∧ w ∈ L i * M j}

/-- The word `u`, once at least, and `r` times and once more for each unit of the budget at most. -/
def upTo (r : Nat) (u : List β) (n : Nat) : Language β := {w | ∃ k, 1 ≤ k ∧ k ≤ r + n ∧ w = (List.replicate k u).flatten}

/-- The words of `us` in order, each at least once and at most `r` times, and one of them once more for each unit of the
budget. -/
def sparing (r : Nat) : List (List β) → Nat → Language β
  | []      => fun _ => 1
  | u :: us => share (upTo r u) (sparing r us)

/-- A greater budget allows no less. -/
def Rising (L : Nat → Language β) : Prop := ∀ ⦃i j w⦄, i ≤ j → w ∈ L i → w ∈ L j

variable {L M : Nat → Language β} {r : Nat} {u : List β}

theorem share_nonempty (hL : ∃ x, x ∈ L 0) (hM : ∃ x, x ∈ M 0) : ∃ x, x ∈ share L M 0 := by
  obtain ⟨x, hx⟩ := mul_nonempty hL hM
  exact ⟨x, 0, 0, Nat.le_refl 0, hx⟩

theorem upTo_nonempty (hr : 0 < r) (u : List β) : ∃ x, x ∈ upTo r u 0 := ⟨_, 1, Nat.le_refl 1, hr, rfl⟩

theorem sparing_nonempty (hr : 0 < r) : ∀ us : List (List β), ∃ x, x ∈ sparing r us 0
  | []      => ⟨[], nil_mem_one⟩
  | u :: us => share_nonempty (upTo_nonempty hr u) (sparing_nonempty hr us)

/-- What has been put out of one word so far. -/
theorem mem_prefixes_upTo {n k : Nat} {w : List β} (hr : 0 < r) (hk : k ≤ r + n) (hw : w <+: (List.replicate k u).flatten) :
    w ∈ prefixes (upTo r u n) := by
  cases k with
  | zero =>
    rw [List.prefix_nil.1 hw]
    exact nil_mem_prefixes ⟨_, 1, Nat.le_refl 1, by omega, rfl⟩
  | succ k => exact ⟨_, ⟨k + 1, Nat.le_add_left 1 k, hk, rfl⟩, hw⟩

end Language

namespace Proc

open Language

variable {δ ε α β γ σ : Type}

/-- What a run that added the events `e` has cost. -/
def spent (cost : ε → Nat) : List ε → Nat
  | []     => 0
  | x :: e => cost x + spent cost e

@[simp] theorem spent_nil (cost : ε → Nat) : spent cost [] = 0 := rfl

@[simp] theorem spent_cons (cost : ε → Nat) (x : ε) (e : List ε) : spent cost (x :: e) = cost x + spent cost e := rfl

@[simp] theorem spent_append (cost : ε → Nat) : ∀ e e' : List ε, spent cost (e ++ e') = spent cost e + spent cost e'
  | [], e'     => (Nat.zero_add _).symm
  | x :: e, e' => by rw [List.cons_append, spent_cons, spent_cons, spent_append cost e e', Nat.add_assoc]

def Spends (d : δ) (obs : ε → List β) (cost : ε → Nat) (m : Proc δ ε α) (good : α → Prop) (L : Nat → Language β) : Prop :=
  ∀ l, Sat m d l (fun o e => (∀ a, o = .ret a → good a → outputOf obs e ∈ L (spent cost e)) ∧
    outputOf obs e ∈ prefixes (L (spent cost e)))

variable {d : δ} {obs : ε → List β} {cost : ε → Nat} {good : α → Prop} {good' : γ → Prop} {L M : Nat → Language β}
  {N : Language β}

/-- What costs nothing is allowed by any budget. -/
theorem Emits.spends {m : Proc δ ε α} (h : Emits obs m good N) : Spends d obs cost m good (fun _ => N) :=
  fun l => h d l

theorem Refuses.spends {m : Proc δ ε α} (h : Refuses obs m good) (hrise : Rising L) (hL : ∃ x, x ∈ L 0) :
    Spends d obs cost m good L := by
  intro l
  refine (h d l).mono (fun o e he => ⟨fun a ha hg => absurd hg (he.2 a ha), ?_⟩)
  rw [he.1]
  obtain ⟨x, hx⟩ := hL
  exact nil_mem_prefixes ⟨x, hrise (Nat.zero_le _) hx⟩

theorem Spends.mono {m : Proc δ ε α} (h : Spends d obs cost m good L) (hLM : ∀ n w, w ∈ L n → w ∈ M n) :
    Spends d obs cost m good M := by
  intro l
  refine (h l).mono (fun o e he => ⟨fun a ha hg => hLM _ _ (he.1 a ha hg), ?_⟩)
  obtain ⟨x, hx, hw⟩ := he.2
  exact ⟨x, hLM _ x hx, hw⟩

theorem Spends.good_of_returns {m : Proc δ ε α} {good₁ : α → Prop} (h : Spends d obs cost m good L)
    (hr : Returns m (fun a => good₁ a → good a)) : Spends d obs cost m good₁ L :=
  fun l => ((h l).and (hr d l)).mono (fun _ _ he => ⟨fun a ha hg => he.1.1 a ha (he.2 a ha hg), he.1.2⟩)

/-- **Sequencing**: a good end of `m` goes on with `k` on what is left of the budget; any other must end there. -/
theorem Spends.bind_returns {m : Proc δ ε α} {k : α → Proc δ ε γ} {P : α → Prop} (hm : Spends d obs cost m good L)
    (hr : Returns m P) (hk : ∀ a, P a → good a → Spends d obs cost (k a) good' M)
    (hbad : ∀ a, P a → ¬ good a → Refuses obs (k a) good') (hM : ∃ y, y ∈ M 0) :
    Spends d obs cost (m >>= k) good' (share L M) := by
  obtain ⟨y, hy⟩ := hM
  -- the part of `m` that has been put out, on a budget that may have grown since
  have hpart : ∀ {w : List β} {i n : Nat}, i ≤ n → w ∈ prefixes (L i) → w ∈ prefixes (share L M n) := by
    rintro w i n hin ⟨x, hx, hw⟩
    exact ⟨x ++ y, ⟨i, 0, by omega, append_mem_mul hx hy⟩, hw.trans (List.prefix_append x y)⟩
  intro l
  refine Sat.bind ((hm l).and (hr d l)) (fun a e he => ?_) (fun x e he => ?_)
  · obtain ⟨⟨hfull, hpre⟩, ha⟩ := he
    by_cases hg : good a
    · have hfirst := hfull a rfl hg
      refine (hk a (ha a rfl) hg (l ++ e)).mono (fun o e' he' => ⟨fun b hb hgb => ?_, ?_⟩)
      · rw [outputOf_append, spent_append]
        exact ⟨_, _, Nat.le_refl _, append_mem_mul hfirst (he'.1 b hb hgb)⟩
      · obtain ⟨x, hx, hw⟩ := he'.2
        rw [outputOf_append, spent_append]
        exact ⟨_, ⟨_, _, Nat.le_refl _, append_mem_mul hfirst hx⟩, (List.prefix_append_right_inj _).2 hw⟩
    · refine (hbad a (ha a rfl) hg d (l ++ e)).mono (fun o e' he' => ⟨fun b hb hgb => absurd hgb (he'.2 b hb), ?_⟩)
      rw [outputOf_append, he'.1, List.append_nil, spent_append]
      exact hpart (Nat.le_add_right _ _) hpre
  · refine ⟨fun a ha => ?_, hpart (Nat.le_refl _) he.1.2⟩
    cases ha

theorem Spends.bind {m : Proc δ ε α} {k : α → Proc δ ε γ} (hm : Spends d obs cost m good L)
    (hk : ∀ a, good a → Spends d obs cost (k a) good' M) (hbad : ∀ a, ¬ good a → Refuses obs (k a) good')
    (hM : ∃ y, y ∈ M 0) : Spends d obs cost (m >>= k) good' (share L M) :=
  hm.bind_returns (Returns.any m) (fun a _ => hk a) (fun a _ => hbad a) hM

/-- Something silent before. -/
theorem Spends.silent_bind {m : Proc δ ε α} {k : α → Proc δ ε γ} (hm : Silent obs m)
    (hk : ∀ a, Spends d obs cost (k a) good' M) (hrise : Rising M) (hM : ∃ y, y ∈ M 0) :
    Spends d obs cost (m >>= k) good' M := by
  have hbind : Spends d obs cost (m >>= k) good' (share (fun _ => 1) M) :=
    (hm.emits (fun _ => True)).spends.bind (fun a _ => hk a) (fun _ h => absurd trivial h) hM
  refine hbind.mono (fun n w hw => ?_)
  obtain ⟨i, j, hij, hw⟩ := hw
  rw [one_mul] at hw
  exact hrise (by omega) hw

/-- Something silent after a good end. -/
theorem Spends.then_silent {m : Proc δ ε α} {k : α → Proc δ ε γ} (hm : Spends d obs cost m good L)
    (hk : ∀ a, good a → Silent obs (k a)) (hbad : ∀ a, ¬ good a → Refuses obs (k a) good') (hrise : Rising L) :
    Spends d obs cost (m >>= k) good' L := by
  have hbind : Spends d obs cost (m >>= k) good' (share L (fun _ => 1)) :=
    hm.bind (fun a ha => ((hk a ha).emits good').spends) hbad ⟨[], nil_mem_one⟩
  refine hbind.mono (fun n w hw => ?_)
  obtain ⟨i, j, hij, hw⟩ := hw
  rw [mul_one] at hw
  exact hrise (by omega) hw

end Proc
