import Mathlib.Computability.Language
import Ws63Flash.Lib.Proc
/-!
# Emits — what a process puts out, as a language

An observation `obs` reads the output of each event.  `Emits obs m good L` says that the output of every run of `m`,
whatever its environment, is a prefix of a word of `L`, and a word of `L` when the run ends in a `good` result.  The
rules follow the process: a sequence emits the product of two languages, a loop that repeats a word until it is
answered emits `plus`.
-/
open scoped Computability

namespace Language

variable {β : Type}

def prefixes (L : Language β) : Language β := {w | ∃ x, x ∈ L ∧ w <+: x}

/-- One or more words of `L`. -/
def plus (L : Language β) : Language β := L * L∗

/-- The language of one word. -/
def word (u : List β) : Language β := {w | w = u}

theorem mem_word {u w : List β} : w ∈ word u ↔ w = u := Iff.rfl

@[simp] theorem word_self (u : List β) : u ∈ word u := rfl

theorem prefixes_of_mem {L : Language β} {w : List β} (h : w ∈ L) : w ∈ prefixes L := ⟨w, h, List.prefix_rfl⟩

theorem mem_prefixes_word {u w : List β} : w ∈ prefixes (word u) ↔ w <+: u := by
  constructor
  · rintro ⟨x, rfl, h⟩; exact h
  · exact fun h => ⟨u, rfl, h⟩

theorem nil_mem_prefixes {L : Language β} (hne : ∃ x, x ∈ L) : [] ∈ prefixes L := by
  obtain ⟨x, hx⟩ := hne
  exact ⟨x, hx, List.nil_prefix⟩

theorem word_mul_word (u v : List β) : word u * word v = word (u ++ v) := by
  ext w
  rw [mem_mul, mem_word]
  constructor
  · rintro ⟨a, rfl, b, rfl, rfl⟩
    rfl
  · rintro rfl
    exact ⟨u, rfl, v, rfl, rfl⟩

theorem prefixes_mul_left {L M : Language β} {w : List β} (hM : ∃ y, y ∈ M) (h : w ∈ prefixes L) :
    w ∈ prefixes (L * M) := by
  obtain ⟨x, hx, hw⟩ := h
  obtain ⟨y, hy⟩ := hM
  exact ⟨x ++ y, append_mem_mul hx hy, hw.trans (List.prefix_append x y)⟩

theorem append_mem_prefixes_mul {L M : Language β} {x w : List β} (hx : x ∈ L) (h : w ∈ prefixes M) :
    x ++ w ∈ prefixes (L * M) := by
  obtain ⟨y, hy, hw⟩ := h
  exact ⟨x ++ y, append_mem_mul hx hy, (List.prefix_append_right_inj x).2 hw⟩

theorem mul_nonempty {L M : Language β} (hL : ∃ x, x ∈ L) (hM : ∃ x, x ∈ M) : ∃ x, x ∈ L * M := by
  obtain ⟨x, hx⟩ := hL
  obtain ⟨y, hy⟩ := hM
  exact ⟨x ++ y, append_mem_mul hx hy⟩

theorem plus_of_mem {L : Language β} {w : List β} (h : w ∈ L) : w ∈ plus L := by
  have := append_mem_mul h (nil_mem_kstar L)
  rwa [List.append_nil] at this

theorem plus_nonempty {L : Language β} (h : ∃ x, x ∈ L) : ∃ x, x ∈ plus L := by
  obtain ⟨x, hx⟩ := h
  exact ⟨x, plus_of_mem hx⟩

theorem kstar_append {L : Language β} {w v : List β} (hw : w ∈ L∗) (hv : v ∈ L) : w ++ v ∈ L∗ := by
  obtain ⟨S, rfl, hS⟩ := mem_kstar.1 hw
  refine mem_kstar.2 ⟨S ++ [v], by simp, fun y hy => ?_⟩
  rcases List.mem_append.1 hy with h | h
  · exact hS y h
  · rw [List.mem_singleton.1 h]; exact hv

theorem mem_kstar_of_mem {L : Language β} {w : List β} (h : w ∈ L) : w ∈ L∗ :=
  mem_kstar.2 ⟨[w], by simp, fun y hy => by rw [List.mem_singleton.1 hy]; exact h⟩

theorem plus_subset_kstar {L : Language β} {w : List β} (h : w ∈ plus L) : w ∈ L∗ := by
  obtain ⟨a, ha, b, hb, rfl⟩ := mem_mul.1 h
  have := append_mem_mul (mem_kstar_of_mem ha) hb
  rwa [kstar_mul_kstar] at this

theorem kstar_mono {L M : Language β} (h : ∀ w ∈ L, w ∈ M) {w : List β} (hw : w ∈ L∗) : w ∈ M∗ := by
  obtain ⟨S, rfl, hS⟩ := mem_kstar.1 hw
  exact join_mem_kstar (fun y hy => h y (hS y hy))

theorem kstar_append_plus {L : Language β} {w v : List β} (hw : w ∈ L∗) (hv : v ∈ L) : w ++ v ∈ plus L := by
  have h := append_mem_mul hw hv
  rwa [mul_self_kstar_comm] at h

/-- **A word repeated at least once.** -/
theorem mem_plus_word {u w : List β} : w ∈ plus (word u) ↔ ∃ k, 1 ≤ k ∧ w = (List.replicate k u).flatten := by
  constructor
  · intro h
    obtain ⟨a, rfl, b, hb, rfl⟩ := mem_mul.1 h
    obtain ⟨S, rfl, hS⟩ := mem_kstar.1 hb
    refine ⟨S.length + 1, Nat.le_add_left 1 _, ?_⟩
    rw [List.replicate_succ, List.flatten_cons, ← List.eq_replicate_length.2 hS]
  · rintro ⟨k, hk, rfl⟩
    obtain ⟨k, rfl⟩ := Nat.exists_eq_add_of_le' hk
    rw [List.replicate_succ, List.flatten_cons]
    exact append_mem_mul (word_self u) (join_mem_kstar (fun y hy => List.eq_of_mem_replicate hy))

/-- The words of `us`, each repeated at least once, in order. -/
def repeated (us : List (List β)) : Language β := (us.map (fun u => plus (word u))).prod

@[simp] theorem repeated_nil : repeated ([] : List (List β)) = 1 := rfl

theorem repeated_cons (u : List β) (us : List (List β)) : repeated (u :: us) = plus (word u) * repeated us := by
  rw [repeated, List.map_cons, List.prod_cons]; rfl

theorem repeated_append (us vs : List (List β)) : repeated (us ++ vs) = repeated us * repeated vs := by
  rw [repeated, List.map_append, List.prod_append]; rfl

theorem repeated_nonempty : ∀ us : List (List β), ∃ x, x ∈ repeated us
  | []      => ⟨[], nil_mem_one⟩
  | u :: us => by
    rw [repeated_cons]
    exact mul_nonempty (plus_nonempty ⟨u, word_self u⟩) (repeated_nonempty us)

end Language

namespace Proc

open Language

variable {δ ε α β γ σ : Type}

/-- What a run that added the events `e` has put out. -/
def outputOf (obs : ε → List β) (e : List ε) : List β := e.flatMap obs

@[simp] theorem outputOf_nil (obs : ε → List β) : outputOf obs [] = [] := rfl

@[simp] theorem outputOf_append (obs : ε → List β) (e e' : List ε) :
    outputOf obs (e ++ e') = outputOf obs e ++ outputOf obs e' := List.flatMap_append

theorem outputOf_singleton (obs : ε → List β) (x : ε) : outputOf obs [x] = obs x := List.flatMap_singleton obs x

def Emits (obs : ε → List β) (m : Proc δ ε α) (good : α → Prop) (L : Language β) : Prop :=
  ∀ d l, Sat m d l (fun o e =>
    (∀ a, o = .ret a → good a → outputOf obs e ∈ L) ∧ outputOf obs e ∈ prefixes L)

/-- `m` puts nothing out. -/
def Silent (obs : ε → List β) (m : Proc δ ε α) : Prop := ∀ d l, Sat m d l (fun _ e => outputOf obs e = [])

/-- `m` puts nothing out and never ends well. -/
def Refuses (obs : ε → List β) (m : Proc δ ε α) (good : α → Prop) : Prop :=
  ∀ d l, Sat m d l (fun o e => outputOf obs e = [] ∧ ∀ a, o = .ret a → ¬ good a)

variable {obs : ε → List β} {good : α → Prop} {good' : γ → Prop} {L M : Language β}

theorem Refuses.pure {a : α} (h : ¬ good a) : Refuses obs (Pure.pure a : Proc δ ε α) good :=
  fun _ _ => Sat.pure ⟨rfl, fun b hb => by cases hb; exact h⟩

theorem Refuses.emits {m : Proc δ ε α} (h : Refuses obs m good) (hL : ∃ x, x ∈ L) : Emits obs m good L := by
  intro d l
  refine (h d l).mono (fun o e ⟨h0, hb⟩ => ⟨fun a ha hg => absurd hg (hb a ha), ?_⟩)
  rw [h0]
  exact nil_mem_prefixes hL

theorem Silent.pure (a : α) : Silent obs (Pure.pure a : Proc δ ε α) := fun _ _ => rfl

theorem Silent.halt (x : Halt) : Silent obs (Proc.halt x : Proc δ ε α) := fun _ _ => rfl

theorem Silent.act {f : δ → List ε → ε × α} (h : ∀ d l, obs (f d l).1 = []) : Silent obs (Proc.act f) :=
  fun d l => Sat.act (by rw [outputOf_singleton]; exact h d l)

theorem Silent.bind {m : Proc δ ε α} {k : α → Proc δ ε γ} (hm : Silent obs m) (hk : ∀ a, Silent obs (k a)) :
    Silent obs (m >>= k) := by
  intro d l
  refine Sat.bind (hm d l) (fun a e he => ?_) (fun x e he => he)
  refine (hk a d (l ++ e)).mono (fun o e' he' => ?_)
  rw [outputOf_append, he, he', List.append_nil]

theorem Silent.loop {body : σ → Proc δ ε (Iter σ α)} (h : ∀ s, Silent obs (body s)) (n : Nat) (s : σ) :
    Silent obs (loop body n s) := by
  intro d l
  refine Sat.loop (fun _ e => outputOf obs e = []) (fun s e he => ?_) (fun _ _ he => he) n s rfl
  refine (h s d (l ++ e)).mono (fun o e' he' => ?_)
  rcases o with (s' | a) | x <;> rw [outputOf_append, he, he', List.append_nil]

theorem Silent.emits {m : Proc δ ε α} (h : Silent obs m) (good : α → Prop) : Emits obs m good 1 := by
  intro d l
  refine (h d l).mono (fun o e he => ⟨fun _ _ _ => ?_, prefixes_of_mem ?_⟩) <;> rw [he] <;> exact nil_mem_one

theorem Emits.pure {a : α} (h : [] ∈ L) : Emits obs (Pure.pure a : Proc δ ε α) good L :=
  fun _ _ => Sat.pure ⟨fun _ _ _ => h, prefixes_of_mem h⟩

theorem Emits.mono_good {m : Proc δ ε α} {good₁ : α → Prop} (h : Emits obs m good L)
    (hg : ∀ a, good₁ a → good a) : Emits obs m good₁ L :=
  fun d l => (h d l).mono (fun _ _ ⟨h1, h2⟩ => ⟨fun a ha hb => h1 a ha (hg a hb), h2⟩)

theorem Emits.good_of_returns {m : Proc δ ε α} {good₁ : α → Prop} (h : Emits obs m good L)
    (hr : Returns m (fun a => good₁ a → good a)) : Emits obs m good₁ L :=
  fun d l => ((h d l).and (hr d l)).mono (fun _ _ ⟨⟨h1, h2⟩, h3⟩ => ⟨fun a ha hg => h1 a ha (h3 a ha hg), h2⟩)

/-- **Sequencing**: a good end of `m` goes on with `k`; any other must end there. -/
theorem Emits.bind {m : Proc δ ε α} {k : α → Proc δ ε γ} (hm : Emits obs m good L)
    (hk : ∀ a, good a → Emits obs (k a) good' M) (hbad : ∀ a, ¬ good a → Refuses obs (k a) good')
    (hM : ∃ y, y ∈ M) : Emits obs (m >>= k) good' (L * M) := by
  intro d l
  refine Sat.bind (hm d l) (fun a e ⟨h1, h2⟩ => ?_) (fun x e ⟨_, h2⟩ => ?_)
  · by_cases hg : good a
    · refine (hk a hg d (l ++ e)).mono (fun o e' ⟨h1', h2'⟩ => ⟨fun b hb hgb => ?_, ?_⟩)
      · rw [outputOf_append]
        exact append_mem_mul (h1 a rfl hg) (h1' b hb hgb)
      · rw [outputOf_append]
        exact append_mem_prefixes_mul (h1 a rfl hg) h2'
    · refine (hbad a hg d (l ++ e)).mono (fun o e' ⟨h0, hb⟩ => ⟨fun b hb' hgb => absurd hgb (hb b hb'), ?_⟩)
      rw [outputOf_append, h0, List.append_nil]
      exact prefixes_mul_left hM h2
  · exact ⟨fun a ha => (nomatch ha), prefixes_mul_left hM h2⟩

theorem Emits.bind_all {m : Proc δ ε α} {k : α → Proc δ ε γ} (hm : Emits obs m (fun _ => True) L)
    (hk : ∀ a, Emits obs (k a) good' M) (hM : ∃ y, y ∈ M) : Emits obs (m >>= k) good' (L * M) :=
  hm.bind (fun a _ => hk a) (fun _ h => absurd trivial h) hM

/-- **What follows a good end puts nothing out.** -/
theorem Emits.then_silent {m : Proc δ ε α} {k : α → Proc δ ε γ} (hm : Emits obs m good L)
    (hk : ∀ a, good a → Silent obs (k a)) (hbad : ∀ a, ¬ good a → Refuses obs (k a) good') :
    Emits obs (m >>= k) good' L := by
  have := hm.bind (fun a ha => (hk a ha).emits good') hbad ⟨[], nil_mem_one⟩
  rwa [mul_one] at this

theorem Emits.silent_bind {m : Proc δ ε α} {k : α → Proc δ ε γ} (hm : Silent obs m)
    (hk : ∀ a, Emits obs (k a) good' M) (hM : ∃ y, y ∈ M) : Emits obs (m >>= k) good' M := by
  have := (hm.emits (fun _ => True)).bind_all hk hM
  rwa [one_mul] at this

theorem Emits.mono {m : Proc δ ε α} (h : Emits obs m good L) (hLM : ∀ w ∈ L, w ∈ M) : Emits obs m good M :=
  fun d l => (h d l).mono (fun _ _ ⟨h1, x, hx, hw⟩ => ⟨fun a ha hg => hLM _ (h1 a ha hg), x, hLM x hx, hw⟩)

theorem Emits.bind_kstar {m : Proc δ ε α} {k : α → Proc δ ε γ} (hm : Emits obs m good L∗)
    (hk : ∀ a, good a → Emits obs (k a) good' L∗) (hbad : ∀ a, ¬ good a → Refuses obs (k a) good') :
    Emits obs (m >>= k) good' L∗ := by
  have := hm.bind hk hbad ⟨[], nil_mem_kstar L⟩
  rwa [kstar_mul_kstar] at this

/-- A loop whose turns put words of `L` out. -/
theorem Emits.loop_kstar {body : σ → Proc δ ε (Iter σ α)} (h : ∀ s, Emits obs (body s) (Iter.Ends good) L∗) (n : Nat)
    (s : σ) : Emits obs (loop body n s) good L∗ := by
  have hmul : ∀ {u v : List β}, u ∈ L∗ → v ∈ L∗ → u ++ v ∈ L∗ := fun hu hv => by
    have := append_mem_mul hu hv
    rwa [kstar_mul_kstar] at this
  intro d l
  refine Sat.loop (fun _ e => outputOf obs e ∈ L∗) (fun s e he => ?_) (fun _ e he => ?_) n s (nil_mem_kstar L)
  · refine (h s d (l ++ e)).mono (fun o e' ⟨h1, h2⟩ => ?_)
    have hpre : outputOf obs (e ++ e') ∈ prefixes L∗ := by
      rw [outputOf_append]
      have := append_mem_prefixes_mul he h2
      rwa [kstar_mul_kstar] at this
    rcases o with (s' | a) | x
    · rw [outputOf_append]
      exact hmul he (h1 _ rfl trivial)
    · refine ⟨fun b hb hg => ?_, hpre⟩
      cases hb
      rw [outputOf_append]
      exact hmul he (h1 _ rfl hg)
    · exact ⟨fun a ha => (nomatch ha), hpre⟩
  · exact ⟨fun a ha => (nomatch ha), prefixes_of_mem he⟩

/-- **A loop that puts a word of `L` out on every turn** and leaves well only after one. -/
theorem Emits.loop_plus {body : σ → Proc δ ε (Iter σ α)} (hL : ∃ x, x ∈ L)
    (h : ∀ s, Emits obs (body s) (Iter.Ends good) L) (n : Nat) (s : σ) :
    Emits obs (loop body n s) good (plus L) := by
  intro d l
  refine Sat.loop (fun _ e => outputOf obs e ∈ L∗) (fun s e he => ?_) (fun _ e he => ?_) n s (nil_mem_kstar L)
  · refine (h s d (l ++ e)).mono (fun o e' ⟨h1, h2⟩ => ?_)
    have hpre : outputOf obs (e ++ e') ∈ prefixes (plus L) := by
      rw [outputOf_append, plus, ← mul_self_kstar_comm]
      exact append_mem_prefixes_mul he h2
    rcases o with (s' | a) | x
    · rw [outputOf_append]
      exact kstar_append he (h1 _ rfl trivial)
    · refine ⟨fun b hb hg => ?_, hpre⟩
      cases hb
      rw [outputOf_append]
      exact kstar_append_plus he (h1 _ rfl hg)
    · exact ⟨fun a ha => (nomatch ha), hpre⟩
  · refine ⟨fun a ha => (nomatch ha), ?_⟩
    obtain ⟨x, hx⟩ := hL
    exact ⟨_, kstar_append_plus he hx, List.prefix_append _ _⟩

/-- **A loop that puts a word of `L` out on every turn it goes on from**, and at least begins one on the last. -/
theorem Emits.loop_star {body : σ → Proc δ ε (Iter σ α)} (hL : ∃ x, x ∈ L)
    (h : ∀ s, Emits obs (body s) (Iter.Ends (fun _ => False)) L) (n : Nat) (s : σ) :
    Emits obs (loop body n s) good (L∗ * prefixes L) := by
  intro d l
  have hend : ∀ {o : Out α} {e : List ε}, outputOf obs e ∈ L∗ * prefixes L →
      (∀ a, o = .ret a → good a → outputOf obs e ∈ L∗ * prefixes L) ∧ outputOf obs e ∈ prefixes (L∗ * prefixes L) :=
    fun he => ⟨fun _ _ _ => he, prefixes_of_mem he⟩
  refine Sat.loop (fun _ e => outputOf obs e ∈ L∗) (fun s e he => ?_) (fun _ e he => ?_) n s (nil_mem_kstar L)
  · refine (h s d (l ++ e)).mono (fun o e' ⟨h1, h2⟩ => ?_)
    have hmem : outputOf obs (e ++ e') ∈ L∗ * prefixes L := by
      rw [outputOf_append]
      exact append_mem_mul he h2
    rcases o with (s' | a) | x
    · rw [outputOf_append]
      exact kstar_append he (h1 _ rfl trivial)
    · exact hend hmem
    · exact hend hmem
  · apply hend
    have := append_mem_mul he (nil_mem_prefixes hL)
    rwa [List.append_nil] at this

/-- **A loop that puts a word of `L` out on every turn it goes on from**, and one of `M` on the turn that leaves it well. -/
theorem Emits.loop_then {body : σ → Proc δ ε (Iter σ α)} (hM : ∃ x, x ∈ M)
    (h : ∀ s d l, Sat (body s) d l (fun o e => (∀ s', o = .ret (.next s') → outputOf obs e ∈ L) ∧
      (∀ a, o = .ret (.done a) → good a → outputOf obs e ∈ M) ∧ outputOf obs e ∈ prefixes M)) (n : Nat) (s : σ) :
    Emits obs (loop body n s) good (L∗ * M) := by
  intro d l
  refine Sat.loop (fun _ e => outputOf obs e ∈ L∗) (fun s e he => ?_) (fun _ e he => ?_) n s (nil_mem_kstar L)
  · refine (h s d (l ++ e)).mono (fun o e' ⟨hnext, hdone, hpre⟩ => ?_)
    have hall : outputOf obs (e ++ e') ∈ prefixes (L∗ * M) := by
      rw [outputOf_append]
      exact append_mem_prefixes_mul he hpre
    rcases o with (s' | a) | x
    · rw [outputOf_append]
      exact kstar_append he (hnext s' rfl)
    · refine ⟨fun b hb hg => ?_, hall⟩
      cases hb
      rw [outputOf_append]
      exact append_mem_mul he (hdone _ rfl hg)
    · exact ⟨fun a ha => (nomatch ha), hall⟩
  · exact ⟨fun a ha => (nomatch ha), prefixes_mul_left hM (prefixes_of_mem he)⟩

/-! ## Another observation -/

variable {ζ : Type} {obs' : ε → List ζ} {f : β → ζ}

theorem map_mem_prefixes {w : List β} (h : w ∈ prefixes L) : w.map f ∈ prefixes (Language.map f L) := by
  obtain ⟨x, hx, hw⟩ := h
  exact ⟨x.map f, ⟨x, hx, rfl⟩, hw.map f⟩

/-- What another observation sees of a process, if it sees the same things under other names. -/
theorem Emits.map {m : Proc δ ε α} (h : Emits obs m good L)
    (hf : ∀ d l, Sat m d l (fun _ e => outputOf obs' e = (outputOf obs e).map f)) :
    Emits obs' m good (Language.map f L) := by
  intro d l
  refine ((h d l).and (hf d l)).mono (fun o e ⟨⟨h1, h2⟩, he⟩ => ⟨fun a ha hg => ?_, ?_⟩)
  · rw [he]
    exact ⟨_, h1 a ha hg, rfl⟩
  · rw [he]
    exact map_mem_prefixes h2

end Proc
