import Mathlib.Data.List.Chain
import Ws63Flash.Lib.Emits
/-!
# Units — a stream cut into self-delimiting units

`size bs` is the length of the unit that `bs` starts with, 0 when `bs` starts with none.  Cutting the concatenation of
units that delimit themselves gives the units back (`units_flatten`), and a reader that drops a unit with the key of
the one before it sees a stream of repeated units as the units themselves (`dropRepeats_repeated`).
-/
namespace Units

open Language

variable {β κ : Type}

def cut (size : List β → Nat) : Nat → List β → List (List β)
  | 0, _         => []
  | fuel + 1, bs =>
    if size bs = 0 ∨ bs.length < size bs then []
    else bs.take (size bs) :: cut size fuel (bs.drop (size bs))

/-- The whole units at the front of `bs`. -/
def units (size : List β → Nat) (bs : List β) : List (List β) := cut size bs.length bs

def SelfDelimiting (size : List β → Nat) (u : List β) : Prop := u ≠ [] ∧ ∀ rest, size (u ++ rest) = u.length

variable {size : List β → Nat}

theorem cut_cons {u : List β} (hu : SelfDelimiting size u) (fuel : Nat) (rest : List β) :
    cut size (fuel + 1) (u ++ rest) = u :: cut size fuel rest := by
  have hpos : u.length ≠ 0 := fun h => hu.1 (List.length_eq_zero_iff.1 h)
  rw [cut, hu.2 rest, if_neg (by rw [List.length_append]; omega), List.take_left, List.drop_left]

theorem cut_nil : ∀ fuel, size [] = 0 → cut size fuel [] = []
  | 0, _     => rfl
  | _ + 1, h => by rw [cut, if_pos (Or.inl h)]

theorem length_le_flatten : ∀ us : List (List β), (∀ u ∈ us, u ≠ []) → us.length ≤ us.flatten.length
  | [], _      => Nat.le_refl 0
  | u :: us, h => by
    have := List.length_pos_iff.2 (h u List.mem_cons_self)
    have := length_le_flatten us (fun v hv => h v (List.mem_cons_of_mem _ hv))
    rw [List.flatten_cons, List.length_append, List.length_cons]
    omega

theorem cut_flatten (h0 : size [] = 0) : ∀ (us : List (List β)) (fuel : Nat), (∀ u ∈ us, SelfDelimiting size u) →
    us.length ≤ fuel → cut size fuel us.flatten = us
  | [], fuel, _, _            => cut_nil fuel h0
  | u :: us, 0, _, hf         => by simp at hf
  | u :: us, fuel + 1, hd, hf => by
    rw [List.flatten_cons, cut_cons (hd u List.mem_cons_self),
      cut_flatten h0 us fuel (fun v hv => hd v (List.mem_cons_of_mem _ hv)) (by simpa using hf)]

/-- **Cutting gives the units back.** -/
theorem units_flatten (h0 : size [] = 0) {us : List (List β)} (hd : ∀ u ∈ us, SelfDelimiting size u) :
    units size us.flatten = us :=
  cut_flatten h0 us _ hd (length_le_flatten us (fun u hu => (hd u hu).1))

/-- The budget of a cut plays no part once it is long enough. -/
theorem cut_eq_of_le : ∀ (n k : Nat) (bs : List β), bs.length ≤ n → bs.length ≤ k → cut size n bs = cut size k bs
  | 0, 0, _, _, _          => rfl
  | 0, k + 1, bs, hn, _    => by
    have hbs : bs = [] := List.length_eq_zero_iff.1 (Nat.le_zero.1 hn)
    rw [hbs, cut, cut, if_pos (by simp only [List.length_nil]; omega)]
  | n + 1, 0, bs, _, hk    => by
    have hbs : bs = [] := List.length_eq_zero_iff.1 (Nat.le_zero.1 hk)
    rw [hbs, cut, cut, if_pos (by simp only [List.length_nil]; omega)]
  | n + 1, k + 1, bs, hn, hk => by
    rw [cut, cut]
    split
    · rfl
    · rw [cut_eq_of_le n k (bs.drop (size bs)) (by rw [List.length_drop]; omega) (by rw [List.length_drop]; omega)]

theorem units_append {u : List β} (hu : SelfDelimiting size u) (rest : List β) :
    units size (u ++ rest) = u :: units size rest := by
  have hpos := List.length_pos_iff.2 hu.1
  obtain ⟨n, hn⟩ := Nat.exists_eq_add_of_lt (show 0 < (u ++ rest).length by rw [List.length_append]; omega)
  rw [units, hn, Nat.zero_add, cut_cons hu, units, cut_eq_of_le n rest.length rest ?_ (Nat.le_refl _)]
  rw [List.length_append] at hn
  omega

theorem eq_of_append {u v x y : List β} (hu : SelfDelimiting size u) (hv : SelfDelimiting size v)
    (h : v ++ x = u ++ y) : v = u ∧ x = y := by
  have hsize := congrArg size h
  rw [hv.2 x, hu.2 y] at hsize
  exact List.append_inj h hsize

/-- A unit at the front of units is the first of them. -/
theorem front_unit {v x : List β} {us : List (List β)} (hv : SelfDelimiting size v)
    (hus : ∀ u ∈ us, SelfDelimiting size u) (h : v ++ x = us.flatten) : ∃ us', us = v :: us' ∧ x = us'.flatten := by
  cases us with
  | nil => exact absurd (List.append_eq_nil_iff.1 h).1 hv.1
  | cons u us' =>
    rw [List.flatten_cons] at h
    obtain ⟨rfl, hx⟩ := eq_of_append (hus u List.mem_cons_self) hv h
    exact ⟨us', rfl, hx⟩

/-! ## A reader of units -/

section Reader

variable {S : Type} {step : S → List β → S}

/-- The state after the whole units of `bs`. -/
def consume (size : List β → Nat) (step : S → List β → S) (s : S) (bs : List β) : S := (units size bs).foldl step s

/-- Every word of `L` is whole units, and takes the reader from a state to one that `R` relates to it. -/
def Effect (size : List β → Nat) (step : S → List β → S) (L : Language β) (R : S → S → Prop) : Prop :=
  ∀ w ∈ L, ∃ us : List (List β), w = us.flatten ∧ (∀ u ∈ us, SelfDelimiting size u) ∧ ∀ s, R s (us.foldl step s)

theorem consume_flatten {us : List (List β)} (hd : ∀ u ∈ us, SelfDelimiting size u) : ∀ (s : S) (rest : List β),
    consume size step s (us.flatten ++ rest) = consume size step (us.foldl step s) rest := by
  induction us with
  | nil => exact fun s rest => rfl
  | cons u us ih =>
    intro s rest
    have := ih (fun v hv => hd v (List.mem_cons_of_mem _ hv)) (step s u) rest
    rw [List.foldl_cons, ← this, List.flatten_cons, List.append_assoc, consume, units_append (hd u List.mem_cons_self)]
    rfl

variable {L M : Language β} {R R' R'' : S → S → Prop}

/-- **An effect is what reading a word does**, whatever follows it. -/
theorem Effect.consume (h : Effect size step L R) {w : List β} (hw : w ∈ L) (s : S) (rest : List β) :
    ∃ s', R s s' ∧ Units.consume size step s (w ++ rest) = Units.consume size step s' rest := by
  obtain ⟨us, rfl, hd, hR⟩ := h w hw
  exact ⟨_, hR s, consume_flatten hd s rest⟩

theorem Effect.mono (h : Effect size step L R) (hR : ∀ s s', R s s' → R' s s') : Effect size step L R' := by
  intro w hw
  obtain ⟨us, hus, hd, hr⟩ := h w hw
  exact ⟨us, hus, hd, fun s => hR _ _ (hr s)⟩

theorem Effect.mul (hL : Effect size step L R) (hM : Effect size step M R')
    (hR : ∀ s s' s'', R s s' → R' s' s'' → R'' s s'') : Effect size step (L * M) R'' := by
  intro w hw
  obtain ⟨a, ha, b, hb, rfl⟩ := Language.mem_mul.1 hw
  obtain ⟨us, rfl, hd, hr⟩ := hL a ha
  obtain ⟨vs, rfl, hd', hr'⟩ := hM b hb
  refine ⟨us ++ vs, by rw [List.flatten_append], fun u hu => ?_, fun s => ?_⟩
  · exact (List.mem_append.1 hu).elim (hd u) (hd' u)
  · rw [List.foldl_append]
    exact hR _ _ _ (hr s) (hr' _)

theorem Effect.one (hR : ∀ s, R s s) : Effect size step (1 : Language β) R :=
  fun _ hw => ⟨[], hw, fun u hu => by simp at hu, hR⟩

theorem Effect.word {u : List β} (hu : SelfDelimiting size u) : Effect size step (Language.word u) (fun s s' => s' = step s u) :=
  fun _ hw => ⟨[u], by rw [List.flatten_singleton]; exact hw, fun v hv => by rw [List.mem_singleton.1 hv]; exact hu,
    fun _ => rfl⟩

theorem Effect.kstar (h : Effect size step L R) (hrefl : ∀ s, R s s) (htrans : ∀ s s' s'', R s s' → R s' s'' → R s s'') :
    Effect size step (KStar.kstar L) R := by
  intro w hw
  obtain ⟨S, rfl, hS⟩ := Language.mem_kstar.1 hw
  clear hw
  induction S with
  | nil => exact Effect.one hrefl [] rfl
  | cons x S ih =>
    obtain ⟨us, hus, hd, hr⟩ := h x (hS x List.mem_cons_self)
    obtain ⟨vs, hvs, hd', hr'⟩ := ih (fun y hy => hS y (List.mem_cons_of_mem _ hy))
    refine ⟨us ++ vs, by rw [List.flatten_append, ← hus, ← hvs, List.flatten_cons], fun u hu => ?_, fun s => ?_⟩
    · exact (List.mem_append.1 hu).elim (hd u) (hd' u)
    · rw [List.foldl_append]
      exact htrans _ _ _ (hr s) (hr' _)

/-- Reading a unit again changes nothing. -/
theorem Effect.plus_word {u : List β} (hu : SelfDelimiting size u) (hid : ∀ s, step (step s u) u = step s u) :
    Effect size step (plus (Language.word u)) (fun s s' => s' = step s u) := by
  intro w hw
  obtain ⟨k, hk, rfl⟩ := mem_plus_word.1 hw
  obtain ⟨k, rfl⟩ := Nat.exists_eq_add_of_le' hk
  refine ⟨_, rfl, fun v hv => by rw [List.eq_of_mem_replicate hv]; exact hu, fun s => ?_⟩
  have hgen : ∀ k s, step s u = s → (List.replicate k u).foldl step s = s := by
    intro k
    induction k with
    | zero => exact fun s _ => rfl
    | succ k ih =>
      intro s hs
      rw [List.replicate_succ, List.foldl_cons, hs]
      exact ih s hs
  rw [List.replicate_succ, List.foldl_cons]
  exact hgen k _ (hid s)

/-- **Repeated units have the effect of the units.** -/
theorem Effect.repeated : ∀ us : List (List β), (∀ u ∈ us, SelfDelimiting size u) →
    (∀ u ∈ us, ∀ s, step (step s u) u = step s u) →
    Effect size step (Language.repeated us) (fun s s' => s' = us.foldl step s)
  | [], _, _         => Effect.one (fun _ => rfl)
  | u :: us, hd, hid => by
    rw [repeated_cons]
    refine Effect.mul (Effect.plus_word (hd u List.mem_cons_self) (hid u List.mem_cons_self))
      (Effect.repeated us (fun v hv => hd v (List.mem_cons_of_mem _ hv)) (fun v hv => hid v (List.mem_cons_of_mem _ hv))) ?_
    rintro s _ _ rfl rfl
    rfl

end Reader

/-! ## Repeats -/

/-- `us` without the units that have the key of the unit before them. -/
def dropRepeats [DecidableEq κ] (key : List β → κ) : Option κ → List (List β) → List (List β)
  | _, []         => []
  | prev, u :: us => if prev = some (key u) then dropRepeats key prev us else u :: dropRepeats key (some (key u)) us

variable [DecidableEq κ] {key : List β → κ}

theorem dropRepeats_replicate (u : List β) (us : List (List β)) : ∀ k,
    dropRepeats key (some (key u)) (List.replicate k u ++ us) = dropRepeats key (some (key u)) us
  | 0     => rfl
  | k + 1 => by
    rw [List.replicate_succ, List.cons_append, dropRepeats, if_pos rfl, dropRepeats_replicate u us k]

/-- **A word of repeated units, cut and rid of repeats, is the units rid of repeats.** -/
theorem dropRepeats_repeated (h0 : size [] = 0) (key : List β → κ) {us : List (List β)}
    (hd : ∀ u ∈ us, SelfDelimiting size u) {w : List β} (hw : w ∈ repeated us) :
    dropRepeats key none (units size w) = dropRepeats key none us := by
  have hsplit : ∀ (us : List (List β)) (w : List β), w ∈ repeated us → ∃ vs : List (List β), w = vs.flatten ∧
      (∀ v ∈ vs, v ∈ us) ∧ ∀ prev, dropRepeats key prev vs = dropRepeats key prev us := by
    intro us
    induction us with
    | nil => exact fun w hw => ⟨[], hw, fun v hv => hv, fun _ => rfl⟩
    | cons u us ih =>
      intro w hw
      rw [repeated_cons] at hw
      obtain ⟨a, ha, b, hb, rfl⟩ := mem_mul.1 hw
      obtain ⟨k, hk, rfl⟩ := mem_plus_word.1 ha
      obtain ⟨vs, rfl, hmem, hvs⟩ := ih b hb
      obtain ⟨k, rfl⟩ := Nat.exists_eq_add_of_le' hk
      refine ⟨List.replicate (k + 1) u ++ vs, by rw [List.flatten_append], fun v hv => ?_, fun prev => ?_⟩
      · rcases List.mem_append.1 hv with h | h
        · rw [List.eq_of_mem_replicate h]; exact List.mem_cons_self
        · exact List.mem_cons_of_mem _ (hmem v h)
      · rw [List.replicate_succ, List.cons_append, dropRepeats, dropRepeats, dropRepeats_replicate, hvs]
        split
        · rename_i hp
          rw [hp, dropRepeats_replicate, hvs]
        · rfl
  obtain ⟨vs, rfl, hmem, hvs⟩ := hsplit us w hw
  rw [units_flatten h0 (fun v hv => hd v (hmem v hv)), hvs]

/-- Units whose keys change from each to the next are kept. -/
theorem dropRepeats_of_chain : ∀ (us : List (List β)) (prev : Option κ), (∀ u ∈ us.head?, prev ≠ some (key u)) →
    us.IsChain (fun u v => key u ≠ key v) → dropRepeats key prev us = us
  | [], _, _, _         => rfl
  | u :: us, prev, h, hc => by
    obtain ⟨hu, hus⟩ := List.isChain_cons.1 hc
    rw [dropRepeats, if_neg (h u rfl),
      dropRepeats_of_chain us _ (fun v hv he => hu v hv (Option.some.inj he)) hus]

end Units
