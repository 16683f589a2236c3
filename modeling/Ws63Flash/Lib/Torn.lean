import Ws63Flash.Lib.Units
/-!
# Torn — a stream of units cut short

A writer may stop anywhere, also inside a unit.  `Torn size step L C` says what reading a word of `L` up to any point
does; its rules follow those of `Effect`, which says what reading a whole word does.  Where no proper prefix of a unit
starts with a unit (`Whole`), the reader of a word cut short has taken whole units and nothing of the one it was cut in
(`Torn.word`).
-/
open scoped Computability

namespace Language

variable {β : Type}

theorem mem_prefixes_mul {L M : Language β} {w : List β} (h : w ∈ prefixes (L * M)) :
    w ∈ prefixes L ∨ ∃ x ∈ L, ∃ v ∈ prefixes M, w = x ++ v := by
  obtain ⟨_, ⟨x, hx, y, hy, rfl⟩, hw⟩ := h
  rcases List.prefix_or_prefix_of_prefix hw (List.prefix_append x y) with hwx | ⟨v, rfl⟩
  · exact Or.inl ⟨x, hx, hwx⟩
  · exact Or.inr ⟨x, hx, v, ⟨y, hy, (List.prefix_append_right_inj x).1 hw⟩, rfl⟩

theorem prefixes_prefixes {L : Language β} {w : List β} (h : w ∈ prefixes (prefixes L)) : w ∈ prefixes L := by
  obtain ⟨y, ⟨x, hx, hyx⟩, hwy⟩ := h
  exact ⟨x, hx, hwy.trans hyx⟩

end Language

namespace Units

open Language

variable {β S : Type} {size : List β → Nat} {step : S → List β → S}

structure Whole (size : List β → Nat) (u : List β) : Prop where
  selfDelimiting : SelfDelimiting size u
  /-- Cut short, it is no unit, and starts with none. -/
  cut : ∀ k < u.length, units size (u.take k) = []

theorem units_short {bs : List β} (h : size bs = 0 ∨ bs.length < size bs) : units size bs = [] := by
  unfold units
  cases bs.length with
  | zero   => rfl
  | succ n => rw [Units.cut, if_pos h]

theorem consume_unit {u : List β} (hu : SelfDelimiting size u) (s : S) : consume size step s u = step s u := by
  have h := units_append hu []
  rw [List.append_nil] at h
  rw [consume, h]
  rfl

/-- Reading a word of `L` up to any point takes the reader from a state to one that `C` relates to it. -/
def Torn (size : List β → Nat) (step : S → List β → S) (L : Language β) (C : S → S → Prop) : Prop :=
  ∀ w ∈ prefixes L, ∀ s, C s (consume size step s w)

variable {L M : Language β} {R R' C C' D : S → S → Prop}

theorem Torn.mono (h : Torn size step L C) (hC : ∀ s s', C s s' → D s s') : Torn size step L D :=
  fun w hw s => hC _ _ (h w hw s)

theorem Torn.subset (h : Torn size step L C) (hML : ∀ w ∈ M, w ∈ L) : Torn size step M C := by
  rintro w ⟨x, hx, hw⟩ s
  exact h w ⟨x, hML x hx, hw⟩ s

theorem Torn.one (hC : ∀ s, C s s) : Torn size step 1 C := by
  rintro w ⟨x, rfl, hw⟩ s
  rw [List.prefix_nil.1 hw]
  exact hC s

theorem Torn.word {u : List β} (hu : Whole size u) :
    Torn size step (Language.word u) (fun s s' => s' = s ∨ s' = step s u) := by
  intro w hw s
  have hw := mem_prefixes_word.1 hw
  rcases Nat.lt_or_ge w.length u.length with hlt | hge
  · left
    rw [List.prefix_iff_eq_take.1 hw, consume, hu.cut _ hlt]
    rfl
  · right
    rw [hw.eq_of_length_le hge, consume_unit hu.selfDelimiting]

/-- **In sequence**: cut in the first, or the whole of the first and cut in the second. -/
theorem Torn.mul (hL : Torn size step L C) (hE : Effect size step L R) (hM : Torn size step M C')
    (h1 : ∀ s s', C s s' → D s s') (h2 : ∀ s s' s'', R s s' → C' s' s'' → D s s'') :
    Torn size step (L * M) D := by
  intro w hw s
  rcases mem_prefixes_mul hw with h | ⟨x, hx, v, hv, rfl⟩
  · exact h1 _ _ (hL w h s)
  · obtain ⟨s', hs, hcons⟩ := hE.consume hx s v
    rw [hcons]
    exact h2 _ _ _ hs (hM v hv s')

theorem Torn.prefixes (h : Torn size step L C) : Torn size step (Language.prefixes L) C :=
  fun w hw s => h w (prefixes_prefixes hw) s

theorem Torn.kstar (hL : Torn size step L C) (hE : Effect size step L R) (hrefl : ∀ s, C s s)
    (hstep : ∀ s s' s'', R s s' → C s' s'' → C s s'') : Torn size step L∗ C := by
  rintro w ⟨x, hx, hw⟩
  obtain ⟨us, rfl, hus⟩ := mem_kstar.1 hx
  clear hx
  induction us generalizing w with
  | nil => exact Torn.one hrefl w ⟨[], rfl, hw⟩
  | cons u us ih =>
    intro s
    have hmem : w ∈ Language.prefixes (L * Language.word us.flatten) :=
      ⟨_, append_mem_mul (hus u List.mem_cons_self) (word_self _), hw⟩
    rcases mem_prefixes_mul hmem with h | ⟨x, hx, v, hv, rfl⟩
    · exact hL w h s
    · obtain ⟨s', hs, hcons⟩ := hE.consume hx s v
      rw [hcons]
      exact hstep _ _ _ hs (ih v (fun y hy => hus y (List.mem_cons_of_mem _ hy)) (mem_prefixes_word.1 hv) s')

/-- Cut among the repeats of a unit that changes nothing when it is read again. -/
theorem Torn.plus_word {u : List β} (hu : Whole size u) (hid : ∀ s, step (step s u) u = step s u) :
    Torn size step (plus (Language.word u)) (fun s s' => s' = s ∨ s' = step s u) := by
  have hstar : Torn size step (Language.word u)∗ (fun s s' => s' = s ∨ s' = step s u) := by
    refine (Torn.word hu).kstar (Effect.word hu.selfDelimiting) (fun _ => Or.inl rfl) ?_
    rintro s _ s'' rfl (rfl | rfl)
    · exact Or.inr rfl
    · exact Or.inr (hid s)
  exact hstar.subset (fun w hw => plus_subset_kstar hw)

/-- **Repeated units cut short** have the effect of the first units. -/
theorem Torn.repeated : ∀ us : List (List β), (∀ u ∈ us, Whole size u) →
    (∀ u ∈ us, ∀ s, step (step s u) u = step s u) →
    Torn size step (Language.repeated us) (fun s s' => ∃ k, s' = (us.take k).foldl step s)
  | [], _, _         => Torn.one (fun _ => ⟨0, rfl⟩)
  | u :: us, hw, hid => by
    have hu := hw u List.mem_cons_self
    have hidu := hid u List.mem_cons_self
    rw [repeated_cons]
    refine (Torn.plus_word hu hidu).mul (Effect.plus_word hu.selfDelimiting hidu)
      (Torn.repeated us (fun v hv => hw v (List.mem_cons_of_mem _ hv)) (fun v hv => hid v (List.mem_cons_of_mem _ hv))) ?_ ?_
    · rintro s _ (rfl | rfl)
      · exact ⟨0, rfl⟩
      · exact ⟨1, rfl⟩
    · rintro s _ s'' rfl ⟨k, rfl⟩
      exact ⟨k + 1, rfl⟩

/-! ## What a whole word and a part of one both do -/

structure Keeps (size : List β → Nat) (step : S → List β → S) (L : Language β) (R : S → S → Prop) : Prop where
  effect : Effect size step L R
  torn : Torn size step L R

theorem Keeps.mono (h : Keeps size step L R) (hR : ∀ s s', R s s' → R' s s') : Keeps size step L R' :=
  ⟨h.effect.mono hR, h.torn.mono hR⟩

theorem Keeps.one (hR : ∀ s, R s s) : Keeps size step 1 R := ⟨Effect.one hR, Torn.one hR⟩

theorem Keeps.word {u : List β} (hu : Whole size u) (hrefl : ∀ s, R s s) (hstep : ∀ s, R s (step s u)) :
    Keeps size step (Language.word u) R where
  effect := (Effect.word hu.selfDelimiting).mono (fun s _ h => by rw [h]; exact hstep s)
  torn := (Torn.word hu).mono (fun s s' h => by
    rcases h with rfl | rfl
    · exact hrefl s'
    · exact hstep s)

theorem Keeps.mul (hL : Keeps size step L R) (hM : Keeps size step M R)
    (htrans : ∀ s s' s'', R s s' → R s' s'' → R s s'') : Keeps size step (L * M) R :=
  ⟨hL.effect.mul hM.effect htrans, hL.torn.mul hL.effect hM.torn (fun _ _ => id) htrans⟩

theorem Keeps.kstar (h : Keeps size step L R) (hrefl : ∀ s, R s s) (htrans : ∀ s s' s'', R s s' → R s' s'' → R s s'') :
    Keeps size step L∗ R :=
  ⟨h.effect.kstar hrefl htrans, h.torn.kstar h.effect hrefl htrans⟩

theorem Keeps.subset (h : Keeps size step L R) (hML : ∀ w ∈ M, w ∈ L) : Keeps size step M R :=
  ⟨fun w hw => h.effect w (hML w hw), h.torn.subset hML⟩

/-- The words of `L` are units. -/
theorem Keeps.units (hL : ∀ u ∈ L, Whole size u) (hrefl : ∀ s, R s s) (hstep : ∀ u ∈ L, ∀ s, R s (step s u)) :
    Keeps size step L R where
  effect := fun u hu => (Keeps.word (hL u hu) hrefl (hstep u hu)).effect u rfl
  torn := fun w ⟨u, hu, hw⟩ => (Keeps.word (hL u hu) hrefl (hstep u hu)).torn w ⟨u, rfl, hw⟩

end Units
