import Mathlib.Data.Set.Lattice
import Mathlib.Order.CompletePartialOrder
import Mathlib.Order.Interval.Set.Basic
/-!
# Burn — programming an erasable memory

A memory is a function of the address.  A burn erases an area and then stores data at its start; the erased area may be
larger than the data.  A sequence of burns leaves every datum in place when no burn erases or stores over the data of
an earlier one (`holds_burnAll`).  `Burning` is what a sequence leaves that is cut short.
-/
namespace Burn

variable {β : Type}

/-- `m` with the value `e` in the `n` cells from `a` on. -/
def fill (e : β) (m : Nat → β) (a n : Nat) : Nat → β := fun i => if a ≤ i ∧ i < a + n then e else m i

/-- `m` with `bs` from `a` on. -/
def store (m : Nat → β) (a : Nat) (bs : List β) : Nat → β := fun i => if a ≤ i then bs[i - a]?.getD (m i) else m i

/-- `m` has `bs` from `a` on. -/
def Holds (m : Nat → β) (a : Nat) (bs : List β) : Prop := ∀ i x, bs[i]? = some x → m (a + i) = x

/-- The `n` addresses from `a` on. -/
def area (a n : Nat) : Set Nat := Set.Ico a (a + n)

@[simp] theorem store_nil (m : Nat → β) (a : Nat) : store m a [] = m := by
  funext i
  simp [store]

/-- Storing in two pieces. -/
theorem store_append (m : Nat → β) (a : Nat) (xs ys : List β) :
    store (store m a xs) (a + xs.length) ys = store m a (xs ++ ys) := by
  funext i
  unfold store
  by_cases ha : a ≤ i
  · rw [if_pos ha, if_pos ha]
    by_cases hx : a + xs.length ≤ i
    · rw [if_pos hx, List.getElem?_append_right (by omega), List.getElem?_eq_none (show xs.length ≤ i - a by omega),
        Option.getD_none, Nat.sub_sub]
    · rw [if_neg hx, List.getElem?_append_left (by omega)]
  · rw [if_neg ha, if_neg (by omega), if_neg ha]

theorem holds_store (m : Nat → β) (a : Nat) (bs : List β) : Holds (store m a bs) a bs := by
  intro i x hx
  rw [store, if_pos (Nat.le_add_right a i), Nat.add_sub_cancel_left, hx, Option.getD_some]

theorem mem_area_of_getElem? {a i : Nat} {bs : List β} {x : β} (h : bs[i]? = some x) : a + i ∈ area a bs.length := by
  obtain ⟨hi, _⟩ := List.getElem?_eq_some_iff.1 h
  exact ⟨Nat.le_add_right a i, Nat.add_lt_add_left hi a⟩

theorem Holds.fill {e : β} {m : Nat → β} {a b n : Nat} {bs : List β} (h : Holds m b bs)
    (hd : Disjoint (area a n) (area b bs.length)) : Holds (Burn.fill e m a n) b bs := by
  intro i x hx
  have hno : ¬ (a ≤ b + i ∧ b + i < a + n) := fun hin => Set.disjoint_left.1 hd hin (mem_area_of_getElem? hx)
  rw [Burn.fill, if_neg hno]
  exact h i x hx

theorem Holds.store {m : Nat → β} {a b : Nat} {bs cs : List β} (h : Holds m b bs)
    (hd : Disjoint (area a cs.length) (area b bs.length)) : Holds (Burn.store m a cs) b bs := by
  intro i x hx
  have hno : ¬ (a ≤ b + i ∧ b + i < a + cs.length) := fun hin =>
    Set.disjoint_left.1 hd hin (mem_area_of_getElem? hx)
  rw [Burn.store]
  split
  · rw [List.getElem?_eq_none (by omega), Option.getD_none]
    exact h i x hx
  · exact h i x hx

/-! ## Sequences -/

structure Image (β : Type) where
  addr : Nat
  /-- The length of the area erased. -/
  erased : Nat
  data : List β

def burn (e : β) (m : Nat → β) (w : Image β) : Nat → β := store (fill e m w.addr w.erased) w.addr w.data

def burnAll (e : β) (m : Nat → β) (ws : List (Image β)) : Nat → β := ws.foldl (burn e) m

/-- Burning `w` leaves the data of `v` alone. -/
structure Spares (v w : Image β) : Prop where
  erased : Disjoint (area w.addr w.erased) (area v.addr v.data.length)
  data : Disjoint (area w.addr w.data.length) (area v.addr v.data.length)

/-- Images apart from each other: `w` above the data of `v`, or all of `w` below it. -/
theorem Spares.of_apart {v w : Image β}
    (h : v.addr + v.data.length ≤ w.addr ∨ w.addr + max w.erased w.data.length ≤ v.addr) : Spares v w := by
  have hdisj : ∀ n, n ≤ max w.erased w.data.length → Disjoint (area w.addr n) (area v.addr v.data.length) := by
    intro n hn
    refine Set.disjoint_left.2 (fun i hi hi' => ?_)
    obtain ⟨hlow, hhigh⟩ := Set.mem_Ico.1 hi
    obtain ⟨hlow', hhigh'⟩ := Set.mem_Ico.1 hi'
    omega
  exact ⟨hdisj _ (Nat.le_max_left _ _), hdisj _ (Nat.le_max_right _ _)⟩

theorem Holds.burnAll {e : β} {v : Image β} : ∀ (ws : List (Image β)) (m : Nat → β), (∀ w ∈ ws, Spares v w) →
    Holds m v.addr v.data → Holds (burnAll e m ws) v.addr v.data
  | [], _, _, h       => h
  | w :: ws, m, hs, h => by
    have hw := hs w List.mem_cons_self
    exact Holds.burnAll ws _ (fun w' h' => hs w' (List.mem_cons_of_mem _ h')) ((h.fill hw.erased).store hw.data)

/-- **Every image burnt is there at the end**, when each spares the ones before it. -/
theorem holds_burnAll {e : β} : ∀ (ws : List (Image β)) (m : Nat → β), ws.Pairwise Spares →
    ∀ w ∈ ws, Holds (burnAll e m ws) w.addr w.data
  | [], _, _, w, hw          => by simp at hw
  | v :: ws, m, hp, w, hw => by
    obtain ⟨hv, hp⟩ := List.pairwise_cons.1 hp
    rcases List.mem_cons.1 hw with rfl | hw
    · exact Holds.burnAll ws _ hv (holds_store _ _ _)
    · exact holds_burnAll ws _ hp w hw

/-! ## Cut short -/

/-- `m` once `w` is erased and the first `n` of its data are stored. -/
def burnTo (e : β) (m : Nat → β) (w : Image β) (n : Nat) : Nat → β :=
  store (fill e m w.addr w.erased) w.addr (w.data.take n)

/-- What burning a list of images leaves of a memory when it is cut short. -/
inductive Burning (e : β) : (Nat → β) → List (Image β) → (Nat → β) → Prop where
  | stop (m : Nat → β) (ws : List (Image β)) : Burning e m ws m
  | torn (m : Nat → β) (w : Image β) (ws : List (Image β)) (n : Nat) : Burning e m (w :: ws) (burnTo e m w n)
  | next {m m' : Nat → β} {w : Image β} {ws : List (Image β)} (h : Burning e (burn e m w) ws m') :
    Burning e m (w :: ws) m'

/-- The cells that burning `w` may change. -/
def Image.cells (w : Image β) : Set Nat := area w.addr (max w.erased w.data.length)

theorem burnTo_length (e : β) (m : Nat → β) (w : Image β) : burnTo e m w w.data.length = burn e m w := by
  rw [burnTo, List.take_length]
  rfl

theorem fill_outside (e : β) (m : Nat → β) {a n i : Nat} (hi : i ∉ area a n) : fill e m a n i = m i := if_neg hi

theorem store_outside (m : Nat → β) {a i : Nat} {bs : List β} (hi : i ∉ area a bs.length) : store m a bs i = m i := by
  have hout : ¬ (a ≤ i ∧ i < a + bs.length) := hi
  unfold store
  split
  · rw [List.getElem?_eq_none (by omega), Option.getD_none]
  · rfl

theorem burnTo_outside (e : β) (m : Nat → β) {w : Image β} (n : Nat) {i : Nat} (hi : i ∉ w.cells) :
    burnTo e m w n i = m i := by
  have hstored : (w.data.take n).length ≤ max w.erased w.data.length := by
    rw [List.length_take]
    omega
  rw [burnTo, store_outside _ (fun h => hi (Set.Ico_subset_Ico_right (Nat.add_le_add_left hstored _) h)),
    fill_outside e m (fun h => hi (Set.Ico_subset_Ico_right (Nat.add_le_add_left (Nat.le_max_left _ _) _) h))]

theorem burn_outside (e : β) (m : Nat → β) {w : Image β} {i : Nat} (hi : i ∉ w.cells) : burn e m w i = m i := by
  rw [← burnTo_length]
  exact burnTo_outside e m _ hi

/-- **Only cells of the images change**, wherever the burning stops. -/
theorem Burning.outside {e : β} {m m' : Nat → β} {ws : List (Image β)} (h : Burning e m ws m') {i : Nat}
    (hi : ∀ w ∈ ws, i ∉ w.cells) : m' i = m i := by
  induction h with
  | stop m ws => rfl
  | torn m w ws n => exact burnTo_outside e m n (hi w List.mem_cons_self)
  | next h ih =>
    rw [ih (fun w hw => hi w (List.mem_cons_of_mem _ hw))]
    exact burn_outside e _ (hi _ List.mem_cons_self)

theorem Burning.done (e : β) : ∀ (m : Nat → β) (ws : List (Image β)), Burning e m ws (burnAll e m ws)
  | m, []      => .stop m []
  | m, w :: ws => .next (Burning.done e (burn e m w) ws)

theorem Holds.burnTo {e : β} {m : Nat → β} {v w : Image β} (n : Nat) (hs : Spares v w) (h : Holds m v.addr v.data) :
    Holds (Burn.burnTo e m w n) v.addr v.data := by
  refine (h.fill hs.erased).store (hs.data.mono_left (Set.Ico_subset_Ico_right ?_))
  rw [List.length_take]
  omega

/-- Data in place stay there while images that spare them are burnt. -/
theorem Burning.holds {e : β} {v : Image β} {m m' : Nat → β} {ws : List (Image β)} (h : Burning e m ws m')
    (hs : ∀ w ∈ ws, Spares v w) (hv : Holds m v.addr v.data) : Holds m' v.addr v.data := by
  induction h with
  | stop m ws => exact hv
  | torn m w ws n => exact hv.burnTo n (hs w List.mem_cons_self)
  | next h ih =>
    have hw := hs _ List.mem_cons_self
    exact ih (fun w' h' => hs w' (List.mem_cons_of_mem _ h')) ((hv.fill hw.erased).store hw.data)

/-- **Where a burning stopped**: the first `k` images are in place, the next may be torn, and the others have not been
begun. -/
theorem Burning.stopped {e : β} {m m' : Nat → β} {ws : List (Image β)} (h : Burning e m ws m')
    (hs : ws.Pairwise Spares) : ∃ k, (∀ w ∈ ws.take k, Holds m' w.addr w.data) ∧
      ∀ i, (∀ w ∈ ws.take (k + 1), i ∉ w.cells) → m' i = m i := by
  induction h with
  | stop m ws => exact ⟨0, fun w hw => (nomatch hw), fun i _ => rfl⟩
  | torn m w ws n => exact ⟨0, fun w hw => (nomatch hw), fun i hi => burnTo_outside e m n (hi w List.mem_cons_self)⟩
  | next h ih =>
    obtain ⟨hw, hs⟩ := List.pairwise_cons.1 hs
    obtain ⟨k, hheld, hout⟩ := ih hs
    refine ⟨k + 1, fun v hv => ?_, fun i hi => ?_⟩
    · rcases List.mem_cons.1 hv with rfl | hv
      · exact h.holds hw (holds_store _ _ _)
      · exact hheld v hv
    · rw [hout i (fun v hv => hi v (List.mem_cons_of_mem _ hv))]
      exact burn_outside e _ (hi _ List.mem_cons_self)

end Burn
