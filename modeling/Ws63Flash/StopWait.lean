import Ws63Flash.Replay
/-!
# StopWait — the sender and the receiver together

An ACK carries no number, and a transmission repeated on a timeout is answered twice; the sender takes the second
answer for the next block's.  Up to the first such timeout nothing is under way whenever an ACK is taken
(`AckedTo.calm`), so a transfer that succeeds without one before its last block has delivered its data
(`ymodemXfer_delivers`).
-/
namespace Ws63Flash

open Octets Units Proc Coupling

/-- Nothing of the sender and no answer is under way. -/
structure Sys.Calm (r : Rx) (s : Sys) : Prop where
  fwd : s.fwd = []
  bwd : answers s.bwd = []
  rx : s.rx = r

/-- A unit `u` is sent to a receiver in the state `r`, which goes into the state `r'` with it; `w` is not yet written. -/
inductive Sys.Busy (u : List UInt8) (r r' : Rx) (w : List UInt8) (s : Sys) : Prop where
  | coming (hw : s.fwd ++ w = u) (ha : answers s.bwd = []) (hr : s.rx = r)
  | taken (hw : w = []) (hf : s.fwd = []) (ha : answers s.bwd = [ACK]) (hr : s.rx = r')
  | refused (hw : w = []) (hf : s.fwd = []) (ha : answers s.bwd = [NAK]) (hr : s.rx = r)

section

variable {s t : Sys} {r r' : Rx} {u w : List UInt8}

theorem Sys.Calm.step (h : s.Calm r) (hst : Sys.Step s t) : t.Calm r := by
  cases hst with
  | deliver hu _ => exact absurd (List.append_eq_nil_iff.1 h.fwd).1 hu.1
  | damage hu => exact absurd (List.append_eq_nil_iff.1 h.fwd).1 hu.1
  | stray b hA hN => exact ⟨h.fwd, (answers_stray _ _ hA hN).trans h.bwd, h.rx⟩

theorem Sys.Calm.event (h : s.Calm r) {x : Ev} (hx : Sys.Sees x s t) (hw : x.sent = []) : t.Calm r := by
  cases hx with
  | mk =>
    obtain ⟨hf, hb, hr⟩ := h
    rw [answers_append] at hb
    exact ⟨by rw [hw, List.append_nil]; exact hf, (List.append_eq_nil_iff.1 hb).2, hr⟩

theorem Sys.Calm.run (h : s.Calm r) {e : List Ev} (hc : s.Goes e t) (hw : written e = []) :
    t.Calm r := by
  refine (Coupled.inv (fun e s => written e = [] ∧ s.Calm r) ?_ ?_ hc ⟨hw, h⟩).2
  · exact fun e s t hst ⟨hw, h⟩ => ⟨hw, h.step hst⟩
  · intro x e s t hx ⟨hw, h⟩
    rw [written_cons] at hw
    obtain ⟨hx0, he⟩ := List.append_eq_nil_iff.1 hw
    exact ⟨he, h.event hx hx0⟩

theorem Sys.Calm.busy (h : s.Calm r) : s.Busy u r r' u := .coming (by rw [h.fwd]; rfl) h.bwd h.rx

/-- The whole of a unit has been written once a unit is there. -/
theorem whole_arrived {v fwd : List UInt8} (hu : SelfDelimiting blkSize u) (hv : SelfDelimiting blkSize v)
    (h : v ++ fwd ++ w = u) : v = u ∧ fwd = [] ∧ w = [] := by
  rw [List.append_assoc] at h
  obtain ⟨rfl, hrest⟩ := eq_of_append hu hv (h.trans (List.append_nil u).symm)
  exact ⟨rfl, List.append_eq_nil_iff.1 hrest⟩

theorem Sys.Busy.step (hu : SelfDelimiting blkSize u) (hT : r.Takes u r' [ACK]) (h : s.Busy u r r' w)
    (hst : Sys.Step s t) : t.Busy u r r' w := by
  cases h with
  | coming hw ha hr =>
    cases hst with
    | deliver hv hv' =>
      obtain ⟨rfl, hf, hw⟩ := whole_arrived hu hv hw
      dsimp only at ha hr
      rw [hr] at hv'
      obtain ⟨rfl, rfl⟩ := hT.det hv'
      exact .taken hw hf (by rw [answers_append, ha]; rfl) rfl
    | damage hv =>
      obtain ⟨rfl, hf, hw⟩ := whole_arrived hu hv hw
      dsimp only at ha
      exact .refused hw hf (by rw [answers_append, ha]; rfl) hr
    | stray b hA hN => exact .coming hw ((answers_stray _ _ hA hN).trans ha) hr
  | taken hw hf ha hr =>
    cases hst with
    | deliver hv _ => exact absurd (List.append_eq_nil_iff.1 hf).1 hv.1
    | damage hv => exact absurd (List.append_eq_nil_iff.1 hf).1 hv.1
    | stray b hA hN => exact .taken hw hf ((answers_stray _ _ hA hN).trans ha) hr
  | refused hw hf ha hr =>
    cases hst with
    | deliver hv _ => exact absurd (List.append_eq_nil_iff.1 hf).1 hv.1
    | damage hv => exact absurd (List.append_eq_nil_iff.1 hf).1 hv.1
    | stray b hA hN => exact .refused hw hf ((answers_stray _ _ hA hN).trans ha) hr

theorem Sys.Busy.event {x : Ev} (hx : Sys.Sees x s t) (hg : answers x.got = []) (h : s.Busy u r r' (x.sent ++ w)) :
    t.Busy u r r' w := by
  cases hx with
  | mk =>
    cases h with
    | coming hw ha hr =>
      rw [answers_append, hg] at ha
      exact .coming (by rw [← hw]; exact List.append_assoc _ _ _) ha hr
    | taken hw hf ha hr =>
      obtain ⟨hx, hw⟩ := List.append_eq_nil_iff.1 hw
      rw [answers_append, hg] at ha
      exact .taken hw (by rw [hx, List.append_nil]; exact hf) ha hr
    | refused hw hf ha hr =>
      obtain ⟨hx, hw⟩ := List.append_eq_nil_iff.1 hw
      rw [answers_append, hg] at ha
      exact .refused hw (by rw [hx, List.append_nil]; exact hf) ha hr

/-- **One turn's sending**: afterwards the unit is on its way, or its answer is. -/
theorem Sends.busy (hu : SelfDelimiting blkSize u) (hT : r.Takes u r' [ACK]) {e : List Ev} (he : Sends u e)
    (h : s.Calm r) (hc : s.Goes e t) : t.Busy u r r' [] := by
  refine (Coupled.inv (fun e s => answers (received e) = [] ∧ s.Busy u r r' (written e)) ?_ ?_ hc
    ⟨he.unanswered, by rw [he.bytes]; exact h.busy⟩).2
  · exact fun e s t hst ⟨hg, h⟩ => ⟨hg, h.step hu hT hst⟩
  · intro x e s t hx ⟨hg, h⟩
    rw [received_cons, answers_append] at hg
    obtain ⟨hx0, he⟩ := List.append_eq_nil_iff.1 hg
    rw [written_cons] at h
    exact ⟨he, Sys.Busy.event hx hx0 h⟩

theorem Sys.Busy.read {b : UInt8} {r₁ : Rx} (hb : b = ACK ∧ r₁ = r' ∨ b = NAK ∧ r₁ = r) {x : Ev}
    (hx : Sys.Sees x s t) (hg : x.got = [b]) (hx0 : x.sent = []) (h : s.Busy u r r' []) : t.Calm r₁ := by
  have hans : answers [b] = [b] := by rcases hb with ⟨rfl, _⟩ | ⟨rfl, _⟩ <;> rfl
  cases hx with
  | mk =>
    cases h with
    | coming _ ha _ =>
      rw [hg, answers_append, hans] at ha
      exact nomatch ha
    | taken _ hf ha hr =>
      rw [hg, answers_append, hans] at ha
      obtain ⟨rfl, hb0⟩ := List.cons.inj ha
      rcases hb with ⟨_, rfl⟩ | ⟨hN, _⟩
      · exact ⟨by rw [hx0, List.append_nil]; exact hf, hb0, hr⟩
      · exact absurd hN (by decide)
    | refused _ hf ha hr =>
      rw [hg, answers_append, hans] at ha
      obtain ⟨rfl, hb0⟩ := List.cons.inj ha
      rcases hb with ⟨hA, _⟩ | ⟨_, rfl⟩
      · exact absurd hA (by decide)
      · exact ⟨by rw [hx0, List.append_nil]; exact hf, hb0, hr⟩

/-- **The end of a turn**: the answer read is the unit's own. -/
theorem Sys.Busy.answered (hu : SelfDelimiting blkSize u) (hT : r.Takes u r' [ACK]) {b : UInt8} {r₁ : Rx}
    (hb : b = ACK ∧ r₁ = r' ∨ b = NAK ∧ r₁ = r) {e : List Ev} (hw : written e = []) (hg : received e = [b])
    (h : s.Busy u r r' []) (hc : s.Goes e t) : t.Calm r₁ := by
  have hres := Coupled.inv (fun e s => written e = [] ∧ (received e = [b] ∧ s.Busy u r r' [] ∨ received e = [] ∧ s.Calm r₁))
    ?_ ?_ hc ⟨hw, Or.inl ⟨hg, h⟩⟩
  · rcases hres with ⟨_, ⟨h, _⟩ | ⟨_, h⟩⟩
    · exact nomatch h
    · exact h
  · rintro e s t hst ⟨hw, ⟨hg, h⟩ | ⟨hg, h⟩⟩
    · exact ⟨hw, Or.inl ⟨hg, h.step hu hT hst⟩⟩
    · exact ⟨hw, Or.inr ⟨hg, h.step hst⟩⟩
  · rintro x e s t hx ⟨hw, h⟩
    rw [written_cons] at hw
    obtain ⟨hx0, hw⟩ := List.append_eq_nil_iff.1 hw
    refine ⟨hw, ?_⟩
    rcases h with ⟨hg, h⟩ | ⟨hg, h⟩
    · rw [received_cons] at hg
      rcases List.append_eq_singleton_iff.1 hg with ⟨hx1, hg⟩ | ⟨hx1, hg⟩
      · exact Or.inl ⟨hg, Sys.Busy.event hx (by rw [hx1]; rfl) (by rw [hx0]; exact h)⟩
      · exact Or.inr ⟨hg, h.read hb hx hx1 hx0⟩
    · rw [received_cons] at hg
      exact Or.inr ⟨(List.append_eq_nil_iff.1 hg).2, h.event hx hx0⟩

/-- No wait ends on its timeout. -/
def InTime (e : List Ev) : Prop := ∀ e₁ t e₂, e ≠ e₁ ++ .time t :: .ret .ymodemWaitAck EAGAIN.code :: e₂

theorem InTime.left {e e' : List Ev} (h : InTime (e ++ e')) : InTime e := fun e₁ t e₂ he =>
  h e₁ t (e₂ ++ e') (by rw [he, List.append_assoc]; rfl)

theorem InTime.right {e e' : List Ev} (h : InTime (e ++ e')) : InTime e' := fun e₁ t e₂ he =>
  h (e ++ e₁) t e₂ (by rw [he, List.append_assoc])

/-- **A unit sent until it is acknowledged**, no wait ending on its timeout: it is taken once. -/
theorem Acked.calm (hu : SelfDelimiting blkSize u) (hT : r.Takes u r' [ACK]) {e : List Ev} (he : Acked u e)
    (hp : InTime e) (h : s.Calm r) (hc : s.Goes e t) : t.Calm r' := by
  induction he generalizing s with
  | last hs =>
    obtain ⟨m, h1, h2⟩ := hc.split
    exact (hs.busy hu hT h h1).answered hu hT (Or.inl ⟨rfl, rfl⟩) rfl rfl h2
  | again hs hr _ ih =>
    obtain ⟨m, h12, h3⟩ := hc.split
    obtain ⟨m', h1, h2⟩ := h12.split
    cases hr with
    | nak =>
      exact ih hp.right ((hs.busy hu hT h h1).answered hu hT (Or.inr ⟨rfl, rfl⟩) rfl rfl h2) h3
    | late t => exact absurd rfl (hp.left.right [] t [])

/-! ## The last data block

Its waits may end on their timeouts: then copies of it are under way, and the receiver drops all but one. -/

structure Sys.Copies (u : List UInt8) (r r' : Rx) (w : List UInt8) (s : Sys) : Prop where
  bytes : ∃ us : List (List UInt8), s.fwd ++ w = us.flatten ∧ ∀ v ∈ us, v = u
  taken : s.rx = r ∧ ACK ∉ s.bwd ∨ s.rx = r'

theorem Sys.Copies.step (hu : SelfDelimiting blkSize u) (hT : r.Takes u r' [ACK]) (hR : r'.Takes u r' [ACK])
    (h : s.Copies u r r' w) (hst : Sys.Step s t) : t.Copies u r r' w ∧ (s.rx = r' → t.rx = r') := by
  obtain ⟨⟨us, hus, hall⟩, htaken⟩ := h
  have hunits : ∀ v ∈ us, SelfDelimiting blkSize v := fun v hv => hall v hv ▸ hu
  cases hst with
  | @deliver v _ _ ans r₁ r₂ hv hTv =>
    rw [List.append_assoc] at hus
    obtain ⟨us', rfl, hrest⟩ := front_unit hv hunits hus
    obtain rfl := hall _ List.mem_cons_self
    have hnext : r₂ = r' := by
      rcases htaken with ⟨hr, _⟩ | hr <;> dsimp only at hr <;> rw [hr] at hTv
      · exact (hT.det hTv).1
      · exact (hR.det hTv).1
    exact ⟨⟨⟨us', hrest, fun v hv => hall v (List.mem_cons_of_mem _ hv)⟩, Or.inr hnext⟩, fun _ => hnext⟩
  | damage hv =>
    rw [List.append_assoc] at hus
    obtain ⟨us', rfl, hrest⟩ := front_unit hv hunits hus
    refine ⟨⟨⟨us', hrest, fun v hv => hall v (List.mem_cons_of_mem _ hv)⟩, ?_⟩, id⟩
    refine htaken.imp (fun ⟨hr, hA⟩ => ⟨hr, fun hmem => ?_⟩) id
    rcases List.mem_append.1 hmem with h | h
    · exact hA h
    · exact absurd (List.mem_singleton.1 h) (by decide)
  | stray b hA hN =>
    refine ⟨⟨⟨us, hus, hall⟩, htaken.imp (fun ⟨hr, hans⟩ => ⟨hr, fun hmem => ?_⟩) id⟩, id⟩
    rcases List.mem_append.1 hmem with h | h
    · exact hans (List.mem_append_left _ h)
    · rcases List.mem_cons.1 h with h | h
      · exact hA h.symm
      · exact hans (List.mem_append_right _ h)

theorem Sys.Copies.event {x : Ev} (hx : Sys.Sees x s t) (h : s.Copies u r r' (x.sent ++ w)) :
    t.Copies u r r' w ∧ (ACK ∈ x.got ∨ s.rx = r' → t.rx = r') := by
  cases hx with
  | mk =>
    obtain ⟨⟨us, hus, hall⟩, htaken⟩ := h
    refine ⟨⟨⟨us, ?_, hall⟩, ?_⟩, ?_⟩
    · rw [← hus]
      exact List.append_assoc _ _ _
    · exact htaken.imp (fun ⟨hr, hA⟩ => ⟨hr, fun hmem => hA (List.mem_append_right _ hmem)⟩) id
    · rintro (hmem | hr)
      · rcases htaken with ⟨_, hA⟩ | hr
        · exact absurd (List.mem_append_left _ hmem) hA
        · exact hr
      · exact hr

/-- **The last data block**, however often it was sent: once an ACK is taken the receiver has it. -/
theorem Acked.copies (hu : SelfDelimiting blkSize u) (hT : r.Takes u r' [ACK]) (hR : r'.Takes u r' [ACK]) {e : List Ev}
    (he : Acked u e) (h : s.Calm r) (hc : s.Goes e t) : t.Copies u r r' [] ∧ t.rx = r' := by
  have hack : ACK ∈ received e := by
    obtain ⟨e₀, rfl⟩ := he.ends
    rw [received_append]
    exact List.mem_append_right _ (List.mem_singleton.2 rfl)
  have h0 : s.Copies u r r' (written e) := by
    obtain ⟨us, hus, hall⟩ := he.written_eq
    refine ⟨⟨us, by rw [h.fwd, ← hus]; rfl, hall⟩, Or.inl ⟨h.rx, fun hmem => ?_⟩⟩
    have hans : ACK ∈ answers s.bwd := List.mem_filter.2 ⟨hmem, by decide⟩
    rw [h.bwd] at hans
    exact nomatch hans
  have hend := Coupled.inv (fun e (s : Sys) => s.Copies u r r' (written e) ∧ (ACK ∈ received e ∨ s.rx = r')) ?_ ?_ hc
    ⟨h0, Or.inl hack⟩
  · exact ⟨hend.1, hend.2.resolve_left (fun h => nomatch h)⟩
  · intro e s t hst ⟨h, hr⟩
    obtain ⟨h', hkeep⟩ := h.step hu hT hR hst
    exact ⟨h', hr.imp id hkeep⟩
  · intro x e s t hx ⟨h, hr⟩
    rw [written_cons] at h
    obtain ⟨h', hkeep⟩ := Sys.Copies.event hx h
    refine ⟨h', ?_⟩
    rcases hr with hr | hr
    · rw [received_cons] at hr
      exact (List.mem_append.1 hr).elim (fun hg => Or.inr (hkeep (Or.inl hg))) Or.inl
    · exact Or.inr (hkeep (Or.inr hr))

/-! ## The end of the session -/

/-- Copies of the last data block may still be under way, and after them units that are no data blocks. -/
structure Sys.Tail (u : List UInt8) (r' : Rx) (w : List UInt8) (s : Sys) : Prop where
  bytes : ∃ us vs : List (List UInt8), s.fwd ++ w = (us ++ vs).flatten ∧ (∀ v ∈ us, v = u) ∧
    (∀ v ∈ vs, SelfDelimiting blkSize v ∧ v.head? ≠ some STX) ∧ (us ≠ [] → s.rx = r')
  data : s.rx.data = r'.data

theorem blkEnd_noData : blkEnd.head? ≠ some STX := by
  rw [blkEnd_eq]
  exact fun h => absurd (Option.some.inj h) (by decide)

theorem Sys.Copies.tail {e₂ e₃ : List Ev} (h : s.Copies u r r' []) (hr : s.rx = r') (h₂ : Acked [EOT] e₂)
    (h₃ : Acked blkEnd e₃) : s.Tail u r' (written (e₂ ++ (e₃ ++ [.ret .ymodemXfer EXIT_SUCCESS]))) := by
  obtain ⟨⟨us, hus, hall⟩, _⟩ := h
  obtain ⟨us₂, hus₂, hall₂⟩ := h₂.written_eq
  obtain ⟨us₃, hus₃, hall₃⟩ := h₃.written_eq
  refine ⟨⟨us, us₂ ++ us₃, ?_, hall, fun v hv => ?_, fun _ => hr⟩, by rw [hr]⟩
  · rw [List.append_nil] at hus
    rw [written_append, written_append, hus, hus₂, hus₃, List.flatten_append, List.flatten_append]
    exact congrArg _ (congrArg _ (List.append_nil _))
  · rcases List.mem_append.1 hv with hv | hv
    · rw [hall₂ v hv]
      exact ⟨eot_selfDelimiting, by decide⟩
    · rw [hall₃ v hv]
      exact ⟨blkEnd_selfDelimiting, blkEnd_noData⟩

theorem Sys.Tail.step (hu : SelfDelimiting blkSize u) (hR : r'.Takes u r' [ACK]) (h : s.Tail u r' w)
    (hst : Sys.Step s t) : t.Tail u r' w := by
  obtain ⟨⟨us, vs, hus, hall, hvs, hr⟩, hdata⟩ := h
  have hunits : ∀ v ∈ us ++ vs, SelfDelimiting blkSize v := fun v hv =>
    (List.mem_append.1 hv).elim (fun hv => hall v hv ▸ hu) (fun hv => (hvs v hv).1)
  cases hst with
  | deliver hv hTv =>
    rw [List.append_assoc] at hus
    obtain ⟨us', hcons, hrest⟩ := front_unit hv hunits hus
    cases us with
    | nil =>
      rw [List.nil_append] at hcons
      subst hcons
      exact ⟨⟨[], us', hrest, nofun, fun v hv => hvs v (List.mem_cons_of_mem _ hv), nofun⟩,
        (hTv.data (hvs _ List.mem_cons_self).2).trans hdata⟩
    | cons v us =>
      obtain ⟨rfl, rfl⟩ := List.cons.inj hcons
      obtain rfl := hall _ List.mem_cons_self
      have hr' := hr (List.cons_ne_nil _ _)
      dsimp only at hr'
      rw [hr'] at hTv
      obtain ⟨rfl, _⟩ := hR.det hTv
      exact ⟨⟨us, vs, hrest, fun v hv => hall v (List.mem_cons_of_mem _ hv), hvs, fun _ => rfl⟩, rfl⟩
  | damage hv =>
    rw [List.append_assoc] at hus
    obtain ⟨us', hcons, hrest⟩ := front_unit hv hunits hus
    cases us with
    | nil =>
      rw [List.nil_append] at hcons
      subst hcons
      exact ⟨⟨[], us', hrest, nofun, fun v hv => hvs v (List.mem_cons_of_mem _ hv), nofun⟩, hdata⟩
    | cons v us =>
      obtain ⟨rfl, rfl⟩ := List.cons.inj hcons
      exact ⟨⟨us, vs, hrest, fun v hv => hall v (List.mem_cons_of_mem _ hv), hvs, fun _ => hr (List.cons_ne_nil _ _)⟩,
        hdata⟩
  | stray b hA hN => exact ⟨⟨us, vs, hus, hall, hvs, hr⟩, hdata⟩

theorem Sys.Tail.event {x : Ev} (hx : Sys.Sees x s t) (h : s.Tail u r' (x.sent ++ w)) : t.Tail u r' w := by
  cases hx with
  | mk =>
    obtain ⟨⟨us, vs, hus, hrest⟩, hdata⟩ := h
    exact ⟨⟨us, vs, by rw [← hus]; exact List.append_assoc _ _ _, hrest⟩, hdata⟩

theorem Sys.Tail.run (hu : SelfDelimiting blkSize u) (hR : r'.Takes u r' [ACK]) {e : List Ev}
    (h : s.Tail u r' (written e)) (hc : s.Goes e t) : t.rx.data = r'.data :=
  (Coupled.inv (fun e (s : Sys) => s.Tail u r' (written e)) (fun _ _ _ hst h => h.step hu hR hst)
    (fun x e _ _ hx h => Sys.Tail.event hx (by rw [← written_cons]; exact h)) hc h).data

end

/-! ## The session -/

/-- The receiver that has stored the blocks before block `i` and waits for it. -/
def Rx.awaiting (fn : CStr) (len : Nat) (data : List UInt8) (i : Nat) : Rx :=
  ⟨UInt8.ofNat i, (List.range i).map (blkAt fn len data)⟩

section

variable (fn : CStr) (len : Nat) (data : List UInt8) (i : Nat)

theorem blkAt_selfDelimiting : SelfDelimiting blkSize (blkAt fn len data i) := by
  cases i with
  | zero =>
    obtain ⟨p, hp, hblk⟩ := blk0_shape fn len
    rw [blkAt, hblk]
    exact sohBlk_selfDelimiting hp
  | succ i => exact stxBlk_selfDelimiting (chunk_length data i)

theorem blkAt_carries : Carries (blkAt fn len data i) (UInt8.ofNat i) := by
  cases i with
  | zero =>
    obtain ⟨p, _, hblk⟩ := blk0_shape fn len
    rw [blkAt, hblk]
    exact sohBlk_carries 0 p
  | succ i =>
    have hseq : UInt8.ofNat ((i + 1) % 0x100) = UInt8.ofNat (i + 1) := by
      apply UInt8.toNat_inj.1
      rw [UInt8.toNat_ofNat', UInt8.toNat_ofNat', Nat.mod_mod]
    rw [blkAt, dataBlk_eq, hseq]
    exact stxBlk_carries _ _

theorem ofNat_succ : UInt8.ofNat i + 1 = UInt8.ofNat (i + 1) := by
  apply UInt8.toNat_inj.1
  rw [UInt8.toNat_add, UInt8.toNat_ofNat', UInt8.toNat_ofNat']
  exact (Nat.add_mod i 1 256).symm

theorem takes_blkAt : (Rx.awaiting fn len data i).Takes (blkAt fn len data i) (Rx.awaiting fn len data (i + 1)) [ACK] := by
  have hnext : Rx.awaiting fn len data (i + 1)
      = ⟨UInt8.ofNat i + 1, (List.range i).map (blkAt fn len data) ++ [blkAt fn len data i]⟩ := by
    rw [Rx.awaiting, ofNat_succ, List.range_succ, List.map_append]
    rfl
  rw [hnext]
  exact .store (blkAt_carries fn len data i)

theorem takes_blkAt_again :
    (Rx.awaiting fn len data (i + 1)).Takes (blkAt fn len data i) (Rx.awaiting fn len data (i + 1)) [ACK] :=
  .again (blkAt_carries fn len data i) (ofNat_succ i)

theorem awaiting_data : (Rx.awaiting fn len data (i + 1)).data = dataBlksTo data i := by
  obtain ⟨p, _, hblk⟩ := blk0_shape fn len
  have hfirst : ¬ ((blkAt fn len data 0).head? = some STX) := by
    rw [blkAt, hblk]
    exact fun h => absurd (Option.some.inj h) (by decide)
  have hrest : ∀ u ∈ dataBlksTo data i, decide (u.head? = some STX) = true := fun u hu => by
    obtain ⟨j, _, rfl⟩ := List.mem_map.1 hu
    rfl
  rw [Rx.data, Rx.awaiting, List.range_succ_eq_map, List.map_cons, List.map_map,
    List.filter_cons_of_neg (by simpa using hfirst)]
  exact List.filter_eq_self.2 hrest

end

/-- No wait ends on its timeout before `n` ACKs have been taken: the waits for the answers to the blocks before block
`n`. -/
def Timely (n : Nat) (e : List Ev) : Prop :=
  ∀ e₁ t e₂, e = e₁ ++ .time t :: .ret .ymodemWaitAck EAGAIN.code :: e₂ → n ≤ acked e₁

theorem Timely.left {n : Nat} {e e' : List Ev} (h : Timely n (e ++ e')) : Timely n e := fun e₁ t e₂ he =>
  h e₁ t (e₂ ++ e') (by rw [he, List.append_assoc]; rfl)

theorem Timely.of_waits {n : Nat} {e : List Ev} (h : (EAGAIN.code : Int) ∉ waits e) : Timely n e := by
  intro e₁ t e₂ he
  rw [he, waits_append] at h
  exact absurd (List.mem_append_right _ List.mem_cons_self) h

theorem Timely.inTime {n : Nat} {e : List Ev} (h : Timely n (e ++ ackEnd)) (hn : acked (e ++ ackEnd) ≤ n) :
    InTime (e ++ ackEnd) := by
  intro e₁ t e₂ he
  have hle := h e₁ t e₂ he
  -- the ACK that ends the events comes after the timeout
  have hpos : 0 < acked e₂ := by
    rcases List.eq_nil_or_concat' e₂ with rfl | ⟨e₃, x, rfl⟩
    · exact nomatch (List.append_inj' he rfl).2
    · have hends : (e ++ [.read (.data [ACK])]) ++ [.ret .ymodemWaitAck 0]
          = (e₁ ++ [.time t, .ret .ymodemWaitAck EAGAIN.code] ++ e₃) ++ [x] := by simpa [ackEnd] using he
      obtain rfl := (List.cons.inj (List.append_inj' hends rfl).2).1
      rw [acked_append]
      exact Nat.succ_pos _
  have hsplit : e₁ ++ .time t :: .ret .ymodemWaitAck EAGAIN.code :: e₂
      = e₁ ++ ([.time t, .ret .ymodemWaitAck EAGAIN.code] ++ e₂) := rfl
  rw [he, hsplit, acked_append, acked_append] at hn
  omega

section

variable {fn : CStr} {len : Nat} {data : List UInt8} {i : Nat} {s : Sys} {e : List Ev}

theorem start_calm : Sys.start.Calm (Rx.awaiting fn len data 0) := ⟨rfl, rfl, rfl⟩

/-- **Stop and wait**: no wait ending on its timeout, nothing is under way when the ACK for block `i` is taken. -/
theorem AckedTo.calm (h : AckedTo fn len data i e) (hp : InTime e) (hc : Reaches e s) :
    s.Calm (Rx.awaiting fn len data (i + 1)) := by
  induction h generalizing s with
  | first hw _ h =>
    obtain ⟨m, h1, h2⟩ := hc.split
    exact h.calm (blkAt_selfDelimiting fn len data 0) (takes_blkAt fn len data 0) hp.right (start_calm.run h1 hw) h2
  | next _ h ih =>
    obtain ⟨m, h1, h2⟩ := hc.split
    exact h.calm (blkAt_selfDelimiting fn len data _) (takes_blkAt fn len data _) hp.right (ih hp.left h1) h2

/-- Its own waits may end on their timeouts. -/
theorem AckedTo.last (h : AckedTo fn len data i e) (ht : Timely i e) (hc : Reaches e s) :
    s.Copies (blkAt fn len data i) (Rx.awaiting fn len data i) (Rx.awaiting fn len data (i + 1)) [] ∧
      s.rx = Rx.awaiting fn len data (i + 1) := by
  cases h with
  | first hw _ h =>
    obtain ⟨m, h1, h2⟩ := hc.split
    exact h.copies (blkAt_selfDelimiting fn len data 0) (takes_blkAt fn len data 0) (takes_blkAt_again fn len data 0)
      (start_calm.run h1 hw) h2
  | next h h' =>
    obtain ⟨m, h1, h2⟩ := hc.split
    obtain ⟨e₀, rfl⟩ := h.ends
    exact h'.copies (blkAt_selfDelimiting fn len data _) (takes_blkAt fn len data _) (takes_blkAt_again fn len data _)
      (h.calm (ht.left.inTime (by rw [h.acked_eq])) h1) h2

end

/-- **A transfer that succeeds has delivered its data**, over any line, if no wait before the last data block's ended
on its timeout: the receiver has stored every data block, once and in order.  Whenever the ACK for block `i` is taken
it has stored the data blocks up to `i`, and before the last nothing is under way: no answer is left to be taken for
another block's.  From `len = 2 ^ 41 - 2047` on an `int` does not count the blocks, and none is sent. -/
theorem ymodemXfer_delivers (d : Device) (l : List Ev) (fuel len : Nat) (f : List UInt8) (fn : CStr) (e : List Ev)
    (hlen : len ≤ 2 ^ 41 - 2048) (hrun : ymodemXfer fuel f fn len d l = (.ret EXIT_SUCCESS, e))
    (ht : Timely ((len + 1023) / 1024) e) :
    (∀ s, Reaches e s → s.rx.data = dataBlksTo (f.take len) ((len + 1023) / 1024)) ∧
    ∀ e₁ e₂ i s, e = e₁ ++ .ret .ymodemWaitAck 0 :: e₂ → acked e₁ = i → i ≤ (len + 1023) / 1024 →
      Reaches (e₁ ++ [.ret .ymodemWaitAck 0]) s →
      s.rx.data = dataBlksTo (f.take len) i ∧ (i < (len + 1023) / 1024 → s.fwd = [] ∧ answers s.bwd = []) := by
  rw [← totalBlk_eq hlen] at ht ⊢
  have hlog := ymodemXfer_log fuel len f fn d l
  unfold Sat at hlog
  rw [hrun] at hlog
  obtain ⟨e₁, e₂, e₃, rfl, hto, heot, hend⟩ := hlog rfl
  constructor
  · intro s hs
    rw [List.append_assoc, List.append_assoc] at hs ht
    obtain ⟨m, h1, h2⟩ := hs.split
    obtain ⟨hcopies, hrx⟩ := hto.last ht.left h1
    rw [Sys.Tail.run (blkAt_selfDelimiting fn len _ _) (takes_blkAt_again fn len _ _) (hcopies.tail hrx heot hend) h2]
    exact awaiting_data fn len _ _
  · intro a b i s hsplit hi hle hs
    obtain ⟨e', ⟨c, hc⟩, hto'⟩ := hto.earlier hle
    obtain ⟨e₀, rfl⟩ := hto'.ends
    have ht' : Timely (totalBlk len) (e₀ ++ ackEnd) := by
      rw [← hc] at ht
      exact ht.left.left.left.left
    -- the ACK taken is the one that ends the events of block `i`
    have ha : a = e₀ ++ [.read (.data [ACK])] := by
      refine ackEnd_unique (e := a ++ .ret .ymodemWaitAck 0 :: b) ⟨b, List.append_assoc _ _ _⟩ ?_ ?_
      · rw [← hsplit, ← hc]
        exact ⟨c ++ e₂ ++ e₃ ++ [.ret .ymodemXfer EXIT_SUCCESS], by simp [ackEnd]⟩
      · have hcount := hto'.acked_eq
        have h1 : acked ackEnd = 1 := rfl
        have h0 : acked [.read (.data [ACK])] = 0 := rfl
        rw [acked_append] at hcount ⊢
        omega
    have hs' : Reaches (e₀ ++ ackEnd) s := by
      rw [ha, List.append_assoc] at hs
      exact hs
    rcases Nat.lt_or_eq_of_le hle with hlt | rfl
    · have hcalm := hto'.calm (ht'.inTime (by rw [hto'.acked_eq]; exact hlt)) hs'
      exact ⟨by rw [hcalm.rx, awaiting_data], fun _ => ⟨hcalm.fwd, hcalm.bwd⟩⟩
    · have hlast := hto'.last ht' hs'
      exact ⟨by rw [hlast.2, awaiting_data], fun h => absurd h (Nat.lt_irrefl _)⟩

/-! ## A file of one byte -/

def oneByte : CStr := ⟨[0x61], by decide⟩

/-- A session of one data block, whose blocks leave the events `e₀ .. e₃`. -/
def oneByteLog (e₀ e₁ e₂ e₃ : List Ev) : List Ev :=
  [.time 0, .read (.data [C])] ++ (e₀ ++ (e₁ ++ (e₂ ++ e₃))) ++ [.ret .ymodemXfer EXIT_SUCCESS]

theorem blkAt_ne_nil (fn : CStr) (len : Nat) (data : List UInt8) (i : Nat) : blkAt fn len data i ≠ [] :=
  (blkAt_selfDelimiting fn len data i).1

theorem oneByteLog_run {e₀ e₁ e₂ e₃ : List Ev}
    (h₀ : Replays replay (ymodemBlkTimedXmit 2 (blkAt oneByte 1 [0x41] 0)) e₀ (.ret 0))
    (h₁ : Replays replay (ymodemBlkTimedXmit 2 (blkAt oneByte 1 [0x41] 1)) e₁ (.ret 0))
    (h₂ : Replays replay (xferEot 2) e₂ (.ret 0)) (h₃ : Replays replay (ymodemBlkTimedXmit 2 blkEnd) e₃ (.ret 0)) :
    ymodemXfer 2 [0x41] oneByte 1 (replay (oneByteLog e₀ e₁ e₂ e₃)) [] = (.ret EXIT_SUCCESS, oneByteLog e₀ e₁ e₂ e₃) := by
  have hplays : Replays replay (ymodemXfer 2 [0x41] oneByte 1) (oneByteLog e₀ e₁ e₂ e₃) (.ret EXIT_SUCCESS) :=
    ymodemXfer_plays 0 rfl h₀ h₁ h₂ h₃
  have hrun := hplays [] []
  rwa [List.append_nil, List.nil_append] at hrun

/-- Before the session a `C` is on the line, after it nothing happens. -/
theorem oneByteLog_reaches {e₀ e₁ e₂ e₃ : List Ev} {s : Sys} {bwd : List UInt8} {r : Rx} (hs : s = ⟨[], bwd, r⟩)
    (h : Sys.start.Goes (e₀ ++ (e₁ ++ (e₂ ++ e₃))) s) : Reaches (oneByteLog e₀ e₁ e₂ e₃) s := by
  have hC : Sys.Step Sys.start ⟨[], [C], ⟨0, []⟩⟩ := .stray (a := []) C (by decide) (by decide)
  have hstart : Sys.start.Goes [.time 0, .read (.data [C])] Sys.start :=
    .step hC (.event (sees_idle rfl rfl) (.event (sees_read C) (.refl _)))
  have hend : s.Goes [.ret .ymodemXfer EXIT_SUCCESS] s := by
    rw [hs]
    exact .event (sees_idle rfl rfl) (.refl _)
  exact (hstart.trans h).trans hend

/-- Every block answered at once. -/
def promptLog : List Ev :=
  oneByteLog (sentOnce 0 (blkAt oneByte 1 [0x41] 0)) (sentOnce 0 (blkAt oneByte 1 [0x41] 1)) (eotOnce 0) (sentOnce 0 blkEnd)

theorem ymodemXfer_delivers_sample : ∃ s, Reaches promptLog s ∧ s.rx.data = dataBlksTo [0x41] 1 := by
  have hrun := oneByteLog_run (sentOnce_plays 0 (blkAt_ne_nil _ _ _ 0) 0) (sentOnce_plays 0 (blkAt_ne_nil _ _ _ 1) 0)
    (eotOnce_plays 1 0) (sentOnce_plays 0 blkEnd_selfDelimiting.1 0)
  have h₀ : Sys.start.Goes (sentOnce 0 (blkAt oneByte 1 [0x41] 0)) ⟨[], [], Rx.awaiting oneByte 1 [0x41] 1⟩ :=
    sentOnce_goes (write_taken (blkAt_selfDelimiting _ _ _ 0) (takes_blkAt _ _ _ 0)) 0
  have h₁ : Sys.Goes ⟨[], [], Rx.awaiting oneByte 1 [0x41] 1⟩ (sentOnce 0 (blkAt oneByte 1 [0x41] 1))
      ⟨[], [], Rx.awaiting oneByte 1 [0x41] 2⟩ :=
    sentOnce_goes (write_taken (blkAt_selfDelimiting _ _ _ 1) (takes_blkAt _ _ _ 1)) 0
  have hend : (⟨0, (Rx.awaiting oneByte 1 [0x41] 2).stored⟩ : Rx).Takes blkEnd _ [ACK] :=
    .store (blkEnd_eq ▸ sohBlk_carries 0 _)
  have h₃ : Sys.Goes ⟨[], [], ⟨0, (Rx.awaiting oneByte 1 [0x41] 2).stored⟩⟩ (sentOnce 0 blkEnd) ⟨[], [], _⟩ :=
    sentOnce_goes (write_taken blkEnd_selfDelimiting hend) 0
  have hreach := oneByteLog_reaches rfl (h₀.trans (h₁.trans ((eotOnce_goes 0).trans h₃)))
  refine ⟨_, hreach, ?_⟩
  have hwaits : waits promptLog = [0, 0, 0, 0] := rfl
  have htimely : Timely ((1 + 1023) / 1024) promptLog := Timely.of_waits (by rw [hwaits]; decide)
  exact (ymodemXfer_delivers (replay promptLog) [] 2 1 [0x41] oneByte promptLog (by decide) hrun htimely).1 _ hreach

/-- The answer to block 0 takes 2 s: a `C` is read, and block 0 is sent again.  The second ACK is taken for the data
block, which was damaged, and its NAK for EOT. -/
def lostLog : List Ev :=
  oneByteLog (sentTwice (blkAt oneByte 1 [0x41] 0)) (sentOnce 2 (blkAt oneByte 1 [0x41] 1)) (eotTwice 2) (sentOnce 2 blkEnd)

/-- **A block is lost**: the transfer succeeds, and the receiver has no data block. -/
theorem ymodemXfer_loses_block :
    ymodemXfer 2 [0x41] oneByte 1 (replay lostLog) [] = (.ret EXIT_SUCCESS, lostLog) ∧ totalBlk 1 = 1 ∧
    ∃ s, Reaches lostLog s ∧ s.rx.data = [] := by
  have h₀ : Sys.start.Goes (sentTwice (blkAt oneByte 1 [0x41] 0)) ⟨[], [ACK], Rx.awaiting oneByte 1 [0x41] 1⟩ :=
    sentTwice_goes (blkAt_selfDelimiting _ _ _ 0) (takes_blkAt _ _ _ 0) (takes_blkAt_again _ _ _ 0)
  have h₁ : Sys.Goes ⟨[], [ACK], Rx.awaiting oneByte 1 [0x41] 1⟩ (sentOnce 2 (blkAt oneByte 1 [0x41] 1))
      ⟨[], [NAK], Rx.awaiting oneByte 1 [0x41] 1⟩ := sentOnce_goes (write_damaged (blkAt_selfDelimiting _ _ _ 1)) 2
  have hend : (⟨0, (Rx.awaiting oneByte 1 [0x41] 1).stored⟩ : Rx).Takes blkEnd _ [ACK] :=
    .store (blkEnd_eq ▸ sohBlk_carries 0 _)
  have h₃ : Sys.Goes ⟨[], [ACK], ⟨0, (Rx.awaiting oneByte 1 [0x41] 1).stored⟩⟩ (sentOnce 2 blkEnd) ⟨[], [ACK], _⟩ :=
    sentOnce_goes (write_taken blkEnd_selfDelimiting hend) 2
  refine ⟨?_, rfl, _, oneByteLog_reaches rfl (h₀.trans (h₁.trans ((eotTwice_goes 2).trans h₃))), ?_⟩
  · exact oneByteLog_run (sentTwice_plays 0 (blkAt_ne_nil _ _ _ 0)) (sentOnce_plays 0 (blkAt_ne_nil _ _ _ 1) 2)
      (eotTwice_plays 0 2) (sentOnce_plays 0 blkEnd_selfDelimiting.1 2)
  · exact (hend.data blkEnd_noData).trans (awaiting_data oneByte 1 [0x41] 0)

end Ws63Flash
