import Ws63Flash.CmdFrames
/-!
# MagicScan — what `uart_read_until_magic` takes for a frame

The matcher of the magic compares three bytes of four, and a byte that does not go on with the magic is dropped with those
matched before it.  The reader then collects as many bytes as the length field says, without a look at the size of its
buffer.  So a stream is cut into what is passed over (`Skipped`) and a frame (`Framed`); `finishes_decomp`,
`finishes_framed` and `overruns_iff` say this of the switch, and `uartReadUntilMagic_scan` of a run.
-/
namespace Ws63Flash

open Octets Proc

/-- Bytes that the matcher passes over. -/
inductive Skipped : List UInt8 → Prop where
  | nil : Skipped []
  | other {b : UInt8} {u : List UInt8} (h : b ≠ 0xef) (hu : Skipped u) : Skipped (b :: u)
  | first {b : UInt8} {u : List UInt8} (h : b ≠ 0xbe) (hu : Skipped u) : Skipped (0xef :: b :: u)
  | second {b : UInt8} {u : List UInt8} (h : b ≠ 0xad) (hu : Skipped u) : Skipped (0xef :: 0xbe :: b :: u)

/-- The bytes start with the part of the magic that the matcher compares. -/
def Starts (f : List UInt8) : Prop := [0xef, 0xbe, 0xad] <+: f

/-- The length field of a frame. -/
def lenField (f : List UInt8) : Nat := leNat (slice f 4 2)

/-- A frame, as the reader takes it. -/
structure Framed (f : List UInt8) : Prop where
  starts : Starts f
  len : lenField f = f.length
  low : 6 < f.length
  high : f.length ≤ cmdBufLen

/-- The reader leaves its buffer within the bytes. -/
def overruns : MagicSt → List UInt8 → Prop
  | _, []     => False
  | s, b :: w =>
    if s.i < cmdBufLen then
      match magicStep s b with
      | .next s' => overruns s' w
      | .done _  => False
    else True

/-! ## The switch -/

/-- From `s` the bytes `w` lead to `s'`. -/
structure Drives (s : MagicSt) (w : List UInt8) (s' : MagicSt) : Prop where
  ends : ∀ v, finishes s (w ++ v) = finishes s' v
  leaves : ∀ v, overruns s (w ++ v) ↔ overruns s' v

theorem Drives.nil (s : MagicSt) : Drives s [] s := ⟨fun _ => rfl, fun _ => Iff.rfl⟩

theorem Drives.step {s s' : MagicSt} {b : UInt8} (hi : s.i < cmdBufLen) (h : magicStep s b = .next s') :
    Drives s [b] s' where
  ends := fun v => by
    rw [List.singleton_append, finishes, if_pos hi, h]
  leaves := fun v => by
    rw [List.singleton_append, overruns, if_pos hi, h]

theorem Drives.trans {s s' s'' : MagicSt} {w v : List UInt8} (h : Drives s w s') (h' : Drives s' v s'') :
    Drives s (w ++ v) s'' where
  ends := fun x => by rw [List.append_assoc, h.ends, h'.ends]
  leaves := fun x => by rw [List.append_assoc, h.leaves, h'.leaves]

/-- The reader has matched `k` bytes of the magic. -/
structure Matching (k : Nat) (s : MagicSt) : Prop where
  st : s.st = 0
  i : s.i = k
  framelen : s.framelen = 0
  buf : s.buf.length = cmdBufLen
  taken : s.buf.take k = mgc.take k

theorem Matching.init : Matching 0 MagicSt.init := ⟨rfl, rfl, rfl, List.length_replicate, rfl⟩

theorem Matching.hit {k : Nat} {s : MagicSt} (hs : Matching k s) (hk : k < 2) :
    ∃ s', Drives s [mgc.getD k 0] s' ∧ Matching (k + 1) s' := by
  rcases s with ⟨buf, i, framelen, st⟩
  obtain ⟨rfl, rfl, rfl, hb, ht⟩ := hs
  dsimp only at hb ht hk
  have hroom : i < cmdBufLen := Nat.lt_trans hk (by decide)
  have hmgc : mgc[i]? = some (mgc.getD i 0) := by
    rw [List.getD_eq_getElem?_getD]
    rcases i with _ | _ | i
    · rfl
    · rfl
    · omega
  refine ⟨⟨buf.set i (mgc.getD i 0), i + 1, 0, 0⟩, Drives.step hroom ?_, rfl, rfl, rfl, ?_, ?_⟩
  · show (if mgc.getD i 0 = mgc.getD i 0 then _ else _) = _
    rw [if_pos rfl]
    show (if i + 1 ≥ 3 then _ else _) = _
    rw [if_neg (by omega)]
  · rw [List.length_set]
    exact hb
  · show (buf.set i _).take (i + 1) = _
    rw [take_succ_set _ (by rw [hb]; exact hroom), ht, List.take_add_one (i := i), hmgc]
    rfl

theorem Matching.miss {k : Nat} {s : MagicSt} {b : UInt8} (hs : Matching k s) (hk : k < 3) (hb : b ≠ mgc.getD k 0) :
    ∃ s', Drives s [b] s' ∧ Matching 0 s' := by
  rcases s with ⟨buf, i, framelen, st⟩
  obtain ⟨rfl, rfl, rfl, hlen, _⟩ := hs
  dsimp only at hlen hk
  refine ⟨⟨buf.set i b, 0, 0, 0⟩, Drives.step (Nat.lt_trans hk (by decide)) ?_, rfl, rfl, rfl, ?_, rfl⟩
  · show (if mgc.getD i 0 = b then _ else _) = _
    rw [if_neg (Ne.symm hb)]
    show (if i ≥ 3 then _ else _) = _
    rw [if_neg (by omega)]
  · rw [List.length_set]
    exact hlen

/-- **What is passed over** leaves the matcher as it was. -/
theorem Skipped.drives {u : List UInt8} (hu : Skipped u) : ∀ {s : MagicSt}, Matching 0 s →
    ∃ s', Drives s u s' ∧ Matching 0 s' := by
  induction hu with
  | nil => exact fun hs => ⟨_, Drives.nil _, hs⟩
  | other h _ ih =>
    intro s hs
    obtain ⟨s₁, h₁, hs₁⟩ := hs.miss (by decide) h
    obtain ⟨s₂, h₂, hs₂⟩ := ih hs₁
    exact ⟨s₂, h₁.trans h₂, hs₂⟩
  | first h _ ih =>
    intro s hs
    obtain ⟨s₁, h₁, hs₁⟩ := hs.hit (by decide)
    obtain ⟨s₂, h₂, hs₂⟩ := hs₁.miss (by decide) h
    obtain ⟨s₃, h₃, hs₃⟩ := ih hs₂
    exact ⟨s₃, h₁.trans (h₂.trans h₃), hs₃⟩
  | second h _ ih =>
    intro s hs
    obtain ⟨s₁, h₁, hs₁⟩ := hs.hit (by decide)
    obtain ⟨s₂, h₂, hs₂⟩ := hs₁.hit (by decide)
    obtain ⟨s₃, h₃, hs₃⟩ := hs₂.miss (by decide) h
    obtain ⟨s₄, h₄, hs₄⟩ := ih hs₃
    exact ⟨s₄, h₁.trans (h₂.trans (h₃.trans h₄)), hs₄⟩

theorem lenField_append {f : List UInt8} (g : List UInt8) (h : 6 ≤ f.length) : lenField (f ++ g) = lenField f := by
  unfold lenField
  rw [slice_append_left (by omega)]

/-- The reader has the first bytes `f` of a frame, and more are to come. -/
structure Reading (f : List UInt8) (s : MagicSt) : Prop where
  starts : Starts f
  st : s.st = 1
  i : s.i = f.length
  framelen : s.framelen = if f.length ≤ 5 then 0 else lenField f
  buf : s.buf.length = cmdBufLen
  taken : s.buf.take f.length = f
  fits : f.length ≤ cmdBufLen
  going : ¬ (6 < lenField f ∧ lenField f ≤ f.length)

theorem Starts.length {f : List UInt8} (h : Starts f) : 3 ≤ f.length := h.length_le

theorem Starts.append {f : List UInt8} (h : Starts f) (g : List UInt8) : Starts (f ++ g) :=
  h.trans (List.prefix_append f g)

theorem Matching.starts {s : MagicSt} (hs : Matching 0 s) :
    ∃ s', Drives s [0xef, 0xbe, 0xad] s' ∧ Reading [0xef, 0xbe, 0xad] s' := by
  obtain ⟨s₁, h₁, hs₁⟩ := hs.hit (by decide)
  obtain ⟨s₂, h₂, hs₂⟩ := hs₁.hit (by decide)
  rcases s₂ with ⟨buf, i, framelen, st⟩
  obtain ⟨rfl, rfl, rfl, hb, ht⟩ := hs₂
  dsimp only at hb ht
  refine ⟨⟨buf.set 2 0xad, 3, 0, 1⟩, h₁.trans (h₂.trans (Drives.step (show 2 < cmdBufLen by decide) rfl)), List.prefix_rfl,
    rfl, rfl, rfl, ?_, ?_, by decide, by decide⟩
  · rw [List.length_set]
    exact hb
  · show (buf.set 2 0xad).take 3 = _
    rw [take_succ_set _ (by rw [hb]; decide), ht]
    rfl

/-- **A byte of a frame**: the last one ends the call, any other leaves the reader inside the frame. -/
theorem Reading.step {f : List UInt8} {s : MagicSt} (hs : Reading f s) (hroom : f.length < cmdBufLen) (b : UInt8) :
    (lenField (f ++ [b]) = f.length + 1 ∧ 6 ≤ f.length ∧ ∃ q, magicStep s b = .done q ∧ q.framelen = f.length + 1 ∧
      q.buf.take (f.length + 1) = f ++ [b]) ∨
    ∃ s', magicStep s b = .next s' ∧ Reading (f ++ [b]) s' := by
  have h3 := hs.starts.length
  rcases s with ⟨buf, i, framelen, st⟩
  obtain ⟨hstarts, rfl, rfl, rfl, hb, ht, _, hgo⟩ := hs
  dsimp only at hb ht
  have htake : (buf.set f.length b).take (f.length + 1) = f ++ [b] := by
    rw [take_succ_set _ (by rw [hb]; exact hroom), ht]
  have hlen : (buf.set f.length b).length = cmdBufLen := by
    rw [List.length_set]
    exact hb
  have hlength : (f ++ [b]).length = f.length + 1 := List.length_append
  by_cases h5 : f.length = 5
  · have hfield : leNat (slice (buf.set 5 b) 4 2) = lenField (f ++ [b]) := by
      rw [h5] at htake
      rw [lenField, ← htake, slice_eq_drop_take, slice_eq_drop_take, List.take_take]
      rfl
    refine Or.inr ⟨⟨buf.set 5 b, 6, lenField (f ++ [b]), 1⟩, ?_, hstarts.append _, rfl, ?_, ?_, ?_, ?_, ?_, ?_⟩
    · rw [← hfield]
      show (if f.length = 5 then _ else _) = _
      rw [if_pos h5, h5]
    · rw [hlength, h5]
    · rw [if_neg (by omega)]
    · rw [← h5]
      exact hlen
    · rw [hlength, ← h5]
      exact htake
    · omega
    · omega
  · by_cases hend : f.length + 1 = if f.length ≤ 5 then 0 else lenField f
    · have h6 : 6 ≤ f.length := by
        by_contra hlt
        rw [if_pos (by omega)] at hend
        omega
      rw [if_neg (by omega)] at hend
      refine Or.inl ⟨?_, h6, ⟨buf.set f.length b, f.length, lenField f, 1⟩, ?_, hend.symm, htake⟩
      · rw [lenField_append _ h6, ← hend]
      · show (if f.length = 5 then _ else if f.length + 1 = ite _ _ _ then _ else _) = _
        rw [if_neg h5, if_pos (by rw [if_neg (by omega), ← hend]), if_neg (by omega)]
    · refine Or.inr ⟨⟨buf.set f.length b, f.length + 1, if f.length ≤ 5 then 0 else lenField f, 1⟩, ?_,
        hstarts.append _, rfl, hlength.symm, ?_, hlen, ?_, ?_, ?_⟩
      · show (if f.length = 5 then _ else if f.length + 1 = ite _ _ _ then _ else _) = _
        rw [if_neg h5, if_neg hend]
      · show (if f.length ≤ 5 then 0 else lenField f) = _
        by_cases h6 : 6 ≤ f.length
        · rw [if_neg (by omega), if_neg (by omega), lenField_append _ h6]
        · rw [if_pos (by omega), if_pos (by omega)]
      · rw [hlength]
        exact htake
      · omega
      · by_cases h6 : 6 ≤ f.length
        · rw [if_neg (by omega)] at hend
          rw [lenField_append _ h6]
          omega
        · omega

/-- From inside a frame the reader ends only at its last byte, with the frame in its buffer. -/
theorem Reading.framed : ∀ (w : List UInt8) {f : List UInt8} {s q : MagicSt}, Reading f s → finishes s w = some q →
    Framed (f ++ w) ∧ q.framelen = (f ++ w).length ∧ q.buf.take (f ++ w).length = f ++ w
  | [], f, s, q, _, hq      => by
    rw [finishes] at hq
    cases hq
  | b :: w, f, s, q, hs, hq => by
    rw [finishes] at hq
    by_cases hroom : s.i < cmdBufLen
    · rw [if_pos hroom] at hq
      rw [hs.i] at hroom
      rcases hs.step hroom b with ⟨hfield, h6, q', hdone, hlen, htake⟩ | ⟨s', hnext, hs'⟩
      · rw [hdone] at hq
        dsimp only at hq
        split at hq
        · rename_i hnil
          cases hq
          subst hnil
          have hlength : (f ++ [b]).length = f.length + 1 := List.length_append
          refine ⟨⟨hs.starts.append _, ?_, ?_, ?_⟩, ?_, ?_⟩
          · rw [hlength, hfield]
          · omega
          · omega
          · rw [hlength, hlen]
          · rw [hlength, htake]
        · cases hq
      · rw [hnext] at hq
        have ih := Reading.framed w hs' hq
        rwa [List.append_assoc, List.singleton_append] at ih
    · rw [if_neg hroom] at hq
      cases hq

/-- And it does end there. -/
theorem Reading.finishes : ∀ (w : List UInt8) {f : List UInt8} {s : MagicSt}, Reading f s → Framed (f ++ w) →
    ∃ q, finishes s w = some q
  | [], f, s, hs, hf      => by
    rw [List.append_nil] at hf
    exact absurd ⟨by rw [hf.len]; exact hf.low, Nat.le_of_eq hf.len⟩ hs.going
  | b :: w, f, s, hs, hf  => by
    have hlength : (f ++ b :: w).length = f.length + w.length + 1 := by
      rw [List.length_append, List.length_cons]
      omega
    have hhigh := hf.high
    have hroom : f.length < cmdBufLen := by omega
    rw [Ws63Flash.finishes, if_pos (by rw [hs.i]; exact hroom)]
    rcases hs.step hroom b with ⟨hfield, h6, q, hdone, _, _⟩ | ⟨s', hnext, hs'⟩
    · have hlen := hf.len
      rw [lenField_append _ h6] at hfield hlen
      have hnil : w = [] := List.eq_nil_of_length_eq_zero (by omega)
      rw [hdone, hnil]
      exact ⟨q, rfl⟩
    · rw [hnext]
      apply Reading.finishes w hs'
      rwa [List.append_assoc, List.singleton_append]

/-- From inside a frame the reader leaves its buffer exactly when the stream does, and the length field does not end it
before. -/
theorem Reading.overruns : ∀ (w : List UInt8) {f : List UInt8} {s : MagicSt}, Reading f s →
    (overruns s w ↔ cmdBufLen < (f ++ w).length ∧ ¬ (6 < lenField (f ++ w) ∧ lenField (f ++ w) ≤ cmdBufLen))
  | [], f, s, hs      => by
    have hfits := hs.fits
    rw [Ws63Flash.overruns, List.append_nil]
    exact ⟨False.elim, fun h => by omega⟩
  | b :: w, f, s, hs  => by
    have hlength : (f ++ b :: w).length = f.length + w.length + 1 := by
      rw [List.length_append, List.length_cons]
      omega
    have hfits := hs.fits
    have hgo := hs.going
    rw [Ws63Flash.overruns, hs.i]
    by_cases hroom : f.length < cmdBufLen
    · rw [if_pos hroom]
      rcases hs.step hroom b with ⟨hfield, h6, q, hdone, _, _⟩ | ⟨s', hnext, hs'⟩
      · rw [hdone]
        rw [lenField_append _ h6] at hfield ⊢
        exact ⟨False.elim, fun h => h.2 (by omega)⟩
      · rw [hnext]
        have ih := Reading.overruns w hs'
        rwa [List.append_assoc, List.singleton_append] at ih
    · rw [if_neg hroom]
      have h6 : 6 ≤ f.length := by
        unfold cmdBufLen at hroom
        omega
      rw [lenField_append _ h6]
      exact ⟨fun _ => ⟨by omega, by omega⟩, fun _ => trivial⟩

/-! ## Streams -/

/-- **Every stream is passed over up to a frame**, or up to its end but for a part of the magic. -/
theorem skip_cases : ∀ w : List UInt8, ∃ u t, w = u ++ t ∧ Skipped u ∧ (Starts t ∨ t = [] ∨ t = [0xef] ∨ t = [0xef, 0xbe])
  | []             => ⟨[], [], rfl, .nil, Or.inr (Or.inl rfl)⟩
  | [b]            => by
    by_cases hb : b = 0xef
    · subst hb
      exact ⟨[], [0xef], rfl, .nil, Or.inr (Or.inr (Or.inl rfl))⟩
    · exact ⟨[b], [], rfl, .other hb .nil, Or.inr (Or.inl rfl)⟩
  | [b, c]         => by
    by_cases hb : b = 0xef
    · subst hb
      by_cases hc : c = 0xbe
      · subst hc
        exact ⟨[], [0xef, 0xbe], rfl, .nil, Or.inr (Or.inr (Or.inr rfl))⟩
      · exact ⟨[0xef, c], [], rfl, .first hc .nil, Or.inr (Or.inl rfl)⟩
    · obtain ⟨u, t, hut, hu, ht⟩ := skip_cases [c]
      exact ⟨b :: u, t, by rw [hut, List.cons_append], .other hb hu, ht⟩
  | b :: c :: d :: w => by
    by_cases hb : b = 0xef
    · subst hb
      by_cases hc : c = 0xbe
      · subst hc
        by_cases hd : d = 0xad
        · subst hd
          exact ⟨[], 0xef :: 0xbe :: 0xad :: w, rfl, .nil, Or.inl ⟨w, rfl⟩⟩
        · obtain ⟨u, t, hut, hu, ht⟩ := skip_cases w
          exact ⟨0xef :: 0xbe :: d :: u, t, by rw [hut]; rfl, .second hd hu, ht⟩
      · obtain ⟨u, t, hut, hu, ht⟩ := skip_cases (d :: w)
        exact ⟨0xef :: c :: u, t, by rw [hut]; rfl, .first hc hu, ht⟩
    · obtain ⟨u, t, hut, hu, ht⟩ := skip_cases (c :: d :: w)
      exact ⟨b :: u, t, by rw [hut]; rfl, .other hb hu, ht⟩

/-- Inside a part of the magic the reader neither ends nor leaves its buffer. -/
theorem Matching.cut {t : List UInt8} (ht : t = [] ∨ t = [0xef] ∨ t = [0xef, 0xbe]) {s : MagicSt} (hs : Matching 0 s) :
    finishes s t = none ∧ ¬ overruns s t := by
  have hnil : ∀ s, finishes s [] = none ∧ ¬ overruns s [] := fun s => by
    rw [finishes, overruns]
    exact ⟨rfl, id⟩
  obtain ⟨s₁, h₁, hs₁⟩ := hs.hit (by decide)
  obtain ⟨s₂, h₂, _⟩ := hs₁.hit (by decide)
  have h₁₂ := h₁.trans h₂
  rcases ht with rfl | rfl | rfl
  · exact hnil s
  · have hend := hnil s₁
    rw [← h₁.ends, ← h₁.leaves] at hend
    exact hend
  · have hend := hnil s₂
    rw [← h₁₂.ends, ← h₁₂.leaves] at hend
    exact hend

/-- After what is passed over, a frame's start is read. -/
theorem Skipped.starts {u f : List UInt8} (hu : Skipped u) (hf : Starts f) :
    ∃ (s : MagicSt) (g : List UInt8), f = [0xef, 0xbe, 0xad] ++ g ∧ Drives MagicSt.init (u ++ [0xef, 0xbe, 0xad]) s ∧
      Reading [0xef, 0xbe, 0xad] s := by
  obtain ⟨g, rfl⟩ := hf
  obtain ⟨s₁, h₁, hs₁⟩ := hu.drives Matching.init
  obtain ⟨s₂, h₂, hs₂⟩ := hs₁.starts
  exact ⟨s₂, g, rfl, h₁.trans h₂, hs₂⟩

/-- **What ends a call** is a frame, after bytes that were passed over. -/
theorem finishes_decomp {w : List UInt8} {q : MagicSt} (hq : finishes MagicSt.init w = some q) :
    ∃ u f, w = u ++ f ∧ Skipped u ∧ Framed f ∧ q.framelen = f.length ∧ q.buf.take f.length = f := by
  obtain ⟨u, t, rfl, hu, ht⟩ := skip_cases w
  rcases ht with ht | ht
  · obtain ⟨s, g, rfl, hlead, hs⟩ := hu.starts ht
    rw [← List.append_assoc, hlead.ends] at hq
    obtain ⟨hframe, hlen, htake⟩ := hs.framed g hq
    exact ⟨u, _, rfl, hu, hframe, hlen, htake⟩
  · obtain ⟨s, hlead, hs⟩ := hu.drives Matching.init
    rw [hlead.ends, (hs.cut ht).1] at hq
    cases hq

/-- **Every frame ends a call**, after bytes that are passed over. -/
theorem finishes_framed {u f : List UInt8} (hu : Skipped u) (hf : Framed f) :
    ∃ q, finishes MagicSt.init (u ++ f) = some q ∧ q.framelen = f.length ∧ q.buf.take f.length = f := by
  obtain ⟨s, g, rfl, hlead, hs⟩ := hu.starts hf.starts
  obtain ⟨q, hq⟩ := hs.finishes g hf
  obtain ⟨_, hlen, htake⟩ := hs.framed g hq
  refine ⟨q, ?_, hlen, htake⟩
  rw [← List.append_assoc, hlead.ends]
  exact hq

/-- **What leaves the buffer** is a frame whose length field does not end it in time. -/
theorem overruns_iff {w : List UInt8} : overruns MagicSt.init w ↔ ∃ u f, w = u ++ f ∧ Skipped u ∧ Starts f ∧
    cmdBufLen < f.length ∧ ¬ (6 < lenField f ∧ lenField f ≤ cmdBufLen) := by
  constructor
  · intro h
    obtain ⟨u, t, rfl, hu, ht⟩ := skip_cases w
    rcases ht with ht | ht
    · obtain ⟨s, g, rfl, hlead, hs⟩ := hu.starts ht
      rw [← List.append_assoc, hlead.leaves, hs.overruns g] at h
      exact ⟨u, _, rfl, hu, ht, h⟩
    · obtain ⟨s, hlead, hs⟩ := hu.drives Matching.init
      rw [hlead.leaves] at h
      exact absurd h (hs.cut ht).2
  · rintro ⟨u, f, rfl, hu, hf, h⟩
    obtain ⟨s, g, rfl, hlead, hs⟩ := hu.starts hf
    rw [← List.append_assoc, hlead.leaves, hs.overruns g]
    exact h

/-! ## Runs -/

/-- **A run of the reader** on any line: it fails, or ends with a frame, or leaves its buffer, by what it has received. -/
theorem uartReadUntilMagic_scan (fuel : Nat) (d : Device) (l : List Ev) :
    Sat (uartReadUntilMagic fuel) d l (fun o e => match o with
      | .ret r  => r.ret < 0 ∨ ∃ q, finishes MagicSt.init (received e) = some q ∧ r = q.reply
      | .stop x => x = .pending ∨ (x = .undefined ∧ overruns MagicSt.init (received e))) := by
  have hloop : ∀ t0 l, Sat (magicLoop fuel (MagicSt.init, t0)) d l (fun o e => match o with
      | .ret r  => r.ret < 0 ∨ ∃ q, finishes MagicSt.init (received e) = some q ∧ r = q.reply
      | .stop x => x = .pending ∨ (x = .undefined ∧ overruns MagicSt.init (received e))) := by
    intro t0 l
    refine Sat.loop (fun s e => Drives MagicSt.init (received e) s.1) ?_ (fun _ _ _ => Or.inl rfl) fuel _ (Drives.nil _)
    rintro ⟨s, t1⟩ e hlead
    apply Sat.bind_val (time_sat d _)
    rintro t _ ⟨_, rfl⟩
    split
    · exact Sat.pure (Or.inl ETIMEDOUT.neg_lt)
    apply Sat.bind_val (read_sat 1 d _)
    rintro r _ ⟨hr, rfl⟩
    have hle : ∀ bs, r = .data bs → bs.length ≤ 1 := fun bs h => d.read_le _ 1 bs (hr ▸ h)
    clear hr
    match r with
    | .data []        =>
      apply Sat.pure
      simpa [Ev.got] using hlead
    | .fail e'        => exact Sat.pure (Or.inl e'.neg_lt)
    | .data (b :: bs) =>
      obtain rfl : bs = [] := List.eq_nil_of_length_eq_zero (by simpa using hle _ rfl)
      have hgot : ∀ e' : List Ev, received e' = [] →
          received (e ++ ([.time t] ++ ([.read (.data [b])] ++ e'))) = received e ++ [b] :=
        fun e' he' => by simp [Ev.got, he']
      dsimp only
      by_cases hroom : s.i < cmdBufLen
      · rw [if_pos hroom]
        apply Sat.bind_val (time_sat d _)
        rintro t' _ ⟨_, rfl⟩
        cases hstep : magicStep s b with
        | next s' =>
          apply Sat.pure
          show Drives _ (received _) s'
          rw [hgot _ rfl]
          exact hlead.trans (Drives.step hroom hstep)
        | done q =>
          refine Sat.pure (Or.inr ⟨q, ?_, rfl⟩)
          rw [hgot _ rfl, hlead.ends, finishes, if_pos hroom, hstep]
          rfl
      · rw [if_neg hroom]
        refine Sat.halt (Or.inr ⟨rfl, ?_⟩)
        rw [hgot _ rfl, hlead.leaves, overruns, if_neg hroom]
        trivial
  apply Sat.bind_val (time_sat d l)
  rintro t0 _ ⟨_, rfl⟩
  refine Sat.bind (hloop t0 _) ?_ ?_
  · intro r e he
    apply Sat.bind_val (mark_sat _ _ d _)
    rintro _ _ rfl
    apply Sat.pure
    simpa [Ev.got] using he
  · intro x e he
    simpa [Ev.got] using he

/-- **A line that leads out of the buffer** and does not pause does so. -/
theorem magicLoop_overrun {d : Device} {script : List (List UInt8)} (hplay : Plays d script) (hprompt : Prompt d) :
    ∀ (w : List UInt8) (fuel : Nat) (s : MagicSt) (l l₁ e₁ : List Ev), w.length ≤ fuel →
      l = l₁ ++ .time (d.time l₁) :: e₁ → received e₁ = [] → script.drop (nreads l) = w.map (fun b => [b]) →
      overruns s w → Sat (magicLoop fuel (s, d.time l₁)) d l (fun o e => o = .stop .undefined ∧ received e <+: w)
  | [], _, _, _, _, _, _, _, _, _, h                              => by
    rw [overruns] at h
    exact h.elim
  | b :: w, 0, _, _, _, _, hf, _, _, _, _                         => by simp at hf
  | b :: w, fuel + 1, s, l, l₁, e₁, hf, hl, he₁, hdrop, h         => by
    have hget : script[nreads l]? = some [b] := by
      rw [← List.head?_drop, hdrop]
      rfl
    have hdrop' : script.drop (nreads l + 1) = w.map (fun b => [b]) := by
      rw [← List.drop_drop, hdrop]
      rfl
    refine Sat.loop_step (Sat.bind_val (time_sat d l) ?_)
    rintro t e ⟨rfl, rfl⟩
    rw [if_neg (hprompt.notLate he₁ hl)]
    apply Sat.bind_val (read_sat 1 d _)
    rintro r e ⟨rfl, rfl⟩
    have hread : d.read (l ++ [.time (d.time l)]) 1 = .data [b] := hplay _ [b] (by rw [nreads_append]; exact hget)
    rw [hread]
    dsimp only
    rw [overruns] at h
    by_cases hroom : s.i < cmdBufLen
    · rw [if_pos hroom] at h
      rw [if_pos hroom]
      apply Sat.bind_val (time_sat d _)
      rintro t e ⟨rfl, rfl⟩
      cases hstep : magicStep s b with
      | next s' =>
        rw [hstep] at h
        apply Sat.pure
        refine (magicLoop_overrun hplay hprompt w fuel s' _ (l ++ [.time (d.time l)] ++ [.read (.data [b])]) []
          (by simpa using hf) ?_ rfl ?_ h).mono ?_
        · simp
        · simpa [Ev.isRead] using hdrop'
        · rintro o e ⟨ho, hr⟩
          refine ⟨ho, ?_⟩
          simpa [Ev.got] using hr
      | done q =>
        rw [hstep] at h
        exact h.elim
    · rw [if_neg hroom]
      refine Sat.halt ⟨rfl, ?_⟩
      simp [Ev.got]

end Ws63Flash
