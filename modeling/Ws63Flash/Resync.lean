import Ws63Flash.MagicScan
/-!
# Resync — where the reader of replies goes wrong

It stays in its buffer unless a frame announces more bytes than fit, or fewer than a frame has
(`uartReadUntilMagic_inBuffer_iff`); it finds the frame after noise that its matcher passes over
(`uartReadUntilMagic_resync_iff`); and what it takes for a frame has the whole magic when the fourth byte happens to be
right (`uartReadUntilMagic_frames_iff`).
-/
namespace Ws63Flash

open Octets Proc

/-- The line sends the bytes one by one, without a pause. -/
def byteScript (bs : List UInt8) : List (List UInt8) := bs.map (fun b => [b])

@[simp] theorem byteScript_length (bs : List UInt8) : (byteScript bs).length = bs.length := List.length_map _

@[simp] theorem byteScript_flatten : ∀ bs : List UInt8, (byteScript bs).flatten = bs
  | []      => rfl
  | b :: bs => congrArg (b :: ·) (byteScript_flatten bs)

theorem byteScript_plays (bs : List UInt8) : Plays (scriptDevice (byteScript bs)) (byteScript bs) := by
  refine scriptDevice_plays (fun w hw => ?_)
  obtain ⟨b, _, rfl⟩ := List.mem_map.1 hw
  exact Nat.le_refl 1

/-! ## The buffer -/

/-- Every byte was stored inside the buffer, and a frame that is complete lies inside it with its checksum. -/
def StaysInBuffer (run : Out Reply × List Ev) : Prop :=
  run.1 ≠ .stop .undefined ∧ ∀ r, run.1 = .ret r → r.ret = 0 → 2 ≤ r.framelen ∧ r.framelen ≤ cmdBufLen

/-- No run that receives the bytes, or the first of them, leaves the buffer. -/
def InBuffer (bs : List UInt8) : Prop :=
  ∀ (d : Device) (l : List Ev) (fuel : Nat), received (uartReadUntilMagic fuel d l).2 <+: bs →
    StaysInBuffer (uartReadUntilMagic fuel d l)

theorem InBuffer.not_overruns {bs : List UInt8} (h : InBuffer bs) : ¬ overruns MagicSt.init bs := by
  intro hover
  have hrun : Sat (uartReadUntilMagic bs.length) (scriptDevice (byteScript bs)) []
      (fun o e => o = .stop .undefined ∧ received e <+: bs) := by
    apply Sat.bind_val (time_sat _ [])
    rintro _ _ ⟨rfl, rfl⟩
    refine Sat.bind (magicLoop_overrun (byteScript_plays bs) (scriptDevice_prompt _) bs bs.length _ _ [] [] (Nat.le_refl _)
      rfl rfl rfl hover) ?_ ?_
    · rintro r e ⟨ho, _⟩
      cases ho
    · rintro x e ⟨ho, hr⟩
      refine ⟨ho, ?_⟩
      simpa [Ev.got] using hr
  exact (h _ [] bs.length hrun.2).1 hrun.1

theorem overruns_mono {w bs : List UInt8} (hpre : w <+: bs) (h : overruns MagicSt.init w) : overruns MagicSt.init bs := by
  obtain ⟨v, rfl⟩ := hpre
  obtain ⟨u, f, rfl, hu, hf, hlong, hfield⟩ := overruns_iff.1 h
  have h6 : 6 ≤ f.length := by
    unfold cmdBufLen at hlong
    omega
  refine overruns_iff.2 ⟨u, f ++ v, List.append_assoc _ _ _, hu, hf.append v, ?_, ?_⟩
  · rw [List.length_append]
    omega
  · rw [lenField_append v h6]
    exact hfield

/-- **When the reader stays in its buffer**: when the frame on the line, should it go on for longer than the buffer, has a
length field between a frame's least length and the buffer's. -/
theorem uartReadUntilMagic_inBuffer_iff (bs : List UInt8) : InBuffer bs ↔
    ∀ u f, bs = u ++ f → Skipped u → Starts f → cmdBufLen < f.length → 6 < lenField f ∧ lenField f ≤ cmdBufLen := by
  constructor
  · intro h u f hbs hu hf hlong
    by_contra hfield
    exact h.not_overruns (overruns_iff.2 ⟨u, f, hbs, hu, hf, hlong, hfield⟩)
  · intro h d l fuel hpre
    have hscan := uartReadUntilMagic_scan fuel d l
    unfold Sat at hscan
    constructor
    · intro hret
      rw [hret] at hscan
      rcases hscan with hpend | ⟨_, hover⟩
      · cases hpend
      · obtain ⟨u, f, hbs, hu, hf, hlong, hfield⟩ := overruns_iff.1 (overruns_mono hpre hover)
        exact hfield (h u f hbs hu hf hlong)
    · intro r hret h0
      rw [hret] at hscan
      rcases hscan with hneg | ⟨q, hq, rfl⟩
      · omega
      · obtain ⟨u, f, _, _, hf, hlen, _⟩ := finishes_decomp hq
        have hlow := hf.low
        have hhigh := hf.high
        show 2 ≤ q.framelen ∧ q.framelen ≤ cmdBufLen
        omega

/-- A frame that announces 65535 bytes. -/
def longFrame : List UInt8 := mgc ++ [0xff, 0xff] ++ List.replicate 1031 0

/-- **A frame longer than the buffer** is written past its end. -/
theorem uartReadUntilMagic_longFrame : ¬ InBuffer longFrame := by
  intro h
  apply h.not_overruns
  rw [overruns_iff]
  have hstarts : Starts longFrame := by
    rw [longFrame, List.append_assoc]
    exact Starts.append ⟨_, rfl⟩ _
  have hlen : cmdBufLen < longFrame.length := by
    rw [longFrame, List.length_append, List.length_replicate]
    simp [cmdBufLen, mgc]
  have hfield : lenField longFrame = 0xffff := by
    rw [longFrame, lenField_append _ (by decide)]
    decide
  refine ⟨[], longFrame, (List.nil_append longFrame).symm, .nil, hstarts, hlen, ?_⟩
  rw [hfield]
  decide

/-! ## Frames after noise -/

/-- On every line that goes on with the noise and the frame, without too long a pause, a call returns 0 with that frame in
its buffer, having read both and nothing of what follows. -/
def ReadsExactly (noise F : List UInt8) : Prop :=
  ∀ (d : Device) (script : List (List UInt8)) (fuel : Nat) (l : List Ev) (rest : List UInt8), Plays d script → Prompt d →
    script.length ≤ fuel → (script.drop (nreads l)).flatten = noise ++ F ++ rest →
      Sat (uartReadUntilMagic fuel) d l (fun o e =>
        (∃ r : Reply, o = .ret r ∧ r.ret = 0 ∧ r.buf.take r.framelen = F) ∧ received e = noise ++ F)

theorem ReadsExactly.finishes {noise F : List UInt8} (h : ReadsExactly noise F) :
    ∃ q, finishes MagicSt.init (noise ++ F) = some q ∧ q.buf.take q.framelen = F := by
  have hline : (byteScript (noise ++ F)).flatten = noise ++ F ++ [] := by simp
  obtain ⟨⟨r, hret, h0, hframe⟩, hgot⟩ := h _ _ (byteScript (noise ++ F)).length [] [] (byteScript_plays (noise ++ F))
    (scriptDevice_prompt _) (Nat.le_refl _) hline
  have hscan := uartReadUntilMagic_scan (byteScript (noise ++ F)).length (scriptDevice (byteScript (noise ++ F))) []
  unfold Sat at hscan
  rw [hret, hgot] at hscan
  rcases hscan with hneg | ⟨q, hq, rfl⟩
  · omega
  · exact ⟨q, hq, hframe⟩

/-- The frame in the buffer is what was not passed over. -/
theorem ReadsExactly.skipped {noise F : List UInt8} (h : ReadsExactly noise F) : Skipped noise := by
  obtain ⟨q, hq, hframe⟩ := h.finishes
  obtain ⟨u, f, hbs, hu, _, hlen, htake⟩ := finishes_decomp hq
  rw [hlen, htake] at hframe
  rw [hframe] at hbs
  rwa [List.append_cancel_right hbs]

theorem Skipped.readsExactly {noise F : List UInt8} (hu : Skipped noise) (hf : Framed F) : ReadsExactly noise F := by
  obtain ⟨q, hq, hlen, htake⟩ := finishes_framed hu hf
  intro d script fuel l rest hplay hprompt hfuel hs
  refine (uartReadUntilMagic_finishes hplay hprompt hfuel hq l hs).mono ?_
  rintro o e ⟨ho, hgot, _⟩
  refine ⟨⟨q.reply, ho, rfl, ?_⟩, hgot⟩
  show q.buf.take q.framelen = F
  rw [hlen, htake]

theorem cmdFrame_framed {c : Cmddef} (hc : c.len ≤ 1024) : Framed (cmdFrame c) where
  starts := by
    obtain ⟨tl, htl⟩ := cmdFrame_mgc c
    exact ⟨tl, htl.symm⟩
  len := cmdFrame_len hc
  low := by
    rw [cmdFrame_length hc]
    omega
  high := by
    rw [cmdFrame_length hc]
    unfold cmdBufLen
    omega

/-- **When the reader finds a frame after noise**: when its matcher passes over the noise. -/
theorem uartReadUntilMagic_resync_iff {c : Cmddef} (hc : c.len ≤ 1024) (noise : List UInt8) :
    ReadsExactly noise (cmdFrame c) ↔ Skipped noise := by
  constructor
  · intro h
    exact h.skipped
  · intro hu
    exact hu.readsExactly (cmdFrame_framed hc)

/-- A part of the magic, twice over, before a reset frame. -/
theorem uartReadUntilMagic_resync_rst :
    ReadsExactly [0xef, 0xbe, 0xef, 0xef, 0x41] (cmdFrame (WS63E_FLASHINFO .rst)) :=
  (uartReadUntilMagic_resync_iff (by decide) _).2 (.second (by decide) (.first (by decide) .nil))

/-- The magic first occurs in `noise ++ F` where `F` starts. -/
def MagicFirst (noise F : List UInt8) : Prop := ∀ u v, noise ++ F = u ++ mgc ++ v → noise.length ≤ u.length

/-- **A lone first byte of the magic** before a frame makes the reader miss it. -/
theorem uartReadUntilMagic_misses : MagicFirst [0xef] (cmdFrame (WS63E_FLASHINFO .rst)) ∧
    ¬ ReadsExactly [0xef] (cmdFrame (WS63E_FLASHINFO .rst)) := by
  constructor
  · intro u v h
    rcases u with _ | ⟨b, u⟩
    · obtain ⟨tl, htl⟩ := cmdFrame_mgc (WS63E_FLASHINFO .rst)
      rw [htl] at h
      exact absurd (List.cons.inj (List.cons.inj h).2).1 (by decide)
    · simp
  · intro h
    obtain ⟨q, hq, _⟩ := h.finishes
    have hnone : (finishes MagicSt.init ([0xef] ++ cmdFrame (WS63E_FLASHINFO .rst))).isNone = true := by decide +kernel
    rw [hq] at hnone
    cases hnone

/-! ## What is framed -/

/-- What a call that returns 0 has taken for a frame is the end of what it has read, starts with the magic, and is as long
as it says. -/
def FramesReply (run : Out Reply × List Ev) : Prop :=
  ∀ r, run.1 = .ret r → r.ret = 0 → let s := r.buf.take r.framelen
    s <:+ received run.2 ∧ mgc <+: s ∧ s.length = lenField s

/-- This holds of every run that receives the bytes, or the first of them. -/
def FramesReplies (bs : List UInt8) : Prop :=
  ∀ (d : Device) (l : List Ev) (fuel : Nat), received (uartReadUntilMagic fuel d l).2 <+: bs →
    FramesReply (uartReadUntilMagic fuel d l)

/-- The magic ends with the fourth byte. -/
theorem mgc_prefix_iff {f : List UInt8} (hf : Starts f) : mgc <+: f ↔ f[3]? = some 0xde := by
  obtain ⟨g, rfl⟩ := hf
  rcases g with _ | ⟨b, g⟩
  · decide
  · show [0xef, 0xbe, 0xad, 0xde] <+: [0xef, 0xbe, 0xad] ++ b :: g ↔ some b = some 0xde
    rw [show ([0xef, 0xbe, 0xad, 0xde] : List UInt8) = [0xef, 0xbe, 0xad] ++ [0xde] from rfl,
      List.prefix_append_right_inj, List.cons_prefix_cons, Option.some.injEq]
    exact ⟨fun h => h.1.symm, fun h => ⟨h.symm, List.nil_prefix⟩⟩

theorem FramesReplies.fourth {u f v : List UInt8} (h : FramesReplies (u ++ f ++ v)) (hu : Skipped u) (hf : Framed f) :
    f[3]? = some 0xde := by
  obtain ⟨q, hq, hlen, htake⟩ := finishes_framed hu hf
  have hscript : (byteScript (u ++ f ++ v)).flatten = u ++ f ++ v := by simp
  obtain ⟨hret, hgot, _⟩ := uartReadUntilMagic_finishes (byteScript_plays (u ++ f ++ v)) (scriptDevice_prompt _)
    (Nat.le_refl _) hq [] hscript
  obtain ⟨_, hmgc, _⟩ := h _ [] _ (by rw [hgot]; exact List.prefix_append _ _) q.reply hret rfl
  have hframe : q.reply.buf.take q.reply.framelen = f := by
    show q.buf.take q.framelen = f
    rw [hlen, htake]
  rw [hframe] at hmgc
  exact (mgc_prefix_iff hf.starts).1 hmgc

/-- **When only replies are framed**: when a frame, as the reader takes it, has the fourth byte of the magic, which it does
not compare. -/
theorem uartReadUntilMagic_frames_iff (bs : List UInt8) : FramesReplies bs ↔
    ∀ u f v, bs = u ++ f ++ v → Skipped u → Framed f → f[3]? = some 0xde := by
  constructor
  · intro h u f v hbs hu hf
    exact (hbs ▸ h).fourth hu hf
  · intro h d l fuel hpre r hret h0
    have hscan := uartReadUntilMagic_scan fuel d l
    unfold Sat at hscan
    rw [hret] at hscan
    rcases hscan with hneg | ⟨q, hq, rfl⟩
    · omega
    · obtain ⟨u, f, hgot, hu, hf, hlen, htake⟩ := finishes_decomp hq
      obtain ⟨v, hv⟩ := hpre
      have hfourth := h u f v (by rw [← hv, hgot]) hu hf
      have hframe : q.reply.buf.take q.reply.framelen = f := by
        show q.buf.take q.framelen = f
        rw [hlen, htake]
      dsimp only
      rw [hframe, hgot]
      exact ⟨List.suffix_append u f, (mgc_prefix_iff hf.starts).2 hfourth, hf.len.symm⟩

/-- **Seven bytes without the magic** are framed as a reply. -/
theorem uartReadUntilMagic_frames_other : ¬ FramesReplies [0xef, 0xbe, 0xad, 0x00, 0x07, 0x00, 0x00] := by
  intro h
  have hf : Framed [0xef, 0xbe, 0xad, 0x00, 0x07, 0x00, 0x00] := ⟨⟨_, rfl⟩, by decide, by decide, by decide⟩
  exact absurd (FramesReplies.fourth (u := []) (v := []) h .nil hf) (by decide)

end Ws63Flash
