import Ws63Flash.Cmd
/-!
# CmdFrames — command frames read back

A frame that `ws63_send_cmddef` wrote, after noise without the first magic byte, is read whole and nothing more of the
line is consumed (`uartReadUntilMagic_frame`); a sequence of them is read frame by frame.

The reader's `switch` is followed on bytes alone first (`finishes`), then on a line that plays the bytes with pauses
(`magicLoop_feed`).
-/
namespace Ws63Flash

open Octets Proc

/-! ## The switch on bytes -/

/-- The state in which the reader ends at the last byte of `w`, if it stays in its buffer and ends there. -/
def finishes : MagicSt → List UInt8 → Option MagicSt
  | _, []     => none
  | s, b :: w =>
    if s.i < cmdBufLen then
      match magicStep s b with
      | .next s' => finishes s' w
      | .done q  => if w = [] then some q else none
    else none

/-- The reader waits for the first magic byte. -/
structure Fresh (s : MagicSt) : Prop where
  st : s.st = 0
  i : s.i = 0
  framelen : s.framelen = 0
  buf : s.buf.length = cmdBufLen

theorem Fresh.init : Fresh MagicSt.init := ⟨rfl, rfl, rfl, List.length_replicate⟩

theorem finishes_noise : ∀ (noise : List UInt8) (s : MagicSt), Fresh s → (∀ b ∈ noise, b ≠ 0xef) →
    ∃ s', Fresh s' ∧ ∀ w, finishes s (noise ++ w) = finishes s' w
  | [], s, hs, _         => ⟨s, hs, fun _ => rfl⟩
  | b :: noise, s, hs, h => by
    rcases s with ⟨buf, i, framelen, st⟩
    obtain ⟨rfl, rfl, rfl, hb⟩ := hs
    have hne : ¬ (0xef : UInt8) = b := fun e => h b List.mem_cons_self e.symm
    have hstep : magicStep ⟨buf, 0, 0, 0⟩ b = .next ⟨buf.set 0 b, 0, 0, 0⟩ := by
      show (if (0xef : UInt8) = b then _ else _) = _
      rw [if_neg hne]
      rfl
    obtain ⟨s', hs', hw⟩ := finishes_noise noise ⟨buf.set 0 b, 0, 0, 0⟩
      ⟨rfl, rfl, rfl, by rw [List.length_set]; exact hb⟩ (fun c hc => h c (List.mem_cons_of_mem _ hc))
    refine ⟨s', hs', fun w => ?_⟩
    rw [List.cons_append, finishes, if_pos (show 0 < cmdBufLen by decide), hstep]
    exact hw w

theorem take_succ_set {buf : List UInt8} {k : Nat} (b : UInt8) (h : k < buf.length) :
    (buf.set k b).take (k + 1) = buf.take k ++ [b] := by
  rw [List.take_add_one, List.take_set_of_le (Nat.le_refl k), List.getElem?_set_self h]
  rfl

/-- The reader inside a frame `F`: it has `F`'s first `k` bytes, and from the sixth on its length. -/
structure Inside (F : List UInt8) (k : Nat) (s : MagicSt) : Prop where
  st : s.st = 1
  i : s.i = k
  framelen : s.framelen = if k ≤ 5 then 0 else F.length
  buf : s.buf.length = cmdBufLen
  taken : s.buf.take k = F.take k

theorem Inside.step {F : List UInt8} {k : Nat} {s : MagicSt} (hs : Inside F k s) (hk3 : 3 ≤ k) (hk : k + 1 < F.length)
    (hF : F.length ≤ cmdBufLen) (hlen : leNat (slice F 4 2) = F.length) (b : UInt8) (hb : F[k]? = some b) :
    ∃ s', magicStep s b = .next s' ∧ Inside F (k + 1) s' := by
  rcases s with ⟨buf, i, framelen, st⟩
  obtain ⟨hst, hi, hfl, hbuf, htake⟩ := hs
  dsimp only at hst hi hfl hbuf htake
  subst hst hi
  have htake' : (buf.set i b).take (i + 1) = F.take (i + 1) := by
    rw [take_succ_set b (by omega), htake, List.take_add_one, hb]
    rfl
  have hbuf' : (buf.set i b).length = cmdBufLen := by rw [List.length_set]; exact hbuf
  by_cases h5 : i = 5
  · subst h5
    have hl : leNat (slice (buf.set 5 b) 4 2) = F.length := by
      rw [slice_eq_drop_take, htake', show (5 + 1 : Nat) = 4 + 2 from rfl, ← slice_eq_drop_take, hlen]
    exact ⟨⟨buf.set 5 b, 6, leNat (slice (buf.set 5 b) 4 2), 1⟩, rfl, rfl, rfl, hl, hbuf', htake'⟩
  · have hne : ¬ i + 1 = framelen := by
      rw [hfl]
      split <;> omega
    refine ⟨⟨buf.set i b, i + 1, framelen, 1⟩, ?_, rfl, rfl, ?_, hbuf', htake'⟩
    · show (if i = 5 then _ else if i + 1 = framelen then _ else _) = _
      rw [if_neg h5, if_neg hne]
    · show framelen = _
      rw [hfl]
      split <;> split <;> omega

/-- From inside a frame the reader ends at its last byte, with the frame in its buffer. -/
theorem finishes_inside {F : List UInt8} (hF6 : 6 < F.length) (hF : F.length ≤ cmdBufLen)
    (hlen : leNat (slice F 4 2) = F.length) : ∀ (n k : Nat) (s : MagicSt), F.length = k + 1 + n → 3 ≤ k →
      Inside F k s → ∃ q, finishes s (F.drop k) = some q ∧ q.framelen = F.length ∧ q.buf.take F.length = F
  | n, k, s, hn, hk3, hs => by
    have hk : k < F.length := by omega
    rw [List.drop_eq_getElem_cons hk, finishes, if_pos (by rw [hs.i]; omega)]
    cases n with
    | succ n =>
      obtain ⟨s', hstep, hs'⟩ := hs.step hk3 (by omega) hF hlen F[k] (List.getElem?_eq_getElem hk)
      rw [hstep]
      exact finishes_inside hF6 hF hlen n (k + 1) s' (by omega) (by omega) hs'
    | zero =>
      rcases s with ⟨buf, i, framelen, st⟩
      obtain ⟨hst, hi, hfl, hbuf, htake⟩ := hs
      dsimp only at hst hi hfl hbuf htake
      subst hst hi
      have hfl' : framelen = F.length := by rw [hfl, if_neg (by omega)]
      have hstep : magicStep ⟨buf, i, framelen, 1⟩ F[i] = .done ⟨buf.set i F[i], i, framelen, 1⟩ := by
        show (if i = 5 then _ else if i + 1 = framelen then _ else _) = _
        rw [if_neg (by omega), if_pos (by omega)]
      have hnil : F.drop (i + 1) = [] := List.drop_eq_nil_of_le (by omega)
      rw [hstep, hnil]
      refine ⟨_, if_pos rfl, hfl', ?_⟩
      show (buf.set i F[i]).take F.length = F
      rw [show F.length = i + 1 by omega, take_succ_set _ (by omega), htake, List.take_append_getElem,
        List.take_of_length_le (by omega)]

/-- **A frame is followed to its last byte**: it starts with the magic and holds its own length. -/
theorem finishes_frame {F tl : List UInt8} {s : MagicSt} (hs : Fresh s) (hmgc : F = 0xef :: 0xbe :: 0xad :: tl)
    (hF6 : 6 < F.length) (hF : F.length ≤ cmdBufLen) (hlen : leNat (slice F 4 2) = F.length) :
    ∃ q, finishes s F = some q ∧ q.framelen = F.length ∧ q.buf.take F.length = F := by
  rcases s with ⟨buf, i, framelen, st⟩
  obtain ⟨rfl, rfl, rfl, hb⟩ := hs
  simp only at hb
  have hs3 : Inside F 3 ⟨((buf.set 0 0xef).set 1 0xbe).set 2 0xad, 3, 0, 1⟩ := by
    refine ⟨rfl, rfl, rfl, by simpa only [List.length_set] using hb, ?_⟩
    show List.take 3 _ = _
    unfold cmdBufLen at hb
    rw [take_succ_set _ (by simp only [List.length_set]; omega), take_succ_set _ (by simp only [List.length_set]; omega),
      take_succ_set _ (by omega), hmgc]
    rfl
  obtain ⟨q, hq, h⟩ := finishes_inside hF6 hF hlen (F.length - 4) 3 _ (by omega) (Nat.le_refl 3) hs3
  refine ⟨q, ?_, h⟩
  rw [← hq, hmgc]
  rfl

/-! ## The reader on a line -/

/-- The answers of `d` to reads of one byte are `script`, in order; an empty one is a silence of 0.1 s. -/
def Plays (d : Device) (script : List (List UInt8)) : Prop :=
  ∀ l bs, script[nreads l]? = some bs → d.read l 1 = .data bs

/-- A byte comes in at most `UART_READ_TIMEOUT` after a look at the clock. -/
def Prompt (d : Device) : Prop :=
  ∀ l e, received e = [] → d.time (l ++ .time (d.time l) :: e) - d.time l ≤ UART_READ_TIMEOUT

theorem Prompt.notLate {d : Device} (h : Prompt d) {l l₁ e₁ : List Ev} (he₁ : received e₁ = [])
    (hl : l = l₁ ++ .time (d.time l₁) :: e₁) : ¬ d.time l - d.time l₁ > UART_READ_TIMEOUT := by
  have hle := h l₁ e₁ he₁
  rw [← hl] at hle
  omega

/-- **The loop is fed what it needs and no more.** -/
theorem magicLoop_feed {d : Device} {script : List (List UInt8)} (hplay : Plays d script) (hprompt : Prompt d)
    {rest : List UInt8} {q : MagicSt} : ∀ (bss : List (List UInt8)) (fuel : Nat) (s : MagicSt)
      (l l₁ e₁ : List Ev) (w : List UInt8), bss.length ≤ fuel → l = l₁ ++ .time (d.time l₁) :: e₁ → received e₁ = [] →
      script.drop (nreads l) = bss → bss.flatten = w ++ rest → finishes s w = some q →
      Sat (magicLoop fuel (s, d.time l₁)) d l (fun o e => o = .ret q.reply ∧ received e = w ∧
        (script.drop (nreads (l ++ e))).flatten = rest)
  | [], _, s, l, l₁, e₁, w, _, _, _, _, hw, hq => by
    have hnil : w = [] := (List.append_eq_nil_iff.1 hw.symm).1
    rw [hnil, finishes] at hq
    cases hq
  | bs :: bss, 0, s, l, l₁, e₁, w, hf, _, _, _, _, _ => by simp at hf
  | bs :: bss, fuel + 1, s, l, l₁, e₁, w, hf, hl, he₁, hdrop, hw, hq => by
    have hget : script[nreads l]? = some bs := by
      rw [← List.head?_drop, hdrop]
      rfl
    have hdrop' : script.drop (nreads l + 1) = bss := by rw [← List.drop_drop, hdrop]; rfl
    refine Sat.loop_step (Sat.bind_val (time_sat d l) ?_)
    rintro t e ⟨rfl, rfl⟩
    rw [if_neg (hprompt.notLate he₁ hl)]
    apply Sat.bind_val (read_sat 1 d _)
    rintro r e ⟨rfl, rfl⟩
    have hread : d.read (l ++ [.time (d.time l)]) 1 = .data bs := hplay _ bs (by rw [nreads_append]; exact hget)
    rw [hread]
    cases bs with
    | nil =>
      apply Sat.pure
      refine (magicLoop_feed hplay hprompt bss fuel s _ l₁
        (e₁ ++ [.time (d.time l), .read (.data [])]) w (by simpa using hf) ?_ ?_ ?_ hw hq).mono ?_
      · rw [hl]; simp
      · rw [received_append, he₁]; rfl
      · simpa [Ev.isRead] using hdrop'
      · rintro o e ⟨ho, hr, hd⟩
        refine ⟨ho, by simpa [Ev.got] using hr, by simpa [List.append_assoc] using hd⟩
    | cons b tl =>
      have htl : tl = [] := by
        have := d.read_le _ 1 _ hread
        simpa using this
      subst htl
      cases w with
      | nil => cases hq
      | cons c w =>
        obtain ⟨rfl, hw'⟩ : b = c ∧ bss.flatten = w ++ rest := by simpa using hw
        rw [finishes] at hq
        by_cases hi : s.i < cmdBufLen
        · rw [if_pos hi] at hq
          dsimp only
          rw [if_pos hi]
          apply Sat.bind_val (time_sat d _)
          rintro t e ⟨rfl, rfl⟩
          cases hstep : magicStep s b with
          | next s' =>
            rw [hstep] at hq
            apply Sat.pure
            refine (magicLoop_feed hplay hprompt bss fuel s' _ (l ++ [.time (d.time l)] ++ [.read (.data [b])]) [] w
              (by simpa using hf) ?_ rfl ?_ hw' hq).mono ?_
            · simp
            · simpa [Ev.isRead] using hdrop'
            · rintro o e ⟨ho, hr, hd⟩
              exact ⟨ho, by simpa [Ev.got] using hr, by simpa [List.append_assoc] using hd⟩
          | done s' =>
            rw [hstep] at hq
            have hend : w = [] ∧ s' = q := by simpa using hq
            obtain ⟨rfl, rfl⟩ := hend
            refine Sat.pure ⟨rfl, by simp [Ev.got], ?_⟩
            have : (script.drop (nreads l + 1)).flatten = rest := by rw [hdrop']; exact hw'
            simpa [Ev.isRead] using this
        · rw [if_neg hi] at hq
          cases hq

/-! ## Frames -/

theorem frameHead_length {c : Cmddef} (h : c.len ≤ 1024) : (frameHead c).length = c.len + 8 := by
  have hd : (c.dat.take c.len).length = c.len := by rw [List.length_take, c.dat_length]; omega
  simp only [frameHead, List.length_append, le32_length, le16_length, hd, List.length_cons, List.length_nil]
  omega

theorem cmdFrame_length {c : Cmddef} (h : c.len ≤ 1024) : (cmdFrame c).length = c.len + 10 := by
  rw [cmdFrame, List.length_append, frameHead_length h, le16_length]

theorem cmdFrame_mgc (c : Cmddef) : ∃ tl, cmdFrame c = 0xef :: 0xbe :: 0xad :: tl := by
  have hmgc : le32 0xdeadbeef = [0xef, 0xbe, 0xad, 0xde] := by decide
  rw [cmdFrame, frameHead, hmgc]
  exact ⟨_, rfl⟩

theorem cmdFrame_len {c : Cmddef} (h : c.len ≤ 1024) : leNat (slice (cmdFrame c) 4 2) = (cmdFrame c).length := by
  have hs : slice (cmdFrame c) 4 2 = le16 (UInt16.ofNat (c.len + 10)) := by
    rw [cmdFrame, frameHead, List.append_assoc, List.append_assoc]
    exact slice_append_mid _ (le32_length _) (le16_length _)
  rw [hs, le16, leNat_leBytes, UInt16.toNat_ofNat', cmdFrame_length h]
  omega

theorem cmdFrame_cmd (c : Cmddef) : slice (cmdFrame c) 6 2 = [c.cmd, swapCmd c.cmd] := by
  rw [cmdFrame, frameHead, List.append_assoc]
  exact slice_append_mid _ (by rw [List.length_append, le32_length, le16_length]) rfl

theorem cmdFrame_dat {c : Cmddef} (h : c.len ≤ 1024) : slice (cmdFrame c) 8 c.len = c.dat.take c.len := by
  rw [cmdFrame, frameHead]
  exact slice_append_mid _ (by simp) (by rw [List.length_take, c.dat_length]; omega)

theorem cmdFrame_crc {c : Cmddef} (h : c.len ≤ 1024) :
    slice (cmdFrame c) (c.len + 8) 2 = le16 (crc16Xmodem ((cmdFrame c).take (c.len + 8))) := by
  have htake : (cmdFrame c).take (c.len + 8) = frameHead c := by rw [cmdFrame, List.take_left' (frameHead_length h)]
  have h2 := slice_append_mid (a := frameHead c) (b := le16 (crc16Xmodem (frameHead c))) [] (frameHead_length h)
    (le16_length _)
  rw [List.append_nil] at h2
  rw [htake, ← h2]
  rfl

theorem swapCmd_nibbles (x : UInt8) : (swapCmd x).toNat = x.toNat % 16 * 16 + x.toNat / 16 := by
  have hall : ∀ n < 256, (swapCmd (UInt8.ofNat n)).toNat = n % 16 * 16 + n / 16 := by decide +kernel
  have h := hall x.toNat x.toNat_lt
  rwa [UInt8.ofNat_toNat] at h

/-- **A command is written whole** on a device that takes what it is given. -/
theorem ws63SendCmddef_accepts {d : Device} (h : d.Accepts) {fuel : Nat} {c : Cmddef} (hc : c.len ≤ 1024)
    (hf : 1034 < fuel) (l : List Ev) :
    Sat (ws63SendCmddef fuel c) d l (fun o e => o = .ret 0 ∧ written e = cmdFrame c ∧ nreads e = 0) := by
  have hlen := cmdFrame_length hc
  rw [ws63SendCmddef, if_neg (by unfold cmdBufLen; omega), if_neg (by omega)]
  exact writeAll_accepts h (by omega) l

/-- The buffer of a reply holds the command `c`. -/
structure Reply.Carries (r : Reply) (c : Cmddef) : Prop where
  cmd : r.buf[6]? = some c.cmd
  scmd : ∃ x, r.buf[7]? = some x ∧ x.toNat = c.cmd.toNat % 16 * 16 + c.cmd.toNat / 16
  dat : slice r.buf 8 c.len = c.dat.take c.len

theorem getElem?_of_slice {buf : List UInt8} {off : Nat} {x y : UInt8} (h : slice buf off 2 = [x, y]) :
    buf[off]? = some x ∧ buf[off + 1]? = some y := by
  rw [slice] at h
  have h0 : ((buf.drop off).take 2)[0]? = some x := by rw [h]; rfl
  have h1 : ((buf.drop off).take 2)[1]? = some y := by rw [h]; rfl
  exact ⟨by simpa using h0, by simpa using h1⟩

/-- What the reader holds after a frame of `c`. -/
theorem MagicSt.reply_frame {q : MagicSt} {c : Cmddef} (hc : c.len ≤ 1024) (hl : q.framelen = (cmdFrame c).length)
    (hb : q.buf.take (cmdFrame c).length = cmdFrame c) :
    q.reply.ret = 0 ∧ q.reply.badCrc = false ∧ q.reply.Carries c := by
  have hlen := cmdFrame_length hc
  have hat : ∀ {off n : Nat}, off + n ≤ c.len + 10 → slice q.buf off n = slice (cmdFrame c) off n := fun h =>
    slice_of_take hb (by rw [hlen]; exact h)
  refine ⟨rfl, ?_, ?_⟩
  · have htake : q.buf.take (c.len + 8) = (cmdFrame c).take (c.len + 8) := by
      rw [← hb, List.take_take, hlen, Nat.min_eq_left (by omega)]
    show decide (slice q.buf (q.framelen - 2) 2 ≠ le16 (crc16Xmodem (q.buf.take (q.framelen - 2)))) = false
    rw [hl, hlen, show c.len + 10 - 2 = c.len + 8 by omega, hat (by omega), htake, cmdFrame_crc hc]
    exact decide_eq_false (fun h => h rfl)
  · obtain ⟨h6, h7⟩ := getElem?_of_slice ((hat (show 6 + 2 ≤ c.len + 10 by omega)).trans (cmdFrame_cmd c))
    exact ⟨h6, ⟨_, h7, swapCmd_nibbles _⟩, (hat (by omega)).trans (cmdFrame_dat hc)⟩

/-- A call on bytes that end one returns with what they leave in the buffer. -/
theorem uartReadUntilMagic_finishes {d : Device} {script : List (List UInt8)} (hplay : Plays d script)
    (hprompt : Prompt d) {fuel : Nat} (hf : script.length ≤ fuel) {bs rest : List UInt8} {q : MagicSt}
    (hq : finishes MagicSt.init bs = some q) (l : List Ev) (hs : (script.drop (nreads l)).flatten = bs ++ rest) :
    Sat (uartReadUntilMagic fuel) d l (fun o e => o = .ret q.reply ∧ received e = bs ∧
      (script.drop (nreads (l ++ e))).flatten = rest) := by
  apply Sat.bind_val (time_sat d l)
  rintro _ _ ⟨rfl, rfl⟩
  refine Sat.bind (magicLoop_feed hplay hprompt _ fuel _ _ l [] _ ?_ rfl rfl rfl (by simpa [Ev.isRead] using hs) hq) ?_ ?_
  · rw [List.length_drop]
    omega
  · rintro r e ⟨ho, hr, hd⟩
    cases ho
    apply Sat.bind_val (mark_sat _ _ d _)
    rintro _ _ rfl
    refine Sat.pure ⟨rfl, ?_, ?_⟩
    · simpa [Ev.got] using hr
    · simpa [Ev.isRead, List.append_assoc] using hd
  · rintro x e ⟨ho, _⟩
    cases ho

/-- **One call reads one frame**, whatever stands before its magic. -/
theorem uartReadUntilMagic_frame {d : Device} {script : List (List UInt8)} (hplay : Plays d script)
    (hprompt : Prompt d) {fuel : Nat} (hf : script.length ≤ fuel) {noise rest : List UInt8} {c : Cmddef}
    (hc : c.len ≤ 1024) (hnoise : 0xef ∉ noise) (l : List Ev)
    (hs : (script.drop (nreads l)).flatten = noise ++ cmdFrame c ++ rest) :
    Sat (uartReadUntilMagic fuel) d l (fun o e =>
      (∃ r : Reply, o = .ret r ∧ r.ret = 0 ∧ r.badCrc = false ∧ r.Carries c) ∧ received e = noise ++ cmdFrame c ∧
        (script.drop (nreads (l ++ e))).flatten = rest) := by
  have hlen := cmdFrame_length hc
  obtain ⟨tl, hmgc⟩ := cmdFrame_mgc c
  obtain ⟨s, hfresh, hskip⟩ := finishes_noise noise MagicSt.init Fresh.init (fun b hb he => hnoise (he ▸ hb))
  obtain ⟨q, hq, hql, hqb⟩ := finishes_frame hfresh hmgc (by omega) (by unfold cmdBufLen; omega) (cmdFrame_len hc)
  rw [← hskip] at hq
  refine (uartReadUntilMagic_finishes hplay hprompt hf hq l hs).mono ?_
  rintro o e ⟨ho, hgot, hrest⟩
  exact ⟨⟨_, ho, MagicSt.reply_frame hc hql hqb⟩, hgot, hrest⟩

/-- What a call must leave for the command `x.1`, having read the bytes `x.2`. -/
def ReadsFrame (call : Out Reply × List Ev) (x : Cmddef × List UInt8) : Prop :=
  ∃ r : Reply, call.1 = .ret r ∧ r.ret = 0 ∧ r.badCrc = false ∧ r.Carries x.1 ∧ received call.2 = x.2

theorem runs_frames {d : Device} {script : List (List UInt8)} (hplay : Plays d script) (hprompt : Prompt d) {fuel : Nat}
    (hf : script.length ≤ fuel) {rest : List UInt8} : ∀ (cmds : List Cmddef) (noises : List (List UInt8)) (l : List Ev),
      noises.length = cmds.length → (∀ c ∈ cmds, c.len ≤ 1024) → (∀ noise ∈ noises, 0xef ∉ noise) →
      (script.drop (nreads l)).flatten = (List.zipWith (· ++ ·) noises (cmds.map cmdFrame)).flatten ++ rest →
      List.Forall₂ ReadsFrame (Proc.runs d l (List.replicate cmds.length (uartReadUntilMagic fuel)))
        (cmds.zip (List.zipWith (· ++ ·) noises (cmds.map cmdFrame)))
  | [], _, _, _, _, _, _                        => List.Forall₂.nil
  | c :: cmds, noise :: noises, l, hn, hc, hno, hs => by
    have hs' : (script.drop (nreads l)).flatten = noise ++ cmdFrame c ++
        ((List.zipWith (· ++ ·) noises (cmds.map cmdFrame)).flatten ++ rest) := by
      simpa using hs
    obtain ⟨⟨r, ho, hr0, hcrc, hr⟩, hgot, hrest⟩ :=
      uartReadUntilMagic_frame hplay hprompt hf (hc c List.mem_cons_self) (hno noise List.mem_cons_self) l hs'
    apply List.Forall₂.cons ⟨r, ho, hr0, hcrc, hr, hgot⟩
    exact runs_frames hplay hprompt hf cmds noises _ (by simpa using hn) (fun c h => hc c (List.mem_cons_of_mem _ h))
      (fun x h => hno x (List.mem_cons_of_mem _ h)) hrest

theorem runs_sent {d : Device} (h : d.Accepts) {fuel : Nat} (hf : 1034 < fuel) : ∀ (cmds : List Cmddef) (l : List Ev),
    (∀ c ∈ cmds, c.len ≤ 1024) →
    (∀ s ∈ Proc.runs d l (cmds.map (ws63SendCmddef fuel)), s.1 = .ret 0) ∧
      (Proc.runs d l (cmds.map (ws63SendCmddef fuel))).map (fun s => written s.2) = cmds.map cmdFrame
  | [], _, _         => ⟨fun _ h => (nomatch h), rfl⟩
  | c :: cmds, l, hc => by
    obtain ⟨h0, hw, _⟩ := ws63SendCmddef_accepts h (hc c List.mem_cons_self) hf l
    obtain ⟨h0', hw'⟩ := runs_sent h hf cmds _ (fun c h => hc c (List.mem_cons_of_mem _ h))
    refine ⟨fun s hs => ?_, ?_⟩
    · rcases List.mem_cons.1 hs with rfl | hs
      · exact h0
      · exact h0' s hs
    · rw [List.map_cons, Proc.runs, List.map_cons, List.map_cons, hw, hw']

/-- **What was sent is read back**: the commands `cmds` are written to a line that takes them in any pieces, and their
frames come in over another, after noise without the first magic byte and with any silences; the `k`-th call reads the
`k`-th noise and frame and nothing more, and leaves the `k`-th command in its buffer. -/
theorem uartReadUntilMagic_frames {ds dr : Device} {cmds : List Cmddef} {noises script : List (List UInt8)}
    {rest : List UInt8} {fs fr : Nat} (hc : ∀ c ∈ cmds, c.len ≤ 1024) (haccept : ds.Accepts) (hfs : 1034 < fs)
    (hn : noises.length = cmds.length) (hnoise : ∀ noise ∈ noises, 0xef ∉ noise) (hplay : Plays dr script)
    (hprompt : Prompt dr) (hfr : script.length ≤ fr) :
    let sends := Proc.runs ds [] (cmds.map (ws63SendCmddef fs))
    let chunks := List.zipWith (· ++ ·) noises (sends.map (fun s => written s.2))
    let calls := Proc.runs dr [] (List.replicate cmds.length (uartReadUntilMagic fr))
    (∀ s ∈ sends, s.1 = .ret 0) ∧
      (script.flatten = chunks.flatten ++ rest → List.Forall₂ ReadsFrame calls (cmds.zip chunks)) := by
  obtain ⟨h0, hw⟩ := runs_sent haccept hfs cmds [] hc
  refine ⟨h0, fun hs => ?_⟩
  rw [hw] at hs ⊢
  exact runs_frames hplay hprompt hfr cmds noises [] hn hc hnoise hs

theorem scriptDevice_plays {script : List (List UInt8)} (h : ∀ bs ∈ script, bs.length ≤ 1) :
    Plays (scriptDevice script) script := by
  intro l bs hbs
  show ReadRes.data ((script.getD (nreads l) []).take 1) = .data bs
  rw [List.getD_eq_getElem?_getD, hbs, Option.getD_some, List.take_of_length_le (h bs (List.mem_of_getElem? hbs))]

theorem scriptDevice_prompt (script : List (List UInt8)) : Prompt (scriptDevice script) := by
  intro l e _
  show (0 : Int) - 0 ≤ 2
  decide

/-- A reset frame after a byte of noise, with a silence in it, a second one after two bytes of noise, and a byte more. -/
def rstScript : List (List UInt8) :=
  [[0x41], [0xef], [0xbe], [], [0xad], [0xde], [0x0c], [0x00], [0x87], [0x78], [0x00], [0x00], [0x61], [0x94],
    [0xbe], [0xad], [0xef], [0xbe], [0xad], [0xde], [0x0c], [0x00], [0x87], [0x78], [0x00], [0x00], [0x61], [0x94], [0xef]]

theorem uartReadUntilMagic_frames_rst : List.Forall₂ ReadsFrame
    (Proc.runs (scriptDevice rstScript) [] [uartReadUntilMagic 29, uartReadUntilMagic 29])
    [(WS63E_FLASHINFO .rst, [0x41] ++ cmdFrame (WS63E_FLASHINFO .rst)),
      (WS63E_FLASHINFO .rst, [0xbe, 0xad] ++ cmdFrame (WS63E_FLASHINFO .rst))] := by
  have hline : rstScript.flatten =
      [[0x41] ++ cmdFrame (WS63E_FLASHINFO .rst), [0xbe, 0xad] ++ cmdFrame (WS63E_FLASHINFO .rst)].flatten ++ [0xef] := by
    decide +kernel
  have h := @uartReadUntilMagic_frames (scriptDevice []) (scriptDevice rstScript)
    [WS63E_FLASHINFO .rst, WS63E_FLASHINFO .rst] [[0x41], [0xbe, 0xad]] rstScript [0xef] 1035 29 (by decide)
    (scriptDevice_accepts _) (by decide) rfl (by decide) (scriptDevice_plays (by decide)) (scriptDevice_prompt _) (by decide)
  have hw := (runs_sent (scriptDevice_accepts []) (show 1034 < 1035 by decide)
    [WS63E_FLASHINFO .rst, WS63E_FLASHINFO .rst] [] (by decide)).2
  dsimp only at h
  rw [hw] at h
  exact h.2 hline

end Ws63Flash
