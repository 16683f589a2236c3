import Ws63Flash.Device
/-!
# PlanDevice — what the flash holds after a run

A plan of download commands is a list of images.  A run that returns 0 burns them in order (`runPlan_burns`), and any
other run, wherever it stops, leaves the flash somewhere on the way (`runPlan_burning`).  Whatever the streams hold, no
cell outside the areas that the commands name changes (`runPlan_spares`).
-/
namespace Ws63Flash

open Octets Proc Language Units Burn
open scoped Computability

/-! ## Jobs -/

/-- A DOWNLOADI command burns `w`, with the session of its bytes if it has one. -/
inductive Job.Burns : Job → Image UInt8 → Prop where
  | erase (addr len eras : UInt32) : Burns ⟨downloadCmd addr len eras, none⟩ ⟨addr.toNat, eras.toNat, []⟩
  | store (addr eras : UInt32) {p : Part} (hp : p.Fits) (hlen : p.len < 2 ^ 32) :
    Burns ⟨downloadCmd addr (UInt32.ofNat p.len) eras, some p⟩ ⟨addr.toNat, eras.toNat, p.data⟩

theorem Part.Fits.length {p : Part} (hp : p.Fits) : p.data.length = p.len := by
  obtain ⟨f, hf, hlen⟩ := hp
  rw [Part.data, hf, List.length_take, Nat.min_eq_left hlen]

theorem Job.Burns.fits {j : Job} {w : Image UInt8} (h : j.Burns w) : j.Fits := by
  cases h with
  | erase addr len eras        => exact ⟨show (14 : Nat) ≤ 1024 by decide, fun q hq => nomatch hq⟩
  | store addr eras hp hlen    => exact ⟨show (14 : Nat) ≤ 1024 by decide, fun q hq => Option.some.inj hq ▸ hp⟩

theorem download_whole (addr len eras : UInt32) : Whole devSize (cmdFrame (downloadCmd addr len eras)) := by
  rw [cmdFrame_download]
  exact frame_whole _ (by simp)

theorem session_whole {fn : CStr} {data u : List UInt8} (hu : u ∈ sessionBlks fn data) : Whole devSize u :=
  whole_dev (sessionBlks_selfDelimiting hu)

theorem session_idem {fn : CStr} {data u : List UInt8} (hu : u ∈ sessionBlks fn data) (s : Dev) :
    devStep (devStep s u) u = devStep s u :=
  devStep_idem (sessionBlks_selfDelimiting hu) s

theorem devStep_cmd (s : Dev) (addr len eras : UInt32) : devStep s (cmdFrame (downloadCmd addr len eras)) =
    ⟨fill 0xff s.flash addr.toNat eras.toNat, some (addr.toNat, len.toNat, 0), none⟩ := by
  rw [cmdFrame_download, devStep_download]

theorem Job.Burns.effect {j : Job} {w : Image UInt8} (h : j.Burns w) :
    Effect devSize devStep j.trace (fun s s' => s'.flash = burn 0xff s.flash w) := by
  cases h with
  | erase addr len eras =>
    refine Effect.mul (Effect.word (download_whole addr len eras).selfDelimiting) (Effect.one (fun _ => rfl)) ?_
    rintro s _ _ rfl rfl
    rw [devStep_cmd, burn, store_nil]
  | store addr eras hp hlen =>
    rename_i p
    refine Effect.mul (Effect.word (download_whole addr _ eras).selfDelimiting)
      (Effect.repeated (sessionBlks p.name p.data) (fun u hu => (session_whole hu).selfDelimiting)
        (fun u hu => session_idem hu)) ?_
    rintro s _ _ rfl rfl
    have hmod : (UInt32.ofNat p.len).toNat = p.data.length := by
      rw [UInt32.toNat_ofNat', hp.length, Nat.mod_eq_of_lt hlen]
    rw [devStep_cmd, hmod, foldl_sessionBlks _ _ _ (by rw [← hmod]; exact toNat_le_xferMax _), burn]

/-- A job cut short leaves the flash alone, or has erased its area and stored the front of its data. -/
theorem Job.Burns.torn {j : Job} {w : Image UInt8} (h : j.Burns w) : Torn devSize devStep j.trace
    (fun s s' => s'.flash = s.flash ∨ ∃ n, s'.flash = burnTo 0xff s.flash w n) := by
  cases h with
  | erase addr len eras =>
    refine (Torn.word (download_whole addr len eras)).mul (Effect.word (download_whole addr len eras).selfDelimiting)
      (Torn.one (C := fun s s' => s' = s) (fun _ => rfl)) ?_ ?_
    · rintro s _ (rfl | rfl)
      · exact Or.inl rfl
      · exact Or.inr ⟨0, by rw [devStep_cmd, burnTo, List.take_zero, store_nil]⟩
    · rintro s _ _ rfl rfl
      exact Or.inr ⟨0, by rw [devStep_cmd, burnTo, List.take_zero, store_nil]⟩
  | store addr eras hp hlen =>
    rename_i p
    have hmod : (UInt32.ofNat p.len).toNat = p.data.length := by
      rw [UInt32.toNat_ofNat', hp.length, Nat.mod_eq_of_lt hlen]
    have hmax : p.data.length ≤ xferMax := by
      rw [← hmod]
      exact toNat_le_xferMax _
    refine (Torn.word (download_whole addr _ eras)).mul (Effect.word (download_whole addr _ eras).selfDelimiting)
      (Torn.repeated (sessionBlks p.name p.data) (fun u hu => session_whole hu) (fun u hu => session_idem hu)) ?_ ?_
    · rintro s _ (rfl | rfl)
      · exact Or.inl rfl
      · exact Or.inr ⟨0, by rw [devStep_cmd, burnTo, List.take_zero, store_nil]⟩
    · rintro s _ _ rfl ⟨k, rfl⟩
      exact Or.inr ⟨1024 * (k - 1), by rw [devStep_cmd, hmod, foldl_sessionBlks_take _ _ _ hmax, burnTo]⟩

theorem jobsTrace_effect {js : List Job} {ws : List (Image UInt8)} (h : List.Forall₂ Job.Burns js ws) :
    Effect devSize devStep (jobsTrace js) (fun s s' => s'.flash = burnAll 0xff s.flash ws) := by
  induction h with
  | nil => exact Effect.one (fun _ => rfl)
  | cons hj _ ih =>
    rw [jobsTrace_cons]
    refine hj.effect.mul ih (fun s s' s'' h1 h2 => ?_)
    rw [h2, h1]
    rfl

/-- **Jobs cut short** are on the way from image to image. -/
theorem jobsTrace_torn {js : List Job} {ws : List (Image UInt8)} (h : List.Forall₂ Job.Burns js ws) :
    Torn devSize devStep (jobsTrace js) (fun s s' => Burning 0xff s.flash ws s'.flash) := by
  induction h with
  | nil => exact Torn.one (fun s => .stop _ _)
  | cons hj _ ih =>
    rw [jobsTrace_cons]
    refine hj.torn.mul hj.effect ih (fun s s' hs => ?_) (fun s s' s'' h1 h2 => ?_)
    · rcases hs with hs | ⟨n, hs⟩
      · rw [hs]
        exact .stop _ _
      · rw [hs]
        exact .torn _ _ _ n
    · rw [h1] at h2
      exact .next h2

/-! ## Plans -/

section

variable {p : Plan} {ws : List (Image UInt8)} (a : Args)

/-- What a plan sends before its first command. -/
def startTrace (a : Args) (switch : Bool) : Language UInt8 :=
  plus (word (cmdFrame (handshakeCmd a))) * (wholeBlk∗ * switchTrace a switch)

theorem traceWith_blks : p.traceWith a wholeBlk∗ = startTrace a p.switch * (jobsTrace p.jobs * resets) := by
  rw [Plan.traceWith, startTrace, mul_assoc, mul_assoc]

theorem startTrace_past (switch : Bool) : Keeps devSize devStep (startTrace a switch) Dev.Past :=
  (handshake_past a).mul (wholeBlk_past.mul (switchTrace_past a switch) Dev.Past.trans) Dev.Past.trans

/-- The whole of a plan burns its images. -/
theorem deviceFlash_traceWith (hj : List.Forall₂ Job.Burns p.jobs ws) (m : Nat → UInt8) {w : List UInt8}
    (hw : w ∈ p.traceWith a wholeBlk∗) : deviceFlash m w = burnAll 0xff m ws := by
  rw [traceWith_blks, ← mul_assoc] at hw
  have hE : Effect devSize devStep (startTrace a p.switch * jobsTrace p.jobs)
      (fun s s' => s.cur = none → s'.flash = burnAll 0xff s.flash ws) :=
    (startTrace_past a p.switch).effect.mul (jobsTrace_effect hj) (fun s s' s'' h1 h2 hs => by rw [h2, (h1 hs).2])
  obtain ⟨x, hx, v, hv, rfl⟩ := mem_mul.1 hw
  obtain ⟨s', hs, hcons⟩ := hE.consume hx ⟨m, none, none⟩ v
  rw [deviceFlash, hcons, resets_torn v (prefixes_of_mem hv) s', hs rfl]

/-- A part of a plan leaves the flash on the way. -/
theorem deviceFlash_prefix (hj : List.Forall₂ Job.Burns p.jobs ws) (m : Nat → UInt8) {w : List UInt8}
    (hw : w ∈ prefixes (p.traceWith a wholeBlk∗)) : Burning 0xff m ws (deviceFlash m w) := by
  have hjobs : Torn devSize devStep (jobsTrace p.jobs * resets) (fun s s' => Burning 0xff s.flash ws s'.flash) := by
    refine (jobsTrace_torn hj).mul (jobsTrace_effect hj) resets_torn (fun _ _ h => h) (fun s s' s'' h1 h2 => ?_)
    rw [h2, h1]
    exact .done _ _ _
  have hT : Torn devSize devStep (p.traceWith a wholeBlk∗) (fun s s' => s.cur = none → Burning 0xff s.flash ws s'.flash) := by
    rw [traceWith_blks]
    refine (startTrace_past a p.switch).torn.mul (startTrace_past a p.switch).effect hjobs (fun s s' h hs => ?_)
      (fun s s' s'' h1 h2 hs => ?_)
    · rw [(h hs).2]
      exact .stop _ _
    · rw [← (h1 hs).2]
      exact h2
  exact hT w hw ⟨m, none, none⟩ rfl

theorem burns_fits {js : List Job} (h : List.Forall₂ Job.Burns js ws) : ∀ j ∈ js, j.Fits := by
  induction h with
  | nil => exact fun j hj => nomatch hj
  | cons hj _ ih =>
    intro j hmem
    rcases List.mem_cons.1 hmem with rfl | hmem
    · exact hj.fits
    · exact ih j hmem

theorem runPlan_blks (fuel : Nat) (hj : List.Forall₂ Job.Burns p.jobs ws) :
    Emits Ev.sent (runPlan fuel a p) (fun r => r = 0) (p.traceWith a wholeBlk∗) :=
  runPlan_emits_with fuel a ⟨[], nil_mem_kstar _⟩ (sendPart_emits_blks fuel p.boot) (burns_fits hj)

/-- **A run that returns 0 burns the images of its plan in order**, whatever the loaderboot's stream holds. -/
theorem runPlan_burns {d : Device} {l : List Ev} {fuel : Nat} (hj : List.Forall₂ Job.Burns p.jobs ws)
    (hret : (runPlan fuel a p d l).1 = .ret 0) (m : Nat → UInt8) :
    deviceFlash m (written (runPlan fuel a p d l).2) = burnAll 0xff m ws :=
  deviceFlash_traceWith a hj m ((runPlan_blks a fuel hj d l).1 0 hret rfl)

/-- **Wherever a run stops**, the flash is on the way from image to image. -/
theorem runPlan_burning (d : Device) (l : List Ev) (fuel : Nat) (hj : List.Forall₂ Job.Burns p.jobs ws) (m : Nat → UInt8) :
    Burning 0xff m ws (deviceFlash m (written (runPlan fuel a p d l).2)) :=
  deviceFlash_prefix a hj m (runPlan_blks a fuel hj d l).2

end

/-! ## Any streams -/

/-- The units that a plan may send before its reset. -/
def Plan.units (a : Args) (p : Plan) : Language UInt8 :=
  {u | u ∈ wholeBlk ∨ u = cmdFrame (handshakeCmd a) ∨ u = cmdFrame (baudCmd a) ∨ ∃ j ∈ p.jobs, u = cmdFrame j.cmd}

theorem sendJobs_emits_in {B : Language UInt8} (hblk : ∀ u ∈ wholeBlk, u ∈ B) (fuel : Nat) : ∀ js : List Job,
    (∀ j ∈ js, j.cmd.len ≤ 1024 ∧ cmdFrame j.cmd ∈ B) → Emits Ev.sent (sendJobs fuel js) (fun r => r = 0) B∗
  | [], _      => Emits.pure (nil_mem_kstar _)
  | j :: js, hjs => by
    obtain ⟨hlen, hmem⟩ := hjs j List.mem_cons_self
    have hcmd : Emits Ev.sent (ws63SendCmddef fuel j.cmd) (fun r => ¬ r < 0) B∗ :=
      (ws63SendCmddef_emits fuel hlen).mono (fun w hw => mem_kstar_of_mem (by rwa [mem_word.1 hw]))
    have hpart : ∀ q, Emits Ev.sent (sendPart fuel q) (fun r => r = 0) B∗ := fun q =>
      (sendPart_emits_blks fuel q).mono (fun w hw => kstar_mono hblk hw)
    have hjob : Emits Ev.sent (sendJob fuel j) (fun r => r = 0) B∗ := by
      refine hcmd.bind_kstar (fun r hr => ?_) (fun r hr => ?_)
      · rw [if_neg hr]
        refine Emits.silent_bind (sent_unseen.uartReadUntilMagic_silent fuel) (fun _ => ?_) ⟨[], nil_mem_kstar _⟩
        cases j.part with
        | none   => exact Emits.pure (nil_mem_kstar _)
        | some q => exact hpart q
      · rw [if_pos (Classical.not_not.1 hr)]
        exact Refuses.pure (by decide)
    refine hjob.bind_kstar (fun r hr => ?_) (fun r hr => ?_)
    · rw [if_neg (fun h => h hr)]
      exact sendJobs_emits_in hblk fuel js (fun k hk => hjs k (List.mem_cons_of_mem _ hk))
    · rw [if_pos hr]
      exact Refuses.pure hr

/-- **Whatever the streams hold**, a plan sends its frames and whole blocks, and then reset frames. -/
theorem runPlan_emits_units (fuel : Nat) (a : Args) {p : Plan} (hc : ∀ j ∈ p.jobs, j.cmd.len ≤ 1024) :
    Emits Ev.sent (runPlan fuel a p) (fun r => r = 0) ((p.units a)∗ * resets) := by
  have hnil : ([] : List UInt8) ∈ (p.units a)∗ := nil_mem_kstar _
  have hreset : ∃ x, x ∈ resets := ⟨[], nil_mem_resets⟩
  have hstar : (p.units a)∗ * resets = (p.units a)∗ * ((p.units a)∗ * resets) := by
    rw [← mul_assoc, kstar_mul_kstar]
  have hne : ∃ x, x ∈ (p.units a)∗ * resets := mul_nonempty ⟨[], hnil⟩ hreset
  have hhand : Emits Ev.sent (handshakeLoop fuel a) (fun r => r = 0) (p.units a)∗ :=
    (handshakeLoop_emits fuel a).mono (fun w hw =>
      kstar_mono (fun u hu => Or.inr (Or.inl (mem_word.1 hu))) (plus_subset_kstar hw))
  have hboot : Emits Ev.sent (sendPart fuel p.boot) (fun r => r = 0) (p.units a)∗ :=
    (sendPart_emits_blks fuel p.boot).mono (fun w hw => kstar_mono (fun u hu => Or.inl hu) hw)
  have hswitch : Emits Ev.sent (switchIf fuel a p.switch) (fun r => r = 0) (p.units a)∗ := by
    refine (switchIf_emits fuel a p.switch).mono (fun w hw => ?_)
    unfold switchTrace at hw
    split at hw
    · exact mem_kstar_of_mem (Or.inr (Or.inr (Or.inl (mem_word.1 hw))))
    · rw [show w = [] from hw]
      exact hnil
  have hjobs : Emits Ev.sent (sendJobs fuel p.jobs) (fun r => r = 0) (p.units a)∗ :=
    sendJobs_emits_in (fun u hu => Or.inl hu) fuel p.jobs (fun j hj => ⟨hc j hj, Or.inr (Or.inr (Or.inr ⟨j, hj, rfl⟩))⟩)
  rw [hstar]
  refine hhand.bind (fun r hr => ?_) (fun r hr => ?_) hne
  · rw [if_neg (fun h => h hr), hstar]
    refine hboot.bind (fun r hr => ?_) (fun r hr => ?_) hne
    · rw [if_neg (fun h => h hr), hstar]
      refine Emits.silent_bind (sent_unseen.uartReadUntilMagic_silent fuel) (fun _ => ?_)
        (mul_nonempty ⟨[], hnil⟩ hne)
      refine hswitch.bind (fun r hr => ?_) (fun r hr => ?_) hne
      · rw [if_neg (fun h => h hr)]
        refine hjobs.bind (fun r hr => ?_) (fun r hr => ?_) hreset
        · rw [if_neg (fun h => h hr)]
          exact (ws63PollReset_emits fuel).then_silent (fun _ _ => Silent.pure _) (fun _ h => absurd trivial h)
        · rw [if_pos hr]
          exact Refuses.pure hr
      · rw [if_pos hr]
        exact Refuses.pure hr
    · rw [if_pos hr]
      exact Refuses.pure hr
  · rw [if_pos hr]
    exact Refuses.pure hr

/-- The cells that a DOWNLOADI command names, to erase or to store. -/
def Cmddef.cells (c : Cmddef) : Set Nat :=
  area (leNat (slice (cmdFrame c) 8 4)) (leNat (slice (cmdFrame c) 16 4)) ∪
    area (leNat (slice (cmdFrame c) 8 4)) (leNat (slice (cmdFrame c) 12 4))

/-- Outside `A` the flash is `m`, and a transfer under way stores inside `A`. -/
structure Dev.Inside (A : Set Nat) (m : Nat → UInt8) (s : Dev) : Prop where
  flash : ∀ i, i ∉ A → s.flash i = m i
  cur : ∀ addr len n, s.cur = some (addr, len, n) → area addr len ⊆ A

theorem Dev.Inside.block {A : Set Nat} {m : Nat → UInt8} {s : Dev} (h : s.Inside A m) (u : List UInt8) :
    (s.block u).Inside A m := by
  rw [Dev.block]
  split
  · exact h
  · split
    · exact ⟨h.flash, h.cur⟩
    · rename_i addr len n hcur
      have hin := h.cur addr len n hcur
      split
      · refine ⟨fun i hi => ?_, fun addr' len' n' hc => ?_⟩
        · rw [← h.flash i hi]
          refine store_outside s.flash (fun hmem => hi (hin ?_))
          obtain ⟨hlow, hhigh⟩ := hmem
          rw [List.length_take] at hhigh
          exact ⟨by omega, by omega⟩
        · cases hc
          exact hin
      · exact ⟨h.flash, h.cur⟩

theorem Dev.Inside.frame {A : Set Nat} {m : Nat → UInt8} {s : Dev} (h : s.Inside A m) {c : Cmddef} (hc : c.cells ⊆ A) :
    (s.frame (cmdFrame c)).Inside A m := by
  rw [Dev.frame]
  split
  · refine ⟨fun i hi => ?_, fun addr len n hcur => ?_⟩
    · rw [← h.flash i hi]
      exact fill_outside _ _ (fun hmem => hi (hc (Or.inl hmem)))
    · cases hcur
      exact fun i hi => hc (Or.inr hi)
  · exact h

/-- **No cell that the commands do not name changes**, whatever the streams hold and wherever the run stops. -/
theorem runPlan_spares (d : Device) (l : List Ev) (fuel : Nat) (a : Args) {p : Plan}
    (hdown : ∀ j ∈ p.jobs, ∃ addr len eras, j.cmd = downloadCmd addr len eras) (m : Nat → UInt8) {i : Nat}
    (hi : ∀ j ∈ p.jobs, i ∉ j.cmd.cells) : deviceFlash m (written (runPlan fuel a p d l).2) i = m i := by
  have hwhole : ∀ u ∈ p.units a, Whole devSize u := by
    rintro u (hu | rfl | rfl | ⟨j, hj, rfl⟩)
    · exact whole_dev hu
    · rw [cmdFrame_handshake]
      exact frame_whole _ (by simp)
    · rw [cmdFrame_setbaudr]
      exact frame_whole _ (by simp)
    · obtain ⟨addr, len, eras, hc⟩ := hdown j hj
      rw [hc]
      exact download_whole addr len eras
  have hstep : ∀ u ∈ p.units a, ∀ s : Dev, s.Inside {i}ᶜ m → (devStep s u).Inside {i}ᶜ m := by
    rintro u (hu | rfl | rfl | ⟨j, hj, rfl⟩) s hs
    · rw [devStep_blk hu]
      exact hs.block u
    · rw [cmdFrame_handshake, devStep_frame s (by decide)]
      exact hs
    · rw [cmdFrame_setbaudr, devStep_frame s (by decide)]
      exact hs
    · exact hs.frame (fun k hk hki => hi j hj (hki ▸ hk))
  have hunits := (Keeps.units (R := fun s s' => Dev.Inside {i}ᶜ m s → Dev.Inside {i}ᶜ m s') hwhole (fun _ => id) hstep).kstar
    (fun _ => id) (fun _ _ _ h1 h2 hs => h2 (h1 hs))
  have hT := hunits.torn.mul hunits.effect resets_torn (fun _ _ h => h) (fun s s' s'' h1 h2 hs => by
    rw [h2]
    exact h1 hs)
  have hc : ∀ j ∈ p.jobs, j.cmd.len ≤ 1024 := fun j hj => by
    obtain ⟨addr, len, eras, hcmd⟩ := hdown j hj
    rw [hcmd]
    exact show (14 : Nat) ≤ 1024 by decide
  have hstart : Dev.Inside {i}ᶜ m ⟨m, none, none⟩ := ⟨fun _ _ => rfl, fun _ _ _ hcur => nomatch hcur⟩
  exact (hT _ (runPlan_emits_units fuel a hc d l).2 _ hstart).flash i (fun h => h rfl)

end Ws63Flash
