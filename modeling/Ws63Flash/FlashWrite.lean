import Ws63Flash.CmdFrames
import Ws63Flash.FlashTrace
/-!
# FlashWrite — `--flash` and `--write` of the same records

A package and its records in files of their own give the two verbs the same plan, and so the same run
(`runPlan_extracted`).  Before it, `parse_opt` wants a file after the loaderboot, which the usage text does not: on a
package that has only a loaderboot `--write` is refused (`flash_write_same_iff`).
-/
namespace Ws63Flash

open Octets Proc Language

/-! ## A transfer reads no further than its length -/

theorem xferData_take (fuel len : Nat) (f : List UInt8) : xferData fuel len f = xferData fuel len (f.take len) := by
  rw [xferData_eq, xferData_eq]
  refine loop_sim (fun s t => ∃ i, s.1 = i + 1 ∧ t.1 = i + 1 ∧
    (i < totalBlk len → s.2 = f.drop (1024 * i) ∧ t.2 = (f.take len).drop (1024 * i))) ?_ fuel _ _
    ⟨0, rfl, rfl, fun _ => ⟨rfl, rfl⟩⟩
  rintro ⟨n, s⟩ ⟨m, t⟩ ⟨i, hn, hm, hst⟩ d l
  dsimp only at hn hm hst ⊢
  subst hn hm
  by_cases hi : i + 1 < totalBlk len + 1
  · obtain ⟨rfl, rfl⟩ := hst (by omega)
    rw [if_pos hi, if_pos hi, take_rlen (by omega), take_rlen (by omega), List.take_take, Nat.min_self]
    split
    · exact .done _ _
    · refine Lockstep.bind (fun ret d l => ?_) d l
      split
      · exact .done _ _
      · refine .next _ ⟨i + 1, rfl, rfl, fun hlt => ?_⟩
        rw [if_neg (by omega), List.drop_drop, List.drop_drop, Nat.mul_add_one]
        exact ⟨rfl, rfl⟩
  · rw [if_neg hi, if_neg hi]
    exact .done _ _

theorem ymodemXfer_take (fuel : Nat) (f : List UInt8) (fn : CStr) (len : Nat) :
    ymodemXfer fuel f fn len = ymodemXfer fuel (f.take len) fn len := by
  unfold ymodemXfer
  rw [xferData_take]

/-! ## Plans that transfer the same -/

/-- The same transfer, from streams that may differ beyond its length. -/
def Part.Alike (p q : Part) : Prop :=
  p.name = q.name ∧ p.len = q.len ∧ ∃ f g, p.stream = .ok f ∧ q.stream = .ok g ∧ f.take p.len = g.take p.len

theorem sendPart_alike (fuel : Nat) {p q : Part} (h : p.Alike q) : sendPart fuel p = sendPart fuel q := by
  obtain ⟨hname, hlen, f, g, hp, hq, htake⟩ := h
  unfold sendPart
  rw [hp, hq]
  dsimp only
  rw [ymodemXfer_take, htake, ← ymodemXfer_take, hname, hlen]

/-- The same command, and the same transfer after it. -/
def Job.Alike (j k : Job) : Prop :=
  j.cmd = k.cmd ∧ ∃ p q, j.part = some p ∧ k.part = some q ∧ p.Alike q

theorem sendJob_alike (fuel : Nat) {j k : Job} (h : j.Alike k) : sendJob fuel j = sendJob fuel k := by
  obtain ⟨hcmd, p, q, hp, hq, hpq⟩ := h
  unfold sendJob
  rw [hcmd, hp, hq]
  dsimp only
  rw [sendPart_alike fuel hpq]

theorem sendJobs_alike (fuel : Nat) {js ks : List Job} (h : List.Forall₂ Job.Alike js ks) :
    sendJobs fuel js = sendJobs fuel ks := by
  induction h with
  | nil => rfl
  | cons hjk _ ih => rw [sendJobs, sendJobs, sendJob_alike fuel hjk, ih]

/-- Plans that differ only in what follows the bytes they send. -/
structure Plan.Alike (p q : Plan) : Prop where
  boot : p.boot.Alike q.boot
  switch : p.switch = q.switch
  jobs : List.Forall₂ Job.Alike p.jobs q.jobs

/-- The names on the command line play no part in a plan that is made. -/
theorem runPlan_args (fuel : Nat) (as bs : List CStr) (baud : UInt32) (late : Bool) (p : Plan) :
    runPlan fuel ⟨as, baud, late⟩ p = runPlan fuel ⟨bs, baud, late⟩ p := by
  have hhandshake : handshakeLoop fuel ⟨as, baud, late⟩ = handshakeLoop fuel ⟨bs, baud, late⟩ := rfl
  have hswitch : switchBaud fuel ⟨as, baud, late⟩ = switchBaud fuel ⟨bs, baud, late⟩ := rfl
  unfold runPlan runParts runRest switchIf
  rw [hhandshake, hswitch]

theorem runPlan_alike (fuel : Nat) (a : Args) {p q : Plan} (h : p.Alike q) : runPlan fuel a p = runPlan fuel a q := by
  unfold runPlan runParts runRest
  rw [sendPart_alike fuel h.boot, sendJobs_alike fuel h.jobs, h.switch]

/-! ## A package and its files -/

/-- `path` leads to a file with the name and the bytes of the record `b` of `fw`. -/
structure Extracted (h : Host) (fw : List UInt8) (b : FwpkgBinInfo) (path : CStr) : Prop where
  leads : Leads path b.str.bytes
  noAt : 0x40 ∉ path.bytes
  stat : h.stat path = .ok b.length.toNat
  fopen : h.fopen path = .ok (b.data fw)

/-- `--flash TTY FWPKG`. -/
def flashArgs (tty fwpkg : CStr) (baud : UInt32) (late : Bool) : Args := ⟨[tty, fwpkg], baud, late⟩

/-- The records transferred after the loaderboot when all are. -/
def files (bins : List FwpkgBinInfo) : List FwpkgBinInfo := bins.filter (fun b => b.type2 = 1)

/-- `--write TTY LOADERBOOT BIN@ADDR...`, the records of `bins` being in files of their own. -/
def writeArgs (tty : CStr) (lb : FwpkgBinInfo) (bins : List FwpkgBinInfo) (path : FwpkgBinInfo → CStr) (mark : Bool)
    (baud : UInt32) (late : Bool) : Args :=
  ⟨tty :: path lb :: (files bins).map (fun b => atAddr (path b) mark b.burnAddr.toNat), baud, late⟩

theorem Extracted.writePart_alike {h : Host} {fw : List UInt8} {b : FwpkgBinInfo} {path : CStr}
    (he : Extracted h fw b path) (addr : Nat) :
    (flashPart fw b).Alike (writePart h ⟨basenameCut path, b.length.toNat, addr⟩) := by
  rw [he.leads.basenameCut]
  refine ⟨CStr.ext he.leads.basename.symm, rfl, _, _, rfl, he.fopen, ?_⟩
  show (fw.drop b.offset.toNat).take b.length.toNat = (slice fw b.offset.toNat b.length.toNat).take b.length.toNat
  rw [slice, List.take_take, Nat.min_self]

theorem Extracted.writeJob_alike {h : Host} {fw : List UInt8} {b : FwpkgBinInfo} {path : CStr}
    (he : Extracted h fw b path) :
    (flashJob fw b).Alike (writeJob h ⟨basenameCut path, b.length.toNat, b.burnAddr.toNat⟩) := by
  refine ⟨?_, _, _, rfl, rfl, he.writePart_alike _⟩
  show downloadCmd b.burnAddr b.length _ = downloadCmd (UInt32.ofNat b.burnAddr.toNat) (UInt32.ofNat b.length.toNat) _
  rw [UInt32.ofNat_toNat, UInt32.ofNat_toNat]

theorem mapM_parseWobj {h : Host} {fw : List UInt8} {path : FwpkgBinInfo → CStr} (mark : Bool) (recs : List FwpkgBinInfo)
    (he : ∀ b ∈ recs, Extracted h fw b (path b)) :
    (recs.map (fun b => atAddr (path b) mark b.burnAddr.toNat)).mapM (parseWobj h false)
      = .ok (recs.map (fun b => ⟨path b, b.length.toNat, b.burnAddr.toNat⟩)) := by
  rw [mapM_eq_ok, List.forall₂_map_left_iff, List.forall₂_map_right_iff, List.forall₂_same]
  intro b hmem
  have hb := he b hmem
  exact parseWobj_atAddr false mark hb.noAt hb.stat (Nat.lt_trans b.burnAddr.toNat_lt (by decide))

/-- What the command line of the comparison holds. -/
structure Comparable (h : Host) (fw : List UInt8) (bins : List FwpkgBinInfo) (lb : FwpkgBinInfo)
    (path : FwpkgBinInfo → CStr) : Prop where
  wellFormed : WellFormed fw bins
  loaderboot : bins.filter (fun b => b.type2 = 0) = [lb]
  types : ∀ b ∈ bins, b.type2 = 0 ∨ b.type2 = 1
  extracted : ∀ b ∈ bins, Extracted h fw b (path b)

variable {h : Host} {fw : List UInt8} {header : FwpkgHeader} {bins : List FwpkgBinInfo} {lb : FwpkgBinInfo}
  {path : FwpkgBinInfo → CStr} {tty fwpkg : CStr} {mark late : Bool} {baud : UInt32}

theorem Comparable.mem_loaderboot (hc : Comparable h fw bins lb path) : lb ∈ bins :=
  (List.mem_filter.1 (hc.loaderboot ▸ List.mem_cons_self)).1

theorem mem_files {b : FwpkgBinInfo} (hb : b ∈ files bins) : b ∈ bins := (List.mem_filter.1 hb).1

/-- The table is the loaderboot and the files. -/
theorem Comparable.length (hc : Comparable h fw bins lb path) : bins.length = 1 + (files bins).length := by
  have hsplit := List.length_eq_length_filter_add (l := bins) (fun b => decide (b.type2 = 0))
  have hneg : bins.filter (fun b => !decide (b.type2 = 0)) = files bins := by
    refine List.filter_congr (fun b hb => ?_)
    rcases hc.types b hb with h0 | h1
    · rw [h0]; rfl
    · rw [h1]; rfl
  rw [hc.loaderboot, hneg] at hsplit
  exact hsplit

theorem Comparable.planFlash (hc : Comparable h fw bins lb path) (hopen : h.fopen fwpkg = .ok fw)
    (hacc : Accepted fw header bins) : planFlash h (flashArgs tty fwpkg baud late)
      = .ret (.ok ⟨flashPart fw lb, true, (files bins).map (flashJob fw)⟩) := by
  have hfind : findLoaderboot bins = some lb := by
    rw [findLoaderboot_eq, hc.loaderboot]
    rfl
  have hsel : selected (flashArgs tty fwpkg baud late) bins = files bins := by
    refine List.filter_congr (fun b _ => ?_)
    simp [binInArgs, flashArgs]
  rw [planFlash_accepted rfl hopen hacc, hfind]
  dsimp only
  rw [if_neg (fun hends => hends hc.wellFormed.namesEnd), if_neg (fun ⟨_, harg, _⟩ => nomatch harg), flashPlan, hsel]

theorem Comparable.planWrite (hc : Comparable h fw bins lb path) : planWrite h (writeArgs tty lb bins path mark baud late)
    = .ret (.ok ⟨writePart h ⟨basenameCut (path lb), lb.length.toNat, 0⟩, true, (files bins).map
        (fun b => writeJob h ⟨basenameCut (path b), b.length.toNat, b.burnAddr.toNat⟩)⟩) := by
  have hlb := hc.extracted lb hc.mem_loaderboot
  have hparse : parseWobjs h ((writeArgs tty lb bins path mark baud late).args.drop 1)
      = .ok (⟨path lb, lb.length.toNat, 0⟩ :: (files bins).map
          (fun b => ⟨path b, b.length.toNat, b.burnAddr.toNat⟩)) := by
    show parseWobjs h (path lb :: _) = _
    rw [parseWobjs, parseWobj_bare hlb.noAt hlb.stat,
      mapM_parseWobj mark (files bins) (fun b hb => hc.extracted b (mem_files hb))]
    rfl
  unfold Ws63Flash.planWrite
  rw [hparse]
  simp only [List.map_cons, List.map_map]
  rfl

/-- **The two verbs run alike.** -/
theorem Comparable.verbRun_eq (hc : Comparable h fw bins lb path) (hopen : h.fopen fwpkg = .ok fw)
    (hacc : Accepted fw header bins) (fuel : Nat) :
    verbFlash fuel h (flashArgs tty fwpkg baud late) = verbWrite fuel h (writeArgs tty lb bins path mark baud late) := by
  rw [verbFlash_eq, verbWrite_eq, hc.planFlash hopen hacc, hc.planWrite]
  refine (runPlan_args fuel _ _ _ _ _).trans
    (runPlan_alike fuel _ ⟨(hc.extracted lb hc.mem_loaderboot).writePart_alike 0, rfl, ?_⟩)
  rw [List.forall₂_map_left_iff, List.forall₂_map_right_iff, List.forall₂_same]
  exact fun b hb => (hc.extracted b (mem_files hb)).writeJob_alike

/-! ## The whole program -/

/-- `--flash` and `--write` send the same bytes and return the same value. -/
def SameSession (h : Host) (a b : Args) : Prop :=
  ∀ (d : Device) (fuel : Nat), (main fuel h .flash a d []).1 = (main fuel h .write b d []).1 ∧
    written (main fuel h .flash a d []).2 = written (main fuel h .write b d []).2

theorem parseOpt_write (n : Nat) : parseOpt .write n = true ↔ 3 ≤ n ∧ n ≤ MAX_PARTITION_CNT := by
  unfold parseOpt
  rw [Bool.and_eq_true, List.all_eq_true]
  simp only [argRefused, endRefused, List.mem_range, Bool.not_eq_true', decide_eq_false_iff_not]
  constructor
  · rintro ⟨hall, hend⟩
    refine ⟨by omega, Nat.le_of_not_lt (fun hn => hall MAX_PARTITION_CNT hn (Nat.le_refl _))⟩
  · rintro ⟨hlow, hhigh⟩
    exact ⟨fun i hi => by omega, by omega⟩

theorem Comparable.sameSession (hc : Comparable h fw bins lb path) (hopen : h.fopen fwpkg = .ok fw)
    (hacc : Accepted fw header bins) (hfiles : 2 ≤ bins.length) :
    SameSession h (flashArgs tty fwpkg baud late) (writeArgs tty lb bins path mark baud late) := by
  have hcnt := hacc.cnt_lt
  rw [← hacc.length_bins] at hcnt
  have hlen : (writeArgs tty lb bins path mark baud late).args.length = bins.length + 1 := by
    rw [hc.length]
    simp only [writeArgs, List.length_cons, List.length_map]
    omega
  have hflash : parseOpt .flash (flashArgs tty fwpkg baud late).args.length = true := by
    show parseOpt .flash 2 = true
    decide
  have hwrite : parseOpt .write (writeArgs tty lb bins path mark baud late).args.length = true := by
    rw [hlen, parseOpt_write]
    omega
  have hmain : ∀ fuel, main fuel h .flash (flashArgs tty fwpkg baud late)
      = main fuel h .write (writeArgs tty lb bins path mark baud late) := by
    intro fuel
    unfold main verbRun
    rw [hflash, hwrite]
    dsimp only
    rw [hc.verbRun_eq hopen hacc]
  intro d fuel
  rw [hmain]
  exact ⟨rfl, rfl⟩

/-- On a line that takes what is written, a plan that is run writes something. -/
theorem runPlan_writes {d : Device} (hd : d.Accepts) (a : Args) (p : Plan) (l : List Ev) :
    Sat (runPlan 1035 a p) d l (fun _ e => written e ≠ []) := by
  have hkeep : ∀ e e' : List Ev, written e ≠ [] → written (e ++ e') ≠ [] := fun e e' he => by
    rw [written_append]
    exact List.append_ne_nil_of_left_ne_nil he _
  refine Sat.bind_keep hkeep (Sat.bind_val (time_sat d l) ?_)
  rintro _ _ ⟨rfl, rfl⟩
  have hsend := ws63SendCmddef_accepts hd (c := handshakeCmd a) (by rw [handshakeCmd_len]; decide)
    (show 1034 < 1035 by decide) (l ++ [.time (d.time l)])
  refine (Sat.bind_keep hkeep (Sat.bind_keep hkeep (hsend.mono ?_))).mono (fun o e he => ?_)
  · rintro o e ⟨_, hw, _⟩
    rw [hw]
    exact List.cons_ne_nil _ _
  · rw [written_append]
    exact List.append_ne_nil_of_right_ne_nil _ he

/-- Without a file after the loaderboot `--write` is refused, and `--flash` is not. -/
theorem Comparable.not_sameSession (hc : Comparable h fw bins lb path) (hopen : h.fopen fwpkg = .ok fw)
    (hacc : Accepted fw header bins) (hfiles : bins.length < 2) :
    ¬ SameSession h (flashArgs tty fwpkg baud late) (writeArgs tty lb bins path mark baud late) := by
  intro hsame
  have hnil : files bins = [] := List.length_eq_zero_iff.1 (by have := hc.length; omega)
  have hwrite : main 1035 h .write (writeArgs tty lb bins path mark baud late) = pure EX_USAGE := by
    unfold main writeArgs
    rw [hnil]
    rfl
  obtain ⟨hret, hwritten⟩ := hsame (scriptDevice []) 1035
  have hparse : parseOpt .flash (flashArgs tty fwpkg baud late).args.length = true := by
    show parseOpt .flash 2 = true
    decide
  rw [hwrite] at hret hwritten
  unfold main at hret hwritten
  rw [if_neg (fun hn => hn hparse)] at hret hwritten
  cases htty : h.tty with
  | false =>
    rw [htty, if_pos (by decide)] at hret
    exact absurd (Out.ret.inj hret) (by decide)
  | true =>
    rw [htty, if_neg (by decide), verbRun, verbFlash_eq, hc.planFlash hopen hacc] at hwritten
    have hopened : Sat (uartOpen 115200) (scriptDevice []) [] (fun o e => ∃ u, o = .ret u ∧ e = [.uartOpen 115200]) :=
      ⟨(), rfl, rfl⟩
    refine Sat.bind_val (R := fun _ e => written e ≠ []) hopened ?_ hwritten
    rintro _ _ rfl
    have hplan := runPlan_writes (scriptDevice_accepts []) (flashArgs tty fwpkg baud late)
      ⟨flashPart fw lb, true, (files bins).map (flashJob fw)⟩ ([] ++ [.uartOpen 115200])
    refine Sat.bind_keep (P := fun e => written ([.uartOpen 115200] ++ e) ≠ []) (fun e e' he => ?_) hplan
    rw [← List.append_assoc, written_append]
    exact List.append_ne_nil_of_left_ne_nil he _

/-- **When the two command lines are one session**: whenever the package has a file beside its loaderboot. -/
theorem flash_write_same_iff (hc : Comparable h fw bins lb path) (hopen : h.fopen fwpkg = .ok fw)
    (hacc : Accepted fw header bins) (tty : CStr) (mark late : Bool) (baud : UInt32) :
    SameSession h (flashArgs tty fwpkg baud late) (writeArgs tty lb bins path mark baud late)
      ↔ ∃ b ∈ bins, b.type2 = 1 := by
  have hfiles : (∃ b ∈ bins, b.type2 = 1) ↔ 2 ≤ bins.length := by
    rw [hc.length]
    constructor
    · rintro ⟨b, hb, h1⟩
      have hmem : b ∈ files bins := List.mem_filter.2 ⟨hb, by simpa using h1⟩
      have := List.length_pos_of_mem hmem
      omega
    · intro hlen
      obtain ⟨b, hb⟩ := List.exists_mem_of_length_pos (show 0 < (files bins).length by omega)
      exact ⟨b, mem_files hb, by simpa using (List.mem_filter.1 hb).2⟩
  rw [hfiles]
  constructor
  · intro hsame
    by_cases hlen : 2 ≤ bins.length
    · exact hlen
    · exact absurd hsame (hc.not_sameSession hopen hacc (by omega))
  · exact hc.sameSession hopen hacc

def sampleTable : List (CStr × List UInt8) :=
  [(fileP, samplePkg), (fileA, [0x41]), (fileB, [0x42])]

theorem sample_extracted (b : FwpkgBinInfo) (hb : b ∈ sampleBins) :
    Extracted (hostWith sampleTable) samplePkg b b.str := by
  have hall : ∀ b ∈ sampleBins, 0x2f ∉ b.str.bytes ∧ b.str.bytes ≠ [] ∧ 0x40 ∉ b.str.bytes ∧
      (hostWith sampleTable).stat b.str = .ok b.length.toNat ∧
      (hostWith sampleTable).fopen b.str = .ok (b.data samplePkg) := by
    intro b hb
    rw [sampleBins, List.mem_cons, List.mem_singleton] at hb
    rcases hb with rfl | rfl
    · refine ⟨by decide, by decide, by decide, rfl, by decide +kernel⟩
    · refine ⟨by decide, by decide, by decide, rfl, by decide +kernel⟩
  obtain ⟨hslash, hne, hat, hstat, hopen⟩ := hall b hb
  exact ⟨⟨⟨[], rfl, Or.inl rfl⟩, hslash, hne⟩, hat, hstat, hopen⟩

theorem flash_write_same_sample : SameSession (hostWith sampleTable)
    (flashArgs ttyT fileP 921600 false)
    (writeArgs ttyT (sampleBin 0x61 116 0 0) sampleBins FwpkgBinInfo.str true 921600 false) :=
  (flash_write_same_iff ⟨samplePkg_wellFormed, by decide, by decide, sample_extracted⟩ rfl samplePkg_accepted _ _ _
    _).2 ⟨sampleBin 0x62 117 0x230000 1, by decide, rfl⟩

/-- **A package that holds only a loaderboot** is flashed by `--flash`, and refused by `--write`. -/
theorem flash_write_differ : ¬ SameSession (hostWith loneTable)
    (flashArgs ttyT fileP 115200 false)
    (writeArgs ttyT (sampleBin 0x61 64 0 0) loneBins FwpkgBinInfo.str true 115200 false) := by
  have hext : ∀ b ∈ loneBins, Extracted (hostWith loneTable) lonePkg b b.str := by
    intro b hb
    rw [loneBins, List.mem_singleton] at hb
    subst hb
    exact ⟨⟨⟨[], rfl, Or.inl rfl⟩, by decide, by decide⟩, by decide, rfl, by decide +kernel⟩
  have hc : Comparable (hostWith loneTable) lonePkg loneBins (sampleBin 0x61 64 0 0) FwpkgBinInfo.str :=
    ⟨⟨by decide +kernel, by decide +kernel⟩, by decide, by decide, hext⟩
  exact hc.not_sameSession rfl lonePkg_accepted (by decide)

end Ws63Flash
