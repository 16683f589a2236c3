import Ws63Flash.PlanTrace
/-!
# FlashTrace — what `--flash` sends

The bytes of every run of `verb_flash` on an accepted package, in terms of the package: which frames, with which
fields, and which session after which (`verbFlash_trace`).
-/
namespace Ws63Flash

open Octets Proc Language
open scoped Computability

/-! ## Frames and their fields -/

/-- A command frame, as `ws63defs.h` draws it. -/
def frame (cmd : UInt8) (payload : List UInt8) : List UInt8 :=
  let head := [0xef, 0xbe, 0xad, 0xde] ++ le16 (UInt16.ofNat (payload.length + 10)) ++ [cmd, swapCmd cmd] ++ payload
  head ++ le16 (crc16Xmodem head)

theorem cmdFrame_eq {c : Cmddef} {payload : List UInt8} (hl : c.len ≤ 1024) (hp : c.dat.take c.len = payload) :
    cmdFrame c = frame c.cmd payload := by
  have hmgc : le32 0xdeadbeef = [0xef, 0xbe, 0xad, 0xde] := by decide
  have hlen : payload.length = c.len := by rw [← hp, List.length_take, c.dat_length]; omega
  rw [cmdFrame, frameHead, hp, hmgc, ← hlen]
  rfl

/-- `*((uint32_t *) (dat + i)) = x` replaces the word at `i`. -/
theorem setDat_word {c : Cmddef} (a b rest : List UInt8) (i : Nat) (x : UInt32) (h : i + 4 ≤ 1024)
    (hdat : c.dat = a ++ b ++ rest) (ha : a.length = i) (hb : b.length = 4) :
    (c.setDat i x h).dat = a ++ le32 x ++ rest := by
  show setRange c.dat i (le32 x) = _
  rw [hdat]
  exact setRange_append rest ha (by rw [le32_length, hb])

/-- The speed a handshake asks for. -/
def Args.handshakeBaud (a : Args) : UInt32 := if a.lateBaud then 115200 else a.baud

theorem cmdFrame_handshake (a : Args) :
    cmdFrame (handshakeCmd a) = frame 0xf0 (le32 a.handshakeBaud ++ [0x08, 0x01, 0x00, 0x00]) := by
  have hspeed : le32 115200 = [0x00, 0xc2, 0x01, 0x00] := by decide
  have hcmd : (handshakeCmd a).cmd = 0xf0 := by unfold handshakeCmd; split <;> rfl
  rw [← hcmd]
  apply cmdFrame_eq (by rw [handshakeCmd_len]; decide)
  rw [handshakeCmd_len]
  unfold handshakeCmd Args.handshakeBaud
  split
  · rename_i he
    rw [setDat_word [] [0x00, 0xc2, 0x01, 0x00] ([0x08, 0x01, 0x00, 0x00] ++ List.replicate 1016 0) 0 _ _ rfl rfl rfl,
      if_neg (by rw [he.1]; decide), List.nil_append, ← List.append_assoc]
    exact List.take_left' (by simp)
  · rename_i he
    have hb : (if a.lateBaud = true then 115200 else a.baud) = 115200 := by
      by_cases hl : a.lateBaud = true
      · rw [if_pos hl]
      · rw [if_neg hl]
        by_cases hb : a.baud = 115200
        · exact hb
        · exact absurd ⟨by simpa using hl, hb⟩ he
    rw [hb, hspeed]
    rfl

theorem cmdFrame_setbaudr (a : Args) : cmdFrame (baudCmd a) = frame 0x5a (le32 a.baud ++ [0x08, 0x01, 0x00, 0x00]) := by
  apply cmdFrame_eq (c := baudCmd a) (show (8 : Nat) ≤ 1024 by decide)
  show List.take 8 _ = _
  rw [baudCmd, setDat_word [] [0x00, 0x10, 0x0e, 0x00] ([0x08, 0x01, 0x00, 0x00] ++ List.replicate 1016 0) 0 _ _ rfl rfl
    rfl, List.nil_append, ← List.append_assoc]
  exact List.take_left' (by simp)

theorem cmdFrame_download (addr len eras : UInt32) :
    cmdFrame (downloadCmd addr len eras) = frame 0xd2 (le32 addr ++ le32 len ++ le32 eras ++ [0x00, 0xff]) := by
  apply cmdFrame_eq (c := downloadCmd addr len eras) (show (14 : Nat) ≤ 1024 by decide)
  have h0 := setDat_word (c := WS63E_FLASHINFO .downloadi) [] [0, 0, 0, 0]
    ([0, 0, 0, 0] ++ [0xff, 0xff, 0xff, 0xff] ++ [0x00, 0xff] ++ List.replicate 1010 0) 0 addr (by decide) rfl rfl rfl
  have h4 := setDat_word (le32 addr) [0, 0, 0, 0] ([0xff, 0xff, 0xff, 0xff] ++ [0x00, 0xff] ++ List.replicate 1010 0)
    4 len (by decide) (h0.trans (by simp only [List.nil_append, List.append_assoc])) (le32_length _) rfl
  have h8 := setDat_word (le32 addr ++ le32 len) [0xff, 0xff, 0xff, 0xff] ([0x00, 0xff] ++ List.replicate 1010 0) 8 eras
    (by decide) (h4.trans (by simp only [List.append_assoc])) (by simp) rfl
  show List.take 14 _ = _
  rw [downloadCmd, h8, ← List.append_assoc]
  exact List.take_left' (by simp)

theorem cmdFrame_rst : cmdFrame (WS63E_FLASHINFO .rst) = frame 0x87 [0x00, 0x00] :=
  cmdFrame_eq (show (2 : Nat) ≤ 1024 by decide) rfl

/-! ## The package in the bytes sent -/

/-- The records' data lie inside the file and their names end in their fields. -/
structure WellFormed (fw : List UInt8) (bins : List FwpkgBinInfo) : Prop where
  inside : ∀ b ∈ bins, b.offset.toNat + b.length.toNat ≤ fw.length
  named : ∀ b ∈ bins, 0 ∈ b.name

/-- The command for a record and the session after it. -/
def recordTrace (fw : List UInt8) (b : FwpkgBinInfo) : Language UInt8 :=
  word (frame 0xd2 (le32 b.burnAddr ++ le32 b.length ++ le32 (erasSize b.length.toNat) ++ [0x00, 0xff])) *
    session b.str (b.data fw)

/-- What `--flash` sends for the loaderboot `lb` and the records `recs`. -/
def flashTrace (a : Args) (fw : List UInt8) (lb : FwpkgBinInfo) (recs : List FwpkgBinInfo) : Language UInt8 :=
  plus (word (frame 0xf0 (le32 a.handshakeBaud ++ [0x08, 0x01, 0x00, 0x00]))) *
    (session lb.str (lb.data fw) *
      ((if a.lateBaud = true ∧ a.baud ≠ 115200 then word (frame 0x5a (le32 a.baud ++ [0x08, 0x01, 0x00, 0x00])) else 1) *
        ((recs.map (recordTrace fw)).prod *
          ((word (frame 0x87 [0x00, 0x00]))∗ * prefixes (word (frame 0x87 [0x00, 0x00]))))))

theorem findLoaderboot_snoc (bins : List FwpkgBinInfo) (b : FwpkgBinInfo) :
    findLoaderboot (bins ++ [b]) = if b.type2 = 0 then some b else findLoaderboot bins := by
  rw [findLoaderboot, List.foldl_append]
  rfl

theorem findLoaderboot_eq (bins : List FwpkgBinInfo) :
    findLoaderboot bins = (bins.filter (fun b => b.type2 = 0)).getLast? := by
  induction bins using List.reverseRecOn with
  | nil => rfl
  | append_singleton bins b ih =>
    rw [findLoaderboot_snoc, List.filter_append]
    by_cases hb : b.type2 = 0
    · rw [if_pos hb, List.filter_cons, if_pos (decide_eq_true hb)]
      simp
    · rw [if_neg hb, List.filter_cons, if_neg (by simp [hb]), ih]
      simp

theorem mem_of_findLoaderboot {bins : List FwpkgBinInfo} {lb : FwpkgBinInfo} (h : findLoaderboot bins = some lb) :
    lb ∈ bins := by
  rw [findLoaderboot_eq] at h
  exact (List.mem_filter.1 (List.mem_of_getLast? h)).1

theorem type2_of_findLoaderboot {bins : List FwpkgBinInfo} {lb : FwpkgBinInfo} (h : findLoaderboot bins = some lb) :
    lb.type2 = 0 := by
  rw [findLoaderboot_eq] at h
  exact of_decide_eq_true (List.mem_filter.1 (List.mem_of_getLast? h)).2

theorem findLoaderboot_isSome {bins : List FwpkgBinInfo} :
    (∃ lb, findLoaderboot bins = some lb) ↔ ∃ bin ∈ bins, bin.type2 = 0 := by
  constructor
  · rintro ⟨lb, hlb⟩
    exact ⟨lb, mem_of_findLoaderboot hlb, type2_of_findLoaderboot hlb⟩
  · rintro ⟨bin, hmem, htype⟩
    rw [findLoaderboot_eq]
    have hne : bins.filter (fun b => b.type2 = 0) ≠ [] :=
      List.ne_nil_of_mem (List.mem_filter.2 ⟨hmem, decide_eq_true htype⟩)
    exact ⟨_, List.getLast?_eq_some_getLast hne⟩

theorem WellFormed.namesEnd {fw : List UInt8} {bins : List FwpkgBinInfo} (hw : WellFormed fw bins) : NamesEnd bins :=
  namesEnd_of_nul (fun b hb => nul_of_named (hw.named b hb))

theorem flashPart_fits {fw : List UInt8} {bins : List FwpkgBinInfo} (hw : WellFormed fw bins) {b : FwpkgBinInfo}
    (hb : b ∈ bins) : (flashPart fw b).Fits := by
  refine ⟨_, rfl, ?_⟩
  have := hw.inside b hb
  show b.length.toNat ≤ (fw.drop b.offset.toNat).length
  rw [List.length_drop]
  omega

theorem selected_subset {a : Args} {bins : List FwpkgBinInfo} {b : FwpkgBinInfo} (hb : b ∈ selected a bins) : b ∈ bins :=
  (List.mem_filter.1 hb).1

theorem flashPlan_fits {a : Args} {fw : List UInt8} {bins : List FwpkgBinInfo} {lb : FwpkgBinInfo}
    (hw : WellFormed fw bins) (hlb : lb ∈ bins) : (flashPlan a fw bins lb).Fits where
  boot := flashPart_fits hw hlb
  jobs := fun j hj => by
    obtain ⟨b, hb, rfl⟩ := List.mem_map.1 hj
    refine ⟨show (14 : Nat) ≤ 1024 by decide, fun p hp => ?_⟩
    rw [← Option.some.inj hp]
    exact flashPart_fits hw (selected_subset hb)

theorem jobsTrace_flash (fw : List UInt8) (recs : List FwpkgBinInfo) :
    jobsTrace (recs.map (flashJob fw)) = (recs.map (recordTrace fw)).prod := by
  have hrecord : Job.trace ∘ flashJob fw = recordTrace fw := by
    funext b
    show word (cmdFrame (downloadCmd b.burnAddr b.length (erasSize b.length.toNat))) * _ = _
    rw [cmdFrame_download]
    rfl
  rw [jobsTrace, List.map_map, hrecord]

theorem flashPlan_trace (a : Args) (fw : List UInt8) (bins : List FwpkgBinInfo) (lb : FwpkgBinInfo) :
    (flashPlan a fw bins lb).trace a = flashTrace a fw lb (selected a bins) := by
  have hswitch : switchTrace a true = if a.lateBaud = true ∧ a.baud ≠ 115200 then
      word (frame 0x5a (le32 a.baud ++ [0x08, 0x01, 0x00, 0x00])) else 1 := by
    unfold switchTrace Args.laterBaud
    rw [cmdFrame_setbaudr]
    simp only [true_and]
  show plus (word (cmdFrame (handshakeCmd a))) *
    (_ * (switchTrace a true * (jobsTrace ((selected a bins).map (flashJob fw)) * resets))) = _
  rw [cmdFrame_handshake, hswitch, jobsTrace_flash, resets, cmdFrame_rst]
  rfl

theorem planFlash_accepted {h : Host} {a : Args} {path : CStr} {fw : List UInt8} {header : FwpkgHeader}
    {bins : List FwpkgBinInfo} (hpath : a.args[1]? = some path) (hopen : h.fopen path = .ok fw)
    (hacc : Accepted fw header bins) :
    planFlash h a = match findLoaderboot bins with
      | none    => .ret (.error EXIT_FAILURE)
      | some lb =>
        if ¬ NamesEnd bins then .stop .undefined
        else if ∃ arg ∈ a.args.drop 2, arg ∉ tableNames bins then .ret (.error EXIT_FAILURE)
        else .ret (.ok (flashPlan a fw bins lb)) := by
  unfold planFlash
  cases hlb : findLoaderboot bins <;> simp only [hpath, hopen, hacc.head, hacc.infos, hlb]

/-- **Where `verb_flash` reads past the table**: it prints the plan, and a name does not end. -/
theorem planFlash_undefined_iff {h : Host} {a : Args} {path : CStr} {fw : List UInt8} {header : FwpkgHeader}
    {bins : List FwpkgBinInfo} (hpath : a.args[1]? = some path) (hopen : h.fopen path = .ok fw)
    (hacc : Accepted fw header bins) :
    planFlash h a = .stop .undefined ↔ (∃ bin ∈ bins, bin.type2 = 0) ∧ ¬ NamesEnd bins := by
  rw [planFlash_accepted hpath hopen hacc, ← findLoaderboot_isSome]
  cases findLoaderboot bins with
  | none    => simp
  | some lb =>
    dsimp only
    by_cases hends : NamesEnd bins
    · rw [if_neg (fun h => h hends)]
      split <;> simp [hends]
    · simp [hends]

/-- A record's name and length fit block 0. -/
theorem fitsBlk0_str {b : FwpkgBinInfo} (hb : 0 ∈ b.name) : FitsBlk0 b.str b.length.toNat := by
  have hstr : b.str.strlen < 32 := by
    rw [str_of_named hb, ← b.name_length]
    exact CStr.strlen_ofField_lt.2 hb
  have hlen : (hexText b.length.toNat).length ≤ 8 :=
    hexText_length (by decide) (Nat.lt_of_lt_of_eq b.length.toNat_lt (by decide))
  unfold FitsBlk0 lenText
  rw [List.length_append]
  simp only [List.length_cons, List.length_nil]
  omega

/-! ## A package of two records -/

/-- A record of one byte with a one-letter name. -/
def sampleBin (c : UInt8) (off addr type2 : UInt32) : FwpkgBinInfo where
  name := padTo 32 [c]
  offset := off
  length := 1
  burnAddr := addr
  burnSize := 0x1000
  type2 := type2
  name_length := padTo_length (show 1 ≤ 32 by decide)

def sampleBins : List FwpkgBinInfo := [sampleBin 0x61 116 0 0, sampleBin 0x62 117 0x230000 1]

def sampleHeader : FwpkgHeader := ⟨0xefbeaddf, 0xd314, 2, 118⟩

/-- A loaderboot `a` and a record `b`, of one byte each. -/
def samplePkg : List UInt8 :=
  sampleHeader.bytes ++ sampleBins.flatMap FwpkgBinInfo.bytes ++ [0x41, 0x42]

/-- Every path leads to the file `f`. -/
def hostOf (f : List UInt8) : Host where
  tty := true
  fopen := fun _ => .ok f
  stat := fun _ => .ok f.length
  tmpfile := true
  loaderboot := []
  sha256 := fun _ => List.replicate 32 0
  sha256_length := fun _ => List.length_replicate

/-- The files of `table`, by their paths. -/
def hostWith (table : List (CStr × List UInt8)) : Host :=
  { hostOf [] with
    fopen := fun path => match table.lookup path with
      | some f => .ok f
      | none   => .error ⟨2, by decide⟩
    stat := fun path => match table.lookup path with
      | some f => .ok f.length
      | none   => .error ⟨2, by decide⟩ }

def letter (c : UInt8) (h : 0 ≠ c) : CStr := ⟨[c], by simpa using h⟩

def fileA : CStr := letter 0x61 (by decide)

def fileB : CStr := letter 0x62 (by decide)

def fileC : CStr := letter 0x63 (by decide)

def fileP : CStr := letter 0x70 (by decide)

def ttyT : CStr := letter 0x74 (by decide)

/-- `--flash` on a terminal and a package, without names, at 115200 baud. -/
def plainArgs : Args := ⟨[⟨[0x74], by decide⟩, ⟨[0x70], by decide⟩], 115200, false⟩

theorem samplePkg_accepted : Accepted samplePkg sampleHeader sampleBins := ⟨by decide +kernel, by decide +kernel⟩

def loneBins : List FwpkgBinInfo := [sampleBin 0x61 64 0 0]

def loneHeader : FwpkgHeader := ⟨0xefbeaddf, 0x5602, 1, 65⟩

/-- A package that holds only a loaderboot. -/
def lonePkg : List UInt8 := loneHeader.bytes ++ loneBins.flatMap FwpkgBinInfo.bytes ++ [0x41]

/-- The package, and its loaderboot as a file. -/
def loneTable : List (CStr × List UInt8) := [(fileP, lonePkg), (fileA, [0x41])]

theorem lonePkg_accepted : Accepted lonePkg loneHeader loneBins := ⟨by decide +kernel, by decide +kernel⟩

theorem samplePkg_wellFormed : WellFormed samplePkg sampleBins := ⟨by decide +kernel, by decide +kernel⟩

theorem verbFlash_sample : (verbFlash 2 (hostOf samplePkg) plainArgs ackDevice []).1 = .ret 0 := by decide +kernel

/-! ## The trace -/

/-- **What `--flash` sends**, in every run on an accepted package: all of it when it returns 0, and otherwise a prefix;
and each session in it carries its record's bytes. -/
theorem verbFlash_trace (d : Device) (l : List Ev) (fuel : Nat) {h : Host} {a : Args} {path : CStr} {fw : List UInt8}
    {header : FwpkgHeader} {bins : List FwpkgBinInfo} (hpath : a.args[1]? = some path) (hopen : h.fopen path = .ok fw)
    (hacc : Accepted fw header bins) (hw : WellFormed fw bins) :
    let run := verbFlash fuel h a d l
    let recs := bins.filter (fun b => b.type2 = 1 ∧ (a.args.drop 2 = [] ∨ b.str ∈ a.args.drop 2))
    let isLast := fun lb => (bins.filter (fun b => b.type2 = 0)).getLast? = some lb
    (run.1 = .ret 0 → ∃ lb, isLast lb ∧ written run.2 ∈ flashTrace a fw lb recs) ∧
    (run.1 ≠ .ret 0 → written run.2 = [] ∨ ∃ lb, isLast lb ∧ written run.2 ∈ prefixes (flashTrace a fw lb recs)) ∧
    (∀ b ∈ bins, ∀ w ∈ session b.str (b.data fw), readSession b.length.toNat w = b.data fw) := by
  have hnamed : ¬ ¬ NamesEnd bins := fun hn => hn hw.namesEnd
  have hrecs : bins.filter (fun b => b.type2 = 1 ∧ (a.args.drop 2 = [] ∨ b.str ∈ a.args.drop 2)) = selected a bins := by
    unfold selected binInArgs
    simp only [decide_eq_true_eq]
  have hcarries : ∀ b ∈ bins, ∀ w ∈ session b.str (b.data fw), readSession b.length.toNat w = b.data fw := by
    intro b hb w hmem
    have hlen : (b.data fw).length = b.length.toNat := slice_length (hw.inside b hb)
    have hread := readSession_repeated (by rw [hlen]; exact fitsBlk0_str (hw.named b hb))
      (by rw [hlen]; exact toNat_le_xferMax b.length) hmem
    rwa [hlen] at hread
  dsimp only
  rw [hrecs, verbFlash_eq, planFlash_accepted hpath hopen hacc, ← findLoaderboot_eq]
  refine ⟨?_, ?_, hcarries⟩
  · cases hlb : findLoaderboot bins with
    | none => exact fun hret => absurd (Out.ret.inj hret) (by decide)
    | some lb =>
      dsimp only
      rw [if_neg hnamed]
      split
      · exact fun hret => absurd (Out.ret.inj hret) (by decide)
      · intro hret
        refine ⟨lb, rfl, ?_⟩
        have hemits := (runPlan_emits fuel a (flashPlan_fits (a := a) hw (mem_of_findLoaderboot hlb)) d l).1 0 hret rfl
        rwa [flashPlan_trace] at hemits
  · cases hlb : findLoaderboot bins with
    | none => exact fun _ => Or.inl rfl
    | some lb =>
      dsimp only
      rw [if_neg hnamed]
      split
      · exact fun _ => Or.inl rfl
      · intro _
        refine Or.inr ⟨lb, rfl, ?_⟩
        have hemits := (runPlan_emits fuel a (flashPlan_fits (a := a) hw (mem_of_findLoaderboot hlb)) d l).2
        rwa [flashPlan_trace] at hemits

theorem verbFlash_trace_sample : ∃ lb, (sampleBins.filter (fun b => b.type2 = 0)).getLast? = some lb ∧
    written (verbFlash 2 (hostOf samplePkg) plainArgs ackDevice []).2 ∈ flashTrace plainArgs samplePkg lb
      (sampleBins.filter (fun b => b.type2 = 1 ∧ (plainArgs.args.drop 2 = [] ∨ b.str ∈ plainArgs.args.drop 2))) :=
  (verbFlash_trace ackDevice [] 2 (h := hostOf samplePkg) (a := plainArgs) rfl rfl samplePkg_accepted
    samplePkg_wellFormed).1 verbFlash_sample

end Ws63Flash
