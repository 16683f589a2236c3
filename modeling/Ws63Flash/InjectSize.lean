import Ws63Flash.InjectRecords
/-!
# InjectSize — how much `--inject` writes

The size of the output is known before the run: the header and the table, the bytes of the padding loop, what is copied
of the package, and the files.  Nothing stores it into the length field of the header, which is copied from the package
as it is (`verbInject_len_iff`).
-/
namespace Ws63Flash

open Octets Proc Language

/-! ## When `--inject` succeeds -/

theorem returns_check {m k : FileProc Int} {P : Prop} (hk : Returns k (fun r => r = 0 → P)) :
    Returns (do let ret ← m; if ret ≠ 0 then return 1 else k) (fun r => r = 0 → P) := by
  refine (Returns.any m).bind (fun r _ => ?_)
  split
  · exact Returns.pure (fun h => absurd h (by decide))
  · exact hk

theorem returns_undefined {P : Int → Prop} : Returns (Proc.halt .undefined : FileProc Int) P :=
  fun _ _ => Sat.halt (fun _ ha => by cases ha)

theorem copyFiles_returns (fuel : Nat) (h : Host) : ∀ ws : List Wobj,
    Returns (copyFiles fuel h ws) (fun r => r = 0 → Opened h ws)
  | []      => Returns.pure (fun _ w hw => absurd hw List.not_mem_nil)
  | w :: ws => by
    rw [copyFiles]
    cases hw : h.fopen w.name with
    | error e => exact returns_undefined
    | ok f    =>
      refine returns_check ((copyFiles_returns fuel h ws).mono (fun r hr h0 => opened_cons.2 ⟨?_, hr h0⟩))
      rw [hw]
      rfl

theorem writeInjected_returns (fuel : Nat) (h : Host) (infw : List UInt8) (bins : List FwpkgBinInfo) (wobjs : List Wobj)
    (buf : InjectBuf) : Returns (writeInjected fuel h infw bins wobjs buf) (fun r => r = 0 → bins ≠ [] ∧ Opened h wobjs) := by
  refine returns_check (returns_check (returns_check ?_))
  cases bins with
  | nil           => exact returns_undefined
  | cons bin bins =>
    exact returns_check ((copyFiles_returns fuel h wobjs).mono (fun r hr h0 => ⟨List.cons_ne_nil _ _, hr h0⟩))

/-- Inputs for which `--inject` stays within its objects, and so can succeed: a package with a first record, room for the
records, and files that can be opened. -/
structure Injectable (h : Host) (args : List CStr) (wobjs : List Wobj) (infw : List UInt8) (header : FwpkgHeader)
    (bins : List FwpkgBinInfo) : Prop extends Injects h args wobjs infw header bins where
  first : bins ≠ []
  room : bins.length + wobjs.length ≤ MAX_PARTITION_CNT
  files : Opened h (cutNames wobjs)

section

variable {h : Host} {args : List CStr} {path : CStr} {wobjs : List Wobj} {infw : List UInt8} {header : FwpkgHeader}
  {bins : List FwpkgBinInfo}

/-- **A run that returns 0** had such inputs. -/
theorem verbInject_injectable (hpath : args[0]? = some path) (hopen : h.fopen path = .ok infw)
    (hacc : Accepted infw header bins) {io : FileIo} {stack : StackRecs} {fuel : Nat}
    (hret : (verbInject fuel h stack args io []).1 = .ret 0) : ∃ wobjs, Injectable h args wobjs infw header bins := by
  cases hparse : (args.drop 1).mapM (parseWobj h false) with
  | error r =>
    rw [verbInject_refused hparse] at hret
    exact absurd (Out.ret.inj hret) (mapM_parseWobj_error hparse)
  | ok wobjs =>
    have hi : Injects h args wobjs infw header bins := ⟨hparse, ⟨path, hpath, hopen⟩, hacc⟩
    by_cases hroom : bins.length + wobjs.length ≤ MAX_PARTITION_CNT
    · obtain ⟨buf, _, hrun⟩ := hi.run_eq hroom stack
      rw [hrun] at hret
      obtain ⟨hfirst, hfiles⟩ := writeInjected_returns fuel h infw bins (cutNames wobjs) buf io [] 0 hret rfl
      exact ⟨wobjs, hi, hfirst, hroom, hfiles⟩
    · rw [hi.run_overflow (Nat.lt_of_not_le hroom)] at hret
      cases hret

/-- And with such inputs a run in which no call fails returns 0. -/
theorem Injectable.succeeds (hi : Injectable h args wobjs infw header bins) (stack : StackRecs) :
    ∃ fuel, (verbInject fuel h stack args goodIo []).1 = .ret 0 := by
  obtain ⟨fuel, hgood⟩ := hi.good hi.room stack
  exact ⟨fuel, hgood.trans (if_pos ⟨hi.first, hi.files⟩)⟩

/-- **When `verb_inject` stays within its objects**: when its arguments are refused, or its inputs are such. -/
theorem verbInject_defined_iff (hpath : args[0]? = some path) (hopen : h.fopen path = .ok infw)
    (hacc : Accepted infw header bins) (stack : StackRecs) :
    (∀ io fuel, (verbInject fuel h stack args io []).1 ≠ .stop .undefined) ↔
      ∀ wobjs, (args.drop 1).mapM (parseWobj h false) = .ok wobjs → Injectable h args wobjs infw header bins := by
  constructor
  · intro hdef wobjs hparse
    have hi : Injects h args wobjs infw header bins := ⟨hparse, ⟨path, hpath, hopen⟩, hacc⟩
    by_cases hroom : bins.length + wobjs.length ≤ MAX_PARTITION_CNT
    · obtain ⟨fuel, hgood⟩ := hi.good hroom stack
      by_cases hok : bins ≠ [] ∧ Opened h (cutNames wobjs)
      · exact ⟨hi, hok.1, hroom, hok.2⟩
      · exact absurd (hgood.trans (if_neg hok)) (hdef goodIo fuel)
    · refine absurd ?_ (hdef goodIo 0)
      rw [hi.run_overflow (Nat.lt_of_not_le hroom)]
      rfl
  · intro hcond io fuel
    cases hparse : (args.drop 1).mapM (parseWobj h false) with
    | error r  =>
      rw [verbInject_refused hparse]
      intro hstop
      cases hstop
    | ok wobjs =>
      have hi := hcond wobjs hparse
      obtain ⟨buf, _, hrun⟩ := hi.run_eq hi.room stack
      rw [hrun]
      exact writeInjected_never fuel infw buf hi.first hi.files io []

/-- **What every run shows**: when each run that returns 0 on such inputs has the property `good` exactly under the condition
`cond`, all runs stay within their objects and have it exactly when the inputs are such and meet the condition. -/
theorem verbInject_everyRun_iff (hpath : args[0]? = some path) (hopen : h.fopen path = .ok infw)
    (hacc : Accepted infw header bins) {good : FileIo → StackRecs → Nat → Prop} {cond : List Wobj → Prop}
    (hgood : ∀ wobjs, Injectable h args wobjs infw header bins → ∀ io stack fuel,
      (verbInject fuel h stack args io []).1 = .ret 0 → (good io stack fuel ↔ cond wobjs)) :
    (∀ io stack fuel, (verbInject fuel h stack args io []).1 ≠ .stop .undefined ∧
        ((verbInject fuel h stack args io []).1 = .ret 0 → good io stack fuel)) ↔
      ∀ wobjs, (args.drop 1).mapM (parseWobj h false) = .ok wobjs →
        Injectable h args wobjs infw header bins ∧ cond wobjs := by
  have hdefined := @verbInject_defined_iff h args path infw header bins hpath hopen hacc
  constructor
  · intro hruns wobjs hparse
    have hi := (hdefined zeroStack).1 (fun io fuel => (hruns io zeroStack fuel).1) wobjs hparse
    obtain ⟨fuel, hret⟩ := hi.succeeds zeroStack
    exact ⟨hi, (hgood wobjs hi goodIo zeroStack fuel hret).1 ((hruns goodIo zeroStack fuel).2 hret)⟩
  · intro hcond io stack fuel
    refine ⟨(hdefined stack).2 (fun wobjs hparse => (hcond wobjs hparse).1) io fuel, fun hret => ?_⟩
    obtain ⟨wobjs, hi⟩ := verbInject_injectable hpath hopen hacc hret
    exact (hgood wobjs hi io stack fuel hret).2 (hcond wobjs hi.parsed).2

/-! ## The size -/

/-- The size of what `--inject` writes. -/
def outSize (h : Host) (infw : List UInt8) (bins : List FwpkgBinInfo) (wobjs : List Wobj) : Nat :=
  match bins with
  | []       => 0
  | bin :: _ =>
    let tableEnd := binsEnd bins + binInfoSize * wobjs.length
    tableEnd + (tableEnd - (bin.offset.toNat + binInfoSize * wobjs.length) % 2 ^ 32) + (infw.length - bin.offset.toNat) +
      (contents h wobjs).length

theorem InjectBuf.Extends.injected_length {buf : InjectBuf} (hext : buf.Extends header bins wobjs.length)
    (hbins : bins ≠ []) (infw : List UInt8) : (injected h infw bins (cutNames wobjs) buf).length = outSize h infw bins wobjs := by
  have htable : buf.table.length = binsEnd bins + binInfoSize * wobjs.length := by
    unfold InjectBuf.table binsEnd
    rw [List.length_append, flatMap_bytes_length, hext.taken, FwpkgHeader.bytes_length, hext.cnt, Nat.mul_add]
    omega
  cases hb : bins with
  | nil           => exact absurd hb hbins
  | cons bin rest =>
    subst hb
    have hshift : (bin.shift wobjs.length).offset.toNat = (bin.offset.toNat + binInfoSize * wobjs.length) % 2 ^ 32 :=
      UInt32.toNat_ofNat' ..
    have hdata : (packageData infw (bin :: rest)).length = infw.length - bin.offset.toNat := List.length_drop
    have hfiles : ((cutNames wobjs).flatMap (copied h)).length = (contents h wobjs).length := rfl
    unfold injected outSize
    dsimp only
    rw [List.length_append, List.length_append, List.length_append, htable, hext.padding_eq, List.length_replicate, hshift,
      hdata, hfiles]
    omega

/-- **What a run that returns 0 has written**: as many bytes, after the header's length field as it was. -/
theorem Injectable.output_size (hi : Injectable h args wobjs infw header bins) {io : FileIo} {stack : StackRecs} {fuel : Nat}
    (hret : (verbInject fuel h stack args io []).1 = .ret 0) :
    (output (verbInject fuel h stack args io []).2).length = outSize h infw bins wobjs ∧
      (FwpkgHeader.ofBytes (output (verbInject fuel h stack args io []).2)).len = header.len := by
  obtain ⟨buf, hbuilds, hout⟩ := hi.output_eq hi.room stack
  rw [hout io fuel hret]
  refine ⟨hbuilds.injected_length hi.first infw, ?_⟩
  unfold injected InjectBuf.table
  rw [List.append_assoc, FwpkgHeader.ofBytes_append]
  exact hbuilds.len

/-- The table of what was written. -/
theorem Injectable.readBinInfos (hi : Injectable h args wobjs infw header bins) {io : FileIo} {stack : StackRecs}
    {fuel : Nat} (hret : (verbInject fuel h stack args io []).1 = .ret 0) :
    let out := output (verbInject fuel h stack args io []).2
    fwpkgReadBinInfos out (.ofBytes out) = some (tableWith bins stack wobjs infw.length) := by
  obtain ⟨buf, hbuilds, hout⟩ := hi.output_eq hi.room stack
  dsimp only
  rw [hout io fuel hret]
  unfold injected InjectBuf.table
  have hhead : FwpkgHeader.ofBytes (buf.head.bytes ++ (buf.recs.take buf.head.cnt.toNat).flatMap FwpkgBinInfo.bytes ++
      (buf.padding ++ (packageData infw bins ++ (cutNames wobjs).flatMap (copied h)))) = buf.head := by
    rw [List.append_assoc, FwpkgHeader.ofBytes_append]
  rw [hhead, fwpkgReadBinInfos_written _ hbuilds.toExtends.taken.symm, hbuilds.table]

/-! ## The length field -/

/-- `verb_inject` stays within its objects, and whenever it returns 0, the length field of what it wrote is its size, below
2^32 bytes. -/
def KeepsLen (h : Host) (args : List CStr) : Prop :=
  ∀ (io : FileIo) (stack : StackRecs) (fuel : Nat), (verbInject fuel h stack args io []).1 ≠ .stop .undefined ∧
    ((verbInject fuel h stack args io []).1 = .ret 0 →
      (output (verbInject fuel h stack args io []).2).length < 2 ^ 32 →
      (FwpkgHeader.ofBytes (output (verbInject fuel h stack args io []).2)).len.toNat
        = (output (verbInject fuel h stack args io []).2).length)

/-- In a run that returns 0 the field is right when the size of the output is what the field was. -/
theorem Injectable.lenKept_iff (hi : Injectable h args wobjs infw header bins) {io : FileIo} {stack : StackRecs} {fuel : Nat}
    (hret : (verbInject fuel h stack args io []).1 = .ret 0) :
    ((output (verbInject fuel h stack args io []).2).length < 2 ^ 32 →
      (FwpkgHeader.ofBytes (output (verbInject fuel h stack args io []).2)).len.toNat
        = (output (verbInject fuel h stack args io []).2).length) ↔
      (outSize h infw bins wobjs < 2 ^ 32 → outSize h infw bins wobjs = header.len.toNat) := by
  obtain ⟨hsize, hfield⟩ := hi.output_size hret
  rw [hsize, hfield]
  exact imp_congr_right (fun _ => eq_comm)

/-- Without a gap the output is larger by the records and the files. -/
theorem outSize_gapFree {bin : FwpkgBinInfo} {rest : List FwpkgBinInfo} (ha : Accepted infw header (bin :: rest))
    (hroom : (bin :: rest).length + wobjs.length ≤ MAX_PARTITION_CNT)
    (hfirst : bin.offset.toNat = binsEnd (bin :: rest)) :
    outSize h infw (bin :: rest) wobjs = infw.length + binInfoSize * wobjs.length + (contents h wobjs).length := by
  have hend : binsEnd (bin :: rest) ≤ infw.length := by
    rw [ha.length_eq]
    exact Nat.le_add_right _ _
  have hsmall : bin.offset.toNat + binInfoSize * wobjs.length < 2 ^ 32 := by
    rw [hfirst]
    unfold binsEnd headerSize binInfoSize
    unfold MAX_PARTITION_CNT at hroom
    omega
  unfold outSize
  dsimp only
  rw [Nat.mod_eq_of_lt hsmall, hfirst]
  omega

/-- **Without a gap the length field is wrong** as soon as a record is added. -/
theorem Injectable.not_keepsLen (hi : Injectable h args wobjs infw header bins)
    (hfree : (packageOf infw header bins).GapFree) (hlen : header.len.toNat = infw.length) (hadd : wobjs ≠ [])
    (hbelow : outSize h infw bins wobjs < 2 ^ 32) : ¬ KeepsLen h args := by
  intro hkeeps
  obtain ⟨bin, rest, hbins, hfirst⟩ := hfree
  have hbins : bins = bin :: rest := hbins
  subst hbins
  have hsize := outSize_gapFree (h := h) hi.accepted hi.room hfirst
  obtain ⟨fuel, hret⟩ := hi.succeeds zeroStack
  have heq := (hi.lenKept_iff hret).1 ((hkeeps goodIo zeroStack fuel).2 hret) hbelow
  have hpos := List.length_pos_iff.2 hadd
  unfold binInfoSize at hsize
  omega

/-- **When the length field stays right**: when the arguments are refused, or the inputs are such, and the gap before the
first record's data, which is left out, is as large as what is added. -/
theorem verbInject_len_iff (hpath : args[0]? = some path) (hopen : h.fopen path = .ok infw)
    (hacc : Accepted infw header bins) (hlen : header.len.toNat = infw.length) :
    KeepsLen h args ↔ ∀ wobjs, (args.drop 1).mapM (parseWobj h false) = .ok wobjs →
      Injectable h args wobjs infw header bins ∧
        (outSize h infw bins wobjs < 2 ^ 32 → outSize h infw bins wobjs = infw.length) := by
  rw [← hlen]
  exact verbInject_everyRun_iff hpath hopen hacc (fun wobjs hi io stack fuel hret => hi.lenKept_iff hret)

end

theorem inject_sample : Injectable (hostWith (injectTable samplePkg)) injectArgs [⟨fileC, 1, 0⟩] samplePkg sampleHeader
    sampleBins :=
  ⟨⟨injectArgs_parsed _, ⟨_, rfl, rfl⟩, samplePkg_accepted⟩, List.cons_ne_nil _ _, by decide, by decide⟩

/-- **A length field that was right** is wrong after one file. -/
theorem verbInject_len_stale : sampleHeader.len.toNat = samplePkg.length ∧
    ¬ KeepsLen (hostWith (injectTable samplePkg)) injectArgs := by
  refine ⟨by decide +kernel, inject_sample.not_keepsLen ⟨_, _, rfl, by decide⟩ (by decide +kernel) (List.cons_ne_nil _ _) ?_⟩
  decide +kernel

def fitBins : List FwpkgBinInfo := [sampleBin 0x61 117 0 0]

def fitHeader : FwpkgHeader := ⟨0xefbeaddf, 14560, 1, 118⟩

/-- As many bytes lie between the table and the loaderboot as a record and a file of one byte take. -/
def fitPkg : List UInt8 :=
  fitHeader.bytes ++ fitBins.flatMap FwpkgBinInfo.bytes ++ (List.replicate 53 0 ++ [0x41])

theorem fitPkg_accepted : Accepted fitPkg fitHeader fitBins := ⟨by decide +kernel, by decide +kernel⟩

theorem verbInject_len_fit : KeepsLen (hostWith (injectTable fitPkg)) injectArgs := by
  refine (verbInject_len_iff rfl rfl fitPkg_accepted (by decide +kernel)).2 (fun wobjs hparsed => ?_)
  have hparse := injectArgs_parsed fitPkg
  rw [hparse] at hparsed
  cases hparsed
  refine ⟨⟨⟨hparse, ⟨_, rfl, rfl⟩, fitPkg_accepted⟩, List.cons_ne_nil _ _, by decide, by decide⟩, fun _ => ?_⟩
  decide +kernel

end Ws63Flash
