import Ws63Flash.InjectSize
/-!
# InjectNames — the names of the files

`strncpy` stores at most 31 bytes into the name of a record, and pads with NULs only as far as these go.  The last byte
of the field is the stack's: a name of 31 bytes or more ends in it (`verbInject_name_iff`).
-/
namespace Ws63Flash

open Octets Proc

/-! ## The field -/

/-- The record has a terminated name: `b`, cut to 31 bytes. -/
structure Named (b : CStr) (r : FwpkgBinInfo) : Prop where
  terminated : 0 ∈ r.name
  str : r.str.bytes = b.bytes.take 31

theorem named_of_field {b : CStr} {r : FwpkgBinInfo} (rest : List UInt8) (hname : r.name = b.bytes.take 31 ++ 0 :: rest) :
    Named b r := by
  have hnul : 0 ∉ b.bytes.take 31 := fun h => b.noNul (List.mem_of_mem_take h)
  have hmem : 0 ∈ r.name := by
    rw [hname]
    exact List.mem_append_right _ List.mem_cons_self
  refine ⟨hmem, ?_⟩
  rw [str_of_named hmem]
  show r.name.takeWhile _ = _
  rw [hname]
  exact takeWhile_nul hnul rest

/-- **A file's name is terminated** when it leaves room for a NUL, or the stack has one. -/
theorem newBin_named (old : FwpkgBinInfo) (w : Wobj) (o : Nat) :
    Named (basename w.name) (newBin old w o) ↔ (basename w.name).strlen ≤ 30 ∨ old.name[31]? = some 0 := by
  generalize hb : basename w.name = b
  have hname : (newBin old w o).name = padTo 31 (b.bytes.take 31) ++ old.name.drop 31 := by
    rw [← hb]
    rfl
  have h31 : 31 < old.name.length := by
    rw [old.name_length]
    decide
  obtain ⟨c, hc, hlast⟩ : ∃ c, old.name[31]? = some c ∧ old.name.drop 31 = [c] := by
    refine ⟨old.name[31], List.getElem?_eq_getElem h31, ?_⟩
    rw [List.drop_eq_getElem_cons h31, List.drop_eq_nil_of_le (by rw [old.name_length])]
  rw [hlast] at hname
  rw [hc]
  by_cases hshort : b.strlen ≤ 30
  · refine iff_of_true ?_ (Or.inl hshort)
    have htake : b.bytes.take 31 = b.bytes := List.take_of_length_le (Nat.le_succ_of_le hshort)
    have hpad : 31 - b.bytes.length = 30 - b.bytes.length + 1 := Nat.succ_sub hshort
    apply named_of_field (List.replicate (30 - b.bytes.length) 0 ++ [c])
    rw [hname, htake, padTo, hpad, List.replicate_succ, List.append_assoc, List.cons_append]
  · have hlen : (b.bytes.take 31).length = 31 := by
      rw [List.length_take]
      exact Nat.min_eq_left (Nat.lt_of_not_le hshort)
    have hfull : padTo 31 (b.bytes.take 31) = b.bytes.take 31 := by
      rw [padTo, hlen]
      exact List.append_nil _
    rw [hfull] at hname
    constructor
    · intro hn
      rcases List.mem_append.1 (hname ▸ hn.terminated) with h | h
      · exact absurd (List.mem_of_mem_take h) b.noNul
      · exact Or.inr (congrArg some (List.mem_singleton.1 h).symm)
    · rintro (h | h)
      · exact absurd h hshort
      · rw [Option.some.inj h] at hname
        exact named_of_field [] hname

/-! ## Reading the name back -/

/-- `--flash` with the name `b` finds the record `r` among `bins`: the plan can be printed, the check of the names passes,
and `r` is sent. -/
structure FoundBy (b : CStr) (bins : List FwpkgBinInfo) (r : FwpkgBinInfo) : Prop where
  ends : NamesEnd bins
  checked : b ∈ tableNames bins
  sent : ∀ a : Args, a.args.drop 2 = [b] → r ∈ selected a bins

theorem Named.foundBy {b : CStr} {bins : List FwpkgBinInfo} {i : Nat} {r : FwpkgBinInfo} (hn : Named b r)
    (hlen : b.strlen ≤ 31) (hends : NamesEnd bins) (hr : bins[i]? = some r) (htype : r.type2 = 1) : FoundBy b bins r := by
  have hstr : r.str = b := CStr.ext (hn.str.trans (List.take_of_length_le hlen))
  have hname := tableNames_getElem? hr (nul_of_named hn.terminated)
  rw [hstr] at hname
  refine ⟨hends, List.mem_of_getElem? hname, fun a ha => ?_⟩
  have hin : binInArgs r.str a = true := by
    unfold binInArgs
    rw [ha, hstr]
    simp
  unfold selected
  rw [List.mem_filter]
  exact ⟨List.mem_of_getElem? hr, by simp [htype, hin]⟩

theorem type2_newBins : ∀ (olds : List FwpkgBinInfo) (ws : List Wobj) (o : Nat), ∀ r ∈ newBins olds ws o, r.type2 = 1
  | [], _, _, r, hr                   => by simp [newBins] at hr
  | _ :: _, [], _, r, hr              => by simp [newBins] at hr
  | old :: olds, w :: ws, o, r, hr    => by
    rw [newBins] at hr
    rcases List.mem_cons.1 hr with rfl | hr
    · rfl
    · exact type2_newBins olds ws _ r hr

/-- The names of a table with files end in it: its last record is that of a file. -/
theorem tableWith_namesEnd {bins : List FwpkgBinInfo} {wobjs : List Wobj} (hadd : wobjs ≠ [])
    (hroom : bins.length + wobjs.length ≤ MAX_PARTITION_CNT) (stack : StackRecs) (size : Nat) :
    NamesEnd (tableWith bins stack wobjs size) := by
  have hlen : (newBins (stack.1.drop bins.length) wobjs (size + binInfoSize * wobjs.length)).length = wobjs.length :=
    newBins_length _ _ _ (by rw [List.length_drop, stack.2]; omega)
  have hne : newBins (stack.1.drop bins.length) wobjs (size + binInfoSize * wobjs.length) ≠ [] := by
    intro hnil
    rw [hnil] at hlen
    exact hadd (List.eq_nil_of_length_eq_zero hlen.symm)
  rw [namesEnd_iff]
  intro r hr
  rw [tableWith, List.getLast?_append_of_ne_nil _ hne] at hr
  exact nul_of_type2 (Or.inr (type2_newBins _ _ _ r (List.mem_of_getLast? hr)))

/-- The last byte of the name in the record `i` of the room, before anything is stored. -/
def StackRecs.last (stack : StackRecs) (i : Nat) : Option UInt8 := stack.1[i]?.bind (fun old => old.name[31]?)

/-- `verb_inject` stays within its objects.  Whenever the record `i` can be read from what it wrote, it has the name `b`;
after a run that returns 0 it can be, and is found by its name unless that was cut. -/
def NameKept (h : Host) (args : List CStr) (stack : StackRecs) (i : Nat) (b : CStr) : Prop :=
  ∀ (io : FileIo) (fuel : Nat), (verbInject fuel h stack args io []).1 ≠ .stop .undefined ∧
    let out := output (verbInject fuel h stack args io []).2
    (∀ bins r, fwpkgReadBinInfos out (.ofBytes out) = some bins → bins[i]? = some r → Named b r) ∧
    ((verbInject fuel h stack args io []).1 = .ret 0 → ∃ bins r,
      fwpkgReadBinInfos out (.ofBytes out) = some bins ∧ bins[i]? = some r ∧
        (b.strlen ≤ 31 → (∃ header, Accepted out header bins) ∧ FoundBy b bins r))

section

variable {h : Host} {args : List CStr} {path : CStr} {wobjs : List Wobj} {infw : List UInt8} {header : FwpkgHeader}
  {bins : List FwpkgBinInfo}

theorem Accepted.unique {f : List UInt8} {header header' : FwpkgHeader} {bins bins' : List FwpkgBinInfo}
    (ha : Accepted f header bins) (ha' : Accepted f header' bins') : header = header' ∧ bins = bins' := by
  have hhead := Option.some.inj (Out.ret.inj (ha.head.symm.trans ha'.head))
  subst hhead
  exact ⟨rfl, Option.some.inj (ha.infos.symm.trans ha'.infos)⟩

/-- **What is read back** of what was written: its table, while the reader takes that many records. -/
theorem Injectable.accepted_iff (hi : Injectable h args wobjs infw header bins) {io : FileIo} {stack : StackRecs}
    {fuel : Nat} (hret : (verbInject fuel h stack args io []).1 = .ret 0) {bins' : List FwpkgBinInfo} :
    (∃ header', Accepted (output (verbInject fuel h stack args io []).2) header' bins') ↔
      bins.length + wobjs.length < MAX_PARTITION_CNT ∧ bins' = tableWith bins stack wobjs infw.length := by
  obtain ⟨buf, hbuilds, hout⟩ := hi.output_eq hi.room stack
  have hmgc := (fwpkgReadHeader_eq_some.1 hi.accepted.head).2.2.1
  rw [hout io fuel hret]
  unfold injected
  rw [← hbuilds.table]
  constructor
  · rintro ⟨header', ha⟩
    have hhead : header' = buf.head := by
      have hread := (fwpkgReadHeader_eq_some.1 ha.head).2.1
      rwa [InjectBuf.table, List.append_assoc, FwpkgHeader.ofBytes_append] at hread
    have hlt := ha.cnt_lt
    rw [hhead, hbuilds.cnt] at hlt
    exact ⟨hlt, (ha.unique (hbuilds.toExtends.accepted hmgc hlt _)).2⟩
  · rintro ⟨hlt, rfl⟩
    exact ⟨buf.head, hbuilds.toExtends.accepted hmgc hlt _⟩

/-- A record that can be read from what was written, wherever the run stopped. -/
theorem Injects.readRecord (hi : Injects h args wobjs infw header bins) {io : FileIo} {stack : StackRecs} {fuel : Nat}
    {j : Nat} {w : Wobj} (hw : wobjs[j]? = some w) {bins' : List FwpkgBinInfo} {r : FwpkgBinInfo}
    (hread : fwpkgReadBinInfos (output (verbInject fuel h stack args io []).2)
      (.ofBytes (output (verbInject fuel h stack args io []).2)) = some bins') (hr : bins'[bins.length + j]? = some r) :
    ∃ old o, stack.1[bins.length + j]? = some old ∧ r = newBin old w o := by
  obtain ⟨hrecords, rfl⟩ := fwpkgReadBinInfos_eq_some.1 hread
  obtain ⟨hlt, hget⟩ := List.getElem?_eq_some_iff.1 hr
  rw [List.length_map, List.length_range] at hlt
  rw [List.getElem_map, List.getElem_range] at hget
  have hsome : bins.length + j + 1 ≤ recordsIn (output (verbInject fuel h stack args io []).2) := by omega
  have hlen : headerSize ≤ (output (verbInject fuel h stack args io []).2).length := by
    by_contra hshort
    have hnone : recordsIn (output (verbInject fuel h stack args io []).2) = 0 := by
      unfold recordsIn
      rw [Nat.sub_eq_zero_of_le (Nat.le_of_not_le hshort), Nat.zero_div]
    omega
  obtain ⟨old, hold, hrec⟩ := hi.recordAt hw (Or.inr ((table_le hlen).1 hsome))
  exact ⟨old, _, hold, hget.symm.trans hrec⟩

/-- The name of the file `j`, in what `--inject` writes. -/
theorem Injectable.nameKept_iff (hi : Injectable h args wobjs infw header bins) {path : CStr} (hpath : args[0]? = some path)
    (hopen : h.fopen path = .ok infw) {j : Nat} {w : Wobj} (hw : wobjs[j]? = some w) (stack : StackRecs) :
    NameKept h args stack (header.cnt.toNat + j) (basename w.name) ↔
      ((basename w.name).strlen ≤ 30 ∨ stack.last (header.cnt.toNat + j) = some 0) ∧
        ((basename w.name).strlen ≤ 31 → header.cnt.toNat + wobjs.length < MAX_PARTITION_CNT) := by
  obtain ⟨old, hold, hread⟩ := tableWith_getElem? hi.room stack infw.length hw
  rw [← hi.accepted.length_bins]
  have hlast : stack.last (bins.length + j) = old.name[31]? := by
    unfold StackRecs.last
    rw [hold]
    rfl
  rw [hlast]
  constructor
  · intro hkept
    obtain ⟨fuel, hret⟩ := hi.succeeds stack
    obtain ⟨_, hnamed, hfound⟩ := hkept goodIo fuel
    have htable := hi.readBinInfos hret
    refine ⟨(newBin_named old w _).1 (hnamed _ _ htable hread), fun hlen => ?_⟩
    obtain ⟨bins', r, _, _, hacc⟩ := hfound hret
    obtain ⟨⟨header', ha⟩, _⟩ := hacc hlen
    exact ((hi.accepted_iff hret).1 ⟨header', ha⟩).1
  · rintro ⟨hname, hlt⟩ io fuel
    have hdef := (verbInject_defined_iff hpath hopen hi.accepted stack).2 (fun wobjs' hparse => by
      rw [hi.parsed] at hparse
      cases hparse
      exact hi) io fuel
    refine ⟨hdef, fun bins' r hbins hr => ?_, fun hret => ?_⟩
    · obtain ⟨old', o, hold', rfl⟩ := hi.readRecord hw hbins hr
      rw [hold] at hold'
      cases hold'
      exact (newBin_named old w o).2 hname
    · refine ⟨_, _, hi.readBinInfos hret, hread, fun hlen => ⟨(hi.accepted_iff hret).2 ⟨hlt hlen, rfl⟩, ?_⟩⟩
      have hnamed := (newBin_named old w (infw.length + binInfoSize * wobjs.length + storedSizes (wobjs.take j))).2 hname
      have hadd : wobjs ≠ [] := List.ne_nil_of_mem (List.mem_of_getElem? hw)
      exact hnamed.foundBy hlen (tableWith_namesEnd hadd hi.room stack infw.length) hread rfl

/-- **When the name of a file is read back**: when the inputs are such that `--inject` stays within its objects, the base
name has at most 30 bytes, or the stack held a NUL at the end of the field, and for a name that is not cut the records stay
below the most. -/
theorem verbInject_name_iff (hpath : args[0]? = some path) (hopen : h.fopen path = .ok infw)
    (hacc : Accepted infw header bins) (hparse : (args.drop 1).mapM (parseWobj h false) = .ok wobjs) {j : Nat} {w : Wobj}
    (hw : wobjs[j]? = some w) (stack : StackRecs) :
    NameKept h args stack (header.cnt.toNat + j) (basename w.name) ↔
      Injectable h args wobjs infw header bins ∧
        ((basename w.name).strlen ≤ 30 ∨ stack.last (header.cnt.toNat + j) = some 0) ∧
        ((basename w.name).strlen ≤ 31 → header.cnt.toNat + wobjs.length < MAX_PARTITION_CNT) := by
  constructor
  · intro hkept
    have hi := (verbInject_defined_iff hpath hopen hacc stack).1 (fun io fuel => (hkept io fuel).1) wobjs hparse
    exact ⟨hi, (hi.nameKept_iff hpath hopen hw stack).1 hkept⟩
  · rintro ⟨hi, hname⟩
    exact (hi.nameKept_iff hpath hopen hw stack).2 hname

end

/-- A stack without zero bytes. -/
def noisyStack : StackRecs :=
  ⟨List.replicate MAX_PARTITION_CNT (.ofBytes (List.replicate binInfoSize 1)), List.length_replicate⟩

theorem verbInject_name_short :
    NameKept (hostWith (injectTable samplePkg)) injectArgs noisyStack (sampleHeader.cnt.toNat + 0) (basename fileC) := by
  have hw : [(⟨fileC, 1, 0⟩ : Wobj)][0]? = some ⟨fileC, 1, 0⟩ := rfl
  exact (verbInject_name_iff rfl rfl samplePkg_accepted (injectArgs_parsed _) hw noisyStack).2
    ⟨inject_sample, Or.inl (by decide), fun _ => by decide⟩

/-- A name of 31 bytes. -/
def fileLong : CStr := ⟨List.replicate 31 0x61, by decide⟩

/-- **A name of 31 bytes** runs on into what the stack held. -/
theorem verbInject_name_long : (basename fileLong).strlen = 31 ∧
    ¬ NameKept (hostWith [(fileP, samplePkg), (fileLong, [0x43])]) [fileP, atAddr fileLong false 0] noisyStack
      (sampleHeader.cnt.toNat + 0) (basename fileLong) := by
  have hparse : [atAddr fileLong false 0].mapM (parseWobj (hostWith [(fileP, samplePkg), (fileLong, [0x43])]) false)
      = .ok [⟨fileLong, 1, 0⟩] := by
    rw [List.mapM_cons, parseWobj_atAddr false false (by decide) rfl (by decide)]
    rfl
  have hi : Injectable (hostWith [(fileP, samplePkg), (fileLong, [0x43])]) [fileP, atAddr fileLong false 0]
      [⟨fileLong, 1, 0⟩] samplePkg sampleHeader sampleBins :=
    ⟨⟨hparse, ⟨_, rfl, rfl⟩, samplePkg_accepted⟩, List.cons_ne_nil _ _, by decide, by decide⟩
  have hw : [(⟨fileLong, 1, 0⟩ : Wobj)][0]? = some ⟨fileLong, 1, 0⟩ := rfl
  refine ⟨by decide, fun hkept => ?_⟩
  have hpath : [fileP, atAddr fileLong false 0][0]? = some fileP := rfl
  have hname := (hi.nameKept_iff hpath rfl hw noisyStack).1 hkept
  exact absurd hname.1 (by decide)

end Ws63Flash
