import Mathlib.Algebra.Order.BigOperators.Group.List
import Ws63Flash.FlashTrace
import Ws63Flash.InjectOutput
/-!
# InjectAccepted — is the package that `--inject` writes one?

The buffer has room for `MAX_PARTITION_CNT` records, and the reader takes fewer than that; beyond the buffer nothing is
checked, and neither is the first record of a package that has none.  `verbInject_accepted_iff` says for which inputs
the output can be read again.
-/
namespace Ws63Flash

open Octets Proc Language

/-- Every file can be opened. -/
def Opened (h : Host) (wobjs : List Wobj) : Prop := ∀ w ∈ wobjs, (h.fopen w.name).isOk = true

instance (h : Host) (wobjs : List Wobj) : Decidable (Opened h wobjs) := inferInstanceAs (Decidable (∀ _ ∈ _, _))

theorem opened_cons {h : Host} {w : Wobj} {ws : List Wobj} :
    Opened h (w :: ws) ↔ (h.fopen w.name).isOk = true ∧ Opened h ws := List.forall_mem_cons

/-! ## Runs that stay within the program's objects -/

theorem never_check {x : Halt} {m k : FileProc Int} (hm : Never x m) (hk : Never x k) :
    Never x (do let ret ← m; if ret ≠ 0 then return 1 else k) := by
  refine hm.bind (fun r => ?_)
  split
  · exact Never.pure _
  · exact hk

theorem padGap_never (fuel offset tableEnd : Nat) : Never .undefined (padGap fuel offset tableEnd) := by
  refine Never.loop (by decide) (fun i => ?_) fuel offset
  split
  · refine (checkedFwrite_never _ _).bind (fun r => ?_)
    split <;> exact Never.pure _
  · exact Never.pure _

theorem copyFiles_never (fuel : Nat) (h : Host) : ∀ ws : List Wobj, Opened h ws →
    Never .undefined (copyFiles fuel h ws)
  | [], _       => Never.pure _
  | w :: ws, ho => by
    obtain ⟨hw, hws⟩ := opened_cons.1 ho
    rw [copyFiles]
    cases hf : h.fopen w.name with
    | error e =>
      rw [hf] at hw
      cases hw
    | ok f    => exact never_check (copyPart_never (by decide) _ _ _ _) (copyFiles_never fuel h ws hws)

theorem writeInjected_never (fuel : Nat) {h : Host} (infw : List UInt8) {bins : List FwpkgBinInfo} {wobjs : List Wobj}
    (buf : InjectBuf) (hbins : bins ≠ []) (ho : Opened h wobjs) :
    Never .undefined (writeInjected fuel h infw bins wobjs buf) := by
  refine never_check (checkedFwrite_never _ _) (never_check (checkedFwrite_never _ _) ?_)
  apply never_check (padGap_never _ _ _)
  cases bins with
  | nil           => exact absurd rfl hbins
  | cons bin bins => exact never_check (copyPart_never (by decide) _ _ _ _) (copyFiles_never fuel h wobjs ho)

/-! ## The run in which no call fails -/

/-- The outcome of a run that goes well while `P` holds, and then leaves the program's objects. -/
def endsIf (P : Prop) [Decidable P] : Out Int := if P then .ret 0 else .stop .undefined

theorem good_check {m k : FileProc Int} {l : List FileEv} {o : Out Int}
    (hm : Sat m goodIo l (fun o _ => ∃ r, o = .ret r ∧ r = 0)) (hk : ∀ l, Sat k goodIo l (fun o' _ => o' = o)) :
    Sat (do let ret ← m; if ret ≠ 0 then return 1 else k) goodIo l (fun o' _ => o' = o) := by
  apply Sat.bind_val hm
  rintro _ e rfl
  rw [if_neg (fun h => h rfl)]
  exact hk _

theorem padGap_good {fuel offset tableEnd : Nat} (hf : tableEnd < fuel) (l : List FileEv) :
    Sat (padGap fuel offset tableEnd) goodIo l (fun o _ => ∃ r, o = .ret r ∧ r = 0) := by
  refine Sat.loop_total (fun _ _ => True) (fun i => tableEnd - i) (fun i e _ => ?_) fuel offset (by omega) trivial
  split
  · apply Sat.bind_val (checkedFwrite_whole goodIo_writes _ _)
    rintro _ e' rfl
    rw [if_neg (fun h => h rfl)]
    exact Sat.pure ⟨trivial, by omega⟩
  · exact Sat.pure ⟨0, rfl, rfl⟩

theorem copyFiles_good {fuel : Nat} (h : Host) : ∀ ws : List Wobj, (∀ w ∈ ws, w.length < fuel) → ∀ l,
    Sat (copyFiles fuel h ws) goodIo l (fun o _ => o = endsIf (Opened h ws))
  | [], _, l       => Sat.pure (if_pos (fun w hw => absurd hw List.not_mem_nil)).symm
  | w :: ws, hf, l => by
    have ih := copyFiles_good h ws (fun w' hw => hf w' (List.mem_cons_of_mem _ hw))
    unfold endsIf at ih ⊢
    rw [copyFiles]
    cases hw : h.fopen w.name with
    | error e =>
      refine Sat.halt (if_neg (fun ho => ?_)).symm
      have := (opened_cons.1 ho).1
      rw [hw] at this
      cases this
    | ok f =>
      have hiff : Opened h (w :: ws) ↔ Opened h ws := by
        rw [opened_cons, hw]
        exact ⟨fun ho => ho.2, fun ho => ⟨rfl, ho⟩⟩
      simp only [hiff]
      exact good_check (copyPart_whole goodIo_reads goodIo_writes (by simpa using hf w List.mem_cons_self) l) ih

theorem writeInjected_good {fuel : Nat} (h : Host) (infw : List UInt8) (bins : List FwpkgBinInfo) (wobjs : List Wobj)
    (buf : InjectBuf) (hend : buf.tableEnd < fuel) (hin : infw.length < fuel) (hws : ∀ w ∈ wobjs, w.length < fuel)
    (l : List FileEv) : Sat (writeInjected fuel h infw bins wobjs buf) goodIo l
      (fun o _ => o = endsIf (bins ≠ [] ∧ Opened h wobjs)) := by
  refine good_check (checkedFwrite_whole goodIo_writes _ _) (fun l => ?_)
  refine good_check (checkedFwrite_whole goodIo_writes _ _) (fun l => ?_)
  refine good_check (padGap_good hend _) (fun l => ?_)
  cases bins with
  | nil           => exact Sat.halt (if_neg (fun hn => hn.1 rfl)).symm
  | cons bin bins =>
    have hiff : bin :: bins ≠ [] ∧ Opened h wobjs ↔ Opened h wobjs := and_iff_right (List.cons_ne_nil _ _)
    unfold endsIf
    simp only [hiff]
    exact good_check (copyPart_whole goodIo_reads goodIo_writes (by omega) _) (copyFiles_good h wobjs hws)

/-! ## The output as a package -/

section

variable {h : Host} {args : List CStr} {wobjs : List Wobj} {infw : List UInt8} {header : FwpkgHeader}
  {bins : List FwpkgBinInfo}

theorem cutNames_length (wobjs : List Wobj) {fuel : Nat} (hf : ∀ w ∈ wobjs, w.length < fuel) :
    ∀ w ∈ cutNames wobjs, w.length < fuel := fun w hw => by
  obtain ⟨w', hw', rfl⟩ := List.mem_map.1 hw
  exact hf w' hw'

/-- A run of `verb_inject` that has room for its records and in which no call fails. -/
theorem Injects.good (hi : Injects h args wobjs infw header bins)
    (hle : bins.length + wobjs.length ≤ MAX_PARTITION_CNT) (stack : StackRecs) :
    ∃ fuel, Sat (verbInject fuel h stack args) goodIo []
      (fun o _ => o = endsIf (bins ≠ [] ∧ Opened h (cutNames wobjs))) := by
  obtain ⟨buf, _, hrun⟩ := hi.run_eq hle stack
  obtain ⟨n, hn⟩ : ∃ n, ∀ w ∈ wobjs, w.length < n := by
    refine ⟨(wobjs.map Wobj.length).sum + 1, fun w hw => Nat.lt_succ_of_le ?_⟩
    exact List.single_le_sum (fun _ _ => Nat.zero_le _) _ (List.mem_map.2 ⟨w, hw, rfl⟩)
  refine ⟨buf.tableEnd + infw.length + n + 1, ?_⟩
  rw [hrun]
  exact writeInjected_good h infw bins _ buf (by omega) (by omega)
    (cutNames_length wobjs (fun w hw => by have := hn w hw; omega)) []

/-- The file `old`, written over from its start. -/
def overwrite (old out : List UInt8) : List UInt8 := out ++ old.drop out.length

/-- `verb_inject` stays within its objects, and whenever it returns 0 the reader takes the file it wrote, with the files
counted. -/
def InjectAccepted (h : Host) (args : List CStr) (cnt : Nat) : Prop :=
  ∀ (io : FileIo) (stack : StackRecs) (fuel : Nat) (old : List UInt8),
    (verbInject fuel h stack args io []).1 ≠ .stop .undefined ∧
    ((verbInject fuel h stack args io []).1 = .ret 0 → ∃ header bins,
      Accepted (overwrite old (output (verbInject fuel h stack args io []).2)) header bins ∧
        header.cnt.toNat = cnt + (args.length - 1))

theorem Injects.output_eq (hi : Injects h args wobjs infw header bins)
    (hle : bins.length + wobjs.length ≤ MAX_PARTITION_CNT) (stack : StackRecs) :
    ∃ buf, InjectBuf.Builds buf header bins stack wobjs infw.length ∧ ∀ io fuel, (verbInject fuel h stack args io []).1 = .ret 0 →
      output (verbInject fuel h stack args io []).2 = injected h infw bins (cutNames wobjs) buf := by
  obtain ⟨buf, hext, hrun⟩ := hi.run_eq hle stack
  refine ⟨buf, hext, fun io fuel hret => ?_⟩
  rw [hrun] at hret ⊢
  exact (writeInjected_emits fuel h infw bins (cutNames wobjs) buf io []).1 0 hret rfl

theorem InjectBuf.Extends.taken {buf : InjectBuf} (hext : buf.Extends header bins wobjs.length) :
    (buf.recs.take buf.head.cnt.toNat).length = buf.head.cnt.toNat := by
  obtain ⟨news, hlen, hrecs⟩ := hext.recs
  rw [hrecs, List.length_append, List.length_map, hlen, hext.cnt]

/-- A buffer with fewer than the most records is read back. -/
theorem InjectBuf.Extends.accepted {buf : InjectBuf} (hext : buf.Extends header bins wobjs.length)
    (hmgc : header.mgc = 0xefbeaddf) (hlt : bins.length + wobjs.length < MAX_PARTITION_CNT) (rest : List UInt8) :
    Accepted (buf.table ++ rest) buf.head (buf.recs.take buf.head.cnt.toNat) := by
  have hmax : (buf.recs.take buf.head.cnt.toNat).length < MAX_PARTITION_CNT := by
    rw [hext.taken, hext.cnt]
    exact hlt
  exact accepted_written rest (hext.mgc.trans hmgc) hext.taken.symm hmax hext.crc

/-- **With fewer than the most records** the output is a package. -/
theorem Injects.accepted_output (hi : Injects h args wobjs infw header bins) (hbins : bins ≠ [])
    (hlt : bins.length + wobjs.length < MAX_PARTITION_CNT) (ho : Opened h (cutNames wobjs)) :
    InjectAccepted h args header.cnt.toNat := by
  intro io stack fuel old
  obtain ⟨buf, hext, hrun⟩ := hi.run_eq (Nat.le_of_lt hlt) stack
  obtain ⟨buf', hbuilds, hout⟩ := hi.output_eq (Nat.le_of_lt hlt) stack
  have hext' := hbuilds.toExtends
  refine ⟨?_, fun hret => ?_⟩
  · rw [hrun]
    exact writeInjected_never fuel infw buf hbins ho io []
  · have hmgc := (fwpkgReadHeader_eq_some.1 hi.accepted.head).2.2.1
    refine ⟨buf'.head, buf'.recs.take buf'.head.cnt.toNat, ?_, ?_⟩
    · rw [hout io fuel hret, overwrite, injected, List.append_assoc]
      exact hext'.accepted hmgc hlt _
    · rw [hext'.cnt, hi.accepted.length_bins, length_mapM_parseWobj hi.parsed, List.length_drop]

/-- **Otherwise it need not be**: one run at least leaves the program's objects, or writes what the reader does not take. -/
theorem Injects.not_accepted (hi : Injects h args wobjs infw header bins)
    (hbad : ¬ (bins ≠ [] ∧ bins.length + wobjs.length < MAX_PARTITION_CNT ∧ Opened h (cutNames wobjs))) :
    ¬ InjectAccepted h args header.cnt.toNat := by
  intro hacc
  by_cases hover : MAX_PARTITION_CNT < bins.length + wobjs.length
  · apply (hacc goodIo zeroStack 0 []).1
    rw [hi.run_overflow hover]
    rfl
  obtain ⟨fuel, hgood⟩ := hi.good (Nat.le_of_not_lt hover) zeroStack
  unfold Sat endsIf at hgood
  obtain ⟨hdef, hread⟩ := hacc goodIo zeroStack fuel []
  split at hgood
  · -- every call goes well: the count is the most there is room for, and the reader takes none such
    rename_i hok
    have hfull : bins.length + wobjs.length = MAX_PARTITION_CNT := by
      refine Nat.le_antisymm (Nat.le_of_not_lt hover) (Nat.le_of_not_lt (fun hlt => hbad ⟨hok.1, hlt, hok.2⟩))
    obtain ⟨header', bins', hacc', hcnt⟩ := hread hgood
    have hmax := hacc'.cnt_lt
    have hlen := length_mapM_parseWobj hi.parsed
    rw [List.length_drop] at hlen
    rw [hcnt, ← hi.accepted.length_bins, ← hlen, hfull] at hmax
    exact Nat.lt_irrefl _ hmax
  · exact hdef hgood

end

/-! ## Exactly when -/

theorem parseWobj_error {h : Host} {bare : Bool} {arg : CStr} {r : Int} (he : parseWobj h bare arg = .error r) :
    r ≠ 0 := by
  rcases parseWobj_cases h bare arg with ⟨n, addr, hok⟩ | ⟨r', hr', herr⟩
  · rw [hok] at he
    exact nomatch he
  · rw [herr] at he
    cases he
    exact hr'

theorem mapM_parseWobj_error {h : Host} {r : Int} {args : List CStr} (he : args.mapM (parseWobj h false) = .error r) :
    r ≠ 0 := by
  obtain ⟨arg, _, harg⟩ := mapM_eq_error he
  exact parseWobj_error harg

theorem verbInject_refused {h : Host} {args : List CStr} {r : Int}
    (hparse : (args.drop 1).mapM (parseWobj h false) = .error r) (fuel : Nat) (stack : StackRecs) :
    verbInject fuel h stack args = pure r := by
  unfold verbInject
  rw [hparse]

/-- **When `--inject` makes a package of a package**: when there is a first record, the records stay below the most, and
the files can be opened. -/
theorem verbInject_accepted_iff {h : Host} {args : List CStr} {path : CStr} {infw : List UInt8} {header : FwpkgHeader}
    {bins : List FwpkgBinInfo} (hpath : args[0]? = some path) (hopen : h.fopen path = .ok infw)
    (hacc : Accepted infw header bins) :
    InjectAccepted h args header.cnt.toNat ↔
      ∀ wobjs, (args.drop 1).mapM (parseWobj h false) = .ok wobjs → 1 ≤ header.cnt.toNat ∧
        header.cnt.toNat + (args.length - 1) < MAX_PARTITION_CNT ∧ Opened h (cutNames wobjs) := by
  cases hparse : (args.drop 1).mapM (parseWobj h false) with
  | error r =>
    have hr := mapM_parseWobj_error hparse
    refine ⟨fun _ _ hw => (nomatch hw), fun _ io stack fuel old => ?_⟩
    rw [verbInject_refused hparse]
    exact ⟨nofun, fun h0 => absurd (Out.ret.inj h0) hr⟩
  | ok wobjs =>
    have hi : Injects h args wobjs infw header bins := ⟨hparse, ⟨path, hpath, hopen⟩, hacc⟩
    have hlen := length_mapM_parseWobj hparse
    rw [List.length_drop] at hlen
    have hne : bins ≠ [] ↔ 1 ≤ header.cnt.toNat := by
      rw [← hacc.length_bins]
      exact List.length_pos_iff.symm
    constructor
    · intro hgood wobjs' hw
      cases hw
      by_cases hok : bins ≠ [] ∧ bins.length + wobjs.length < MAX_PARTITION_CNT ∧ Opened h (cutNames wobjs)
      · rw [hne, hacc.length_bins, hlen] at hok
        exact hok
      · exact absurd hgood (hi.not_accepted hok)
    · intro hok
      obtain ⟨h1, h2, h3⟩ := hok wobjs rfl
      exact hi.accepted_output (hne.2 h1) (by rw [hacc.length_bins, hlen]; exact h2) h3

/-- The package `p`, and a file `c`. -/
def injectTable (pkg : List UInt8) : List (CStr × List UInt8) :=
  [(fileP, pkg), (fileC, [0x43])]

/-- `--inject p c@0`. -/
def injectArgs : List CStr := [fileP, atAddr fileC false 0]

theorem injectArgs_parsed (pkg : List UInt8) : (injectArgs.drop 1).mapM (parseWobj (hostWith (injectTable pkg)) false)
    = .ok [⟨fileC, 1, 0⟩] := by
  show [atAddr _ false 0].mapM _ = _
  rw [List.mapM_cons, parseWobj_atAddr false false (by decide) rfl (by decide)]
  rfl

theorem verbInject_accepted_sample : InjectAccepted (hostWith (injectTable samplePkg)) injectArgs 2 := by
  refine (verbInject_accepted_iff (h := hostWith (injectTable samplePkg)) rfl rfl samplePkg_accepted).2
    (fun wobjs hw => ?_)
  rw [injectArgs_parsed] at hw
  cases hw
  exact ⟨by decide, by decide, by decide⟩

/-- A package of one record, and its file fifteen times. -/
def manyArgs : List CStr :=
  fileP :: List.replicate 15 (atAddr fileA false 0)

theorem mapM_parseWobj_replicate {h : Host} {arg : CStr} {w : Wobj} (hp : parseWobj h false arg = .ok w) :
    ∀ n, (List.replicate n arg).mapM (parseWobj h false) = .ok (List.replicate n w)
  | 0     => rfl
  | n + 1 => by
    rw [List.replicate_succ, List.mapM_cons, hp, mapM_parseWobj_replicate hp n]
    rfl

/-- **Sixteen records** are written, and not read. -/
theorem verbInject_sixteen : ¬ InjectAccepted (hostWith loneTable) manyArgs 1 := by
  have hfile : parseWobj (hostWith loneTable) false (atAddr fileA false 0)
      = .ok ⟨fileA, 1, 0⟩ := parseWobj_atAddr false false (by decide) rfl (by decide)
  have hparse := mapM_parseWobj_replicate hfile 15
  have hi : Injects (hostWith loneTable) manyArgs _ lonePkg loneHeader loneBins :=
    ⟨hparse, ⟨_, rfl, rfl⟩, lonePkg_accepted⟩
  exact hi.not_accepted (fun hok => absurd hok.2.1 (by decide))

end Ws63Flash
