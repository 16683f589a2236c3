import Ws63Flash.InjectRecords
/-!
# InjectTwice — two runs of `--inject` and one

The second run shifts the records the first one made, and counts its own from the size the first one left.  On packages
the two are one `inject` of both lists (`Package.inject_inject`), and so are the runs (`verbInject_twice`).
-/
namespace Ws63Flash

open Octets Proc

/-! ## Records -/

theorem ofNat_toNat_add (n o : Nat) : UInt32.ofNat ((UInt32.ofNat o).toNat + n) = UInt32.ofNat (o + n) := by
  apply UInt32.toNat_inj.1
  rw [UInt32.toNat_ofNat', UInt32.toNat_ofNat', UInt32.toNat_ofNat']
  exact Nat.mod_add_mod o (2 ^ 32) n

theorem FwpkgBinInfo.shift_shift (b : FwpkgBinInfo) (m n : Nat) : (b.shift m).shift n = b.shift (m + n) := by
  have hoffset := ofNat_toNat_add (binInfoSize * n) (b.offset.toNat + binInfoSize * m)
  unfold FwpkgBinInfo.shift
  dsimp only
  rw [hoffset, Nat.mul_add, Nat.add_assoc]

theorem newBin_shift (old : FwpkgBinInfo) (w : Wobj) (o n : Nat) :
    (newBin old w o).shift n = newBin old w (o + binInfoSize * n) := by
  unfold FwpkgBinInfo.shift newBin
  dsimp only
  rw [ofNat_toNat_add]

/-- The records of the files are shifted as if their data had begun further on. -/
theorem newBins_shift (n : Nat) : ∀ (olds : List FwpkgBinInfo) (ws : List Wobj) (o : Nat),
    (newBins olds ws o).map (FwpkgBinInfo.shift n) = newBins olds ws (o + binInfoSize * n)
  | [], ws, _             => by cases ws <;> rfl
  | old :: olds, [], _    => rfl
  | old :: olds, w :: ws, o => by
    have hlen : (newBin old w (o + binInfoSize * n)).length = (newBin old w o).length := rfl
    rw [newBins, newBins, List.map_cons, newBin_shift, newBins_shift n olds ws, hlen, Nat.add_right_comm]

theorem newBins_append : ∀ (olds : List FwpkgBinInfo) (wa wb : List Wobj) (o : Nat), wa.length ≤ olds.length →
    sizes wa < 2 ^ 32 →
    newBins olds (wa ++ wb) o = newBins olds wa o ++ newBins (olds.drop wa.length) wb (o + sizes wa)
  | olds, [], wb, o, _, _             => by
    rw [newBins.eq_def olds []]
    cases olds <;> rfl
  | old :: olds, w :: wa, wb, o, hle, hsum => by
    rw [sizes_cons] at hsum
    have hlen : (newBin old w o).length.toNat = w.length := toNat_length (by omega)
    have ih := newBins_append olds wa wb (o + w.length) (Nat.le_of_succ_le_succ hle) (by omega)
    rw [List.cons_append, newBins, newBins, hlen, ih, sizes_cons, List.length_cons, List.drop_succ_cons,
      List.cons_append, Nat.add_assoc]

/-! ## Packages -/

namespace Package

/-- **Files put in one list after the other** are put in as one list. -/
theorem inject_inject (p : Package) (stack : StackRecs) {wa wb : List Wobj} {ca : List UInt8} (cb : List UInt8)
    (hroom : p.bins.length + (wa ++ wb).length ≤ MAX_PARTITION_CNT) (hsum : sizes wa < 2 ^ 32)
    (hca : ca.length = sizes wa) :
    (p.inject stack wa ca).inject stack wb cb = p.inject stack (wa ++ wb) (ca ++ cb) := by
  rw [List.length_append] at hroom
  have hsize := inject_size (p := p) stack ca (show p.bins.length + wa.length ≤ _ by omega)
  have hlen : (p.inject stack wa ca).bins.length = p.bins.length + wa.length := tableWith_length (by omega) _
  have hold : wa.length ≤ (stack.1.drop p.bins.length).length := by
    rw [List.length_drop, stack.2]
    omega
  have hbins : tableWith (p.inject stack wa ca).bins stack wb (p.inject stack wa ca).size
      = tableWith p.bins stack (wa ++ wb) p.size := by
    have hshift : (FwpkgBinInfo.shift wb.length ∘ FwpkgBinInfo.shift wa.length) = FwpkgBinInfo.shift (wa ++ wb).length := by
      funext b
      rw [List.length_append]
      exact b.shift_shift _ _
    have hdata : p.size + binInfoSize * wa.length + binInfoSize * wb.length
        = p.size + binInfoSize * (wa ++ wb).length := by
      rw [List.length_append, Nat.mul_add, Nat.add_assoc]
    have hnext : p.size + binInfoSize * wa.length + ca.length + binInfoSize * wb.length
        = p.size + binInfoSize * (wa ++ wb).length + sizes wa := by
      rw [← hdata, hca, Nat.add_right_comm]
    rw [tableWith, hlen, hsize, hnext]
    show (tableWith p.bins stack wa p.size).map _ ++ _ = _
    rw [tableWith, tableWith, List.map_append, List.map_map, hshift, newBins_shift, hdata,
      newBins_append _ wa wb _ hold hsum, List.drop_drop, List.append_assoc]
  have hdata : p.data ++ ca ++ cb = p.data ++ (ca ++ cb) := List.append_assoc _ _ _
  show Package.mk p.len (tableWith (p.inject stack wa ca).bins stack wb (p.inject stack wa ca).size) (p.data ++ ca ++ cb)
    = Package.mk p.len (tableWith p.bins stack (wa ++ wb) p.size) (p.data ++ (ca ++ cb))
  rw [hbins, hdata]

/-- No gap comes about. -/
theorem GapFree.inject {p : Package} (hfree : p.GapFree) (stack : StackRecs) {ws : List Wobj} (cs : List UInt8)
    (hroom : p.bins.length + ws.length ≤ MAX_PARTITION_CNT) : (p.inject stack ws cs).GapFree := by
  obtain ⟨b, rest, hbins, hfirst⟩ := hfree
  refine ⟨b.shift ws.length, rest.map (FwpkgBinInfo.shift ws.length) ++
    newBins (stack.1.drop p.bins.length) ws (p.size + binInfoSize * ws.length), ?_, ?_⟩
  · show tableWith p.bins stack ws p.size = _
    rw [tableWith, hbins, List.map_cons, List.cons_append]
  · rw [tableEnd_inject stack cs hroom, ← hfirst]
    refine (UInt32.toNat_ofNat' ..).trans (Nat.mod_eq_of_lt ?_)
    rw [hfirst]
    unfold tableEnd binsEnd headerSize binInfoSize
    unfold MAX_PARTITION_CNT at hroom
    omega

theorem packageOf_bytes (p : Package) : packageOf p.bytes p.header p.bins = p := by
  have hdata := p.drop_tableEnd
  unfold packageOf
  show Package.mk p.len p.bins (p.bytes.drop p.tableEnd) = p
  rw [hdata]

end Package

/-! ## Runs -/

/-- The files that the arguments name are the same on both hosts. -/
structure SameFiles (h h' : Host) (args : List CStr) (wobjs : List Wobj) : Prop where
  stat : ∀ arg ∈ args, h'.stat (beforeAt arg) = h.stat (beforeAt arg)
  fopen : ∀ w ∈ wobjs, h'.fopen (basenameCut w.name) = h.fopen (basenameCut w.name)

section

variable {h h' : Host} {args : List CStr} {wobjs : List Wobj}

theorem parseWobj_same {arg : CStr} (hstat : h'.stat (beforeAt arg) = h.stat (beforeAt arg)) (bare : Bool) :
    parseWobj h' bare arg = parseWobj h bare arg := by
  unfold parseWobj
  rw [hstat]

theorem mapM_parseWobj_same : ∀ {args : List CStr}, (∀ arg ∈ args, h'.stat (beforeAt arg) = h.stat (beforeAt arg)) →
    args.mapM (parseWobj h' false) = args.mapM (parseWobj h false)
  | [], _           => rfl
  | arg :: args, hs => by
    obtain ⟨harg, hargs⟩ := List.forall_mem_cons.1 hs
    rw [List.mapM_cons, List.mapM_cons, parseWobj_same harg, mapM_parseWobj_same hargs]

theorem SameFiles.contents (hs : SameFiles h h' args wobjs) : contents h' wobjs = contents h wobjs := by
  unfold Ws63Flash.contents cutNames
  rw [List.flatMap_map, List.flatMap_map]
  refine List.flatMap_congr (fun w hw => ?_)
  unfold copied
  dsimp only
  rw [hs.fopen w hw]

theorem SameFiles.regular (hs : SameFiles h h' args wobjs) (hreg : ∀ w ∈ wobjs, Regular h w) :
    ∀ w ∈ wobjs, Regular h' w := by
  intro w hw
  obtain ⟨c, hc, hlen⟩ := hreg w hw
  exact ⟨c, (hs.fopen w hw).trans hc, hlen⟩

variable {fwpkg : CStr} {as bs : List CStr} {wa wb : List Wobj} {f : List UInt8} {header : FwpkgHeader}
  {bins : List FwpkgBinInfo}

/-- **Injecting twice is injecting once**: from what the first run wrote, the second makes the package that one run makes
of both lists, whatever the stack holds. -/
theorem verbInject_twice (stack : StackRecs) (hopen : h.fopen fwpkg = .ok f) (hacc : Accepted f header bins)
    (hcnt : 1 ≤ header.cnt.toNat) (hfirst : ∀ b, bins.head? = some b → b.offset.toNat = 12 + 52 * header.cnt.toNat)
    (ha : as.mapM (parseWobj h false) = .ok wa) (hb : bs.mapM (parseWobj h false) = .ok wb)
    (hroom : header.cnt.toNat + as.length + bs.length ≤ 15) (hreg : ∀ w ∈ wa ++ wb, Regular h w)
    (hbelow : f.length + 52 * (wa ++ wb).length + sizes (wa ++ wb) < 2 ^ 32) :
    ∃ out₁ out, Makes h stack (fwpkg :: as) out₁ ∧ Makes h stack (fwpkg :: (as ++ bs)) out ∧
      ∀ h' mid, h'.fopen mid = .ok out₁ → SameFiles h h' bs wb → Makes h' stack (mid :: bs) out := by
  have hlen := hacc.length_bins
  have hwa := length_mapM_parseWobj ha
  have hwb := length_mapM_parseWobj hb
  have hab : (as ++ bs).mapM (parseWobj h false) = .ok (wa ++ wb) := by
    rw [List.mapM_append, ha, hb]
    rfl
  have hrega : ∀ w ∈ wa, Regular h w := fun w hw => hreg w (List.mem_append_left _ hw)
  have hregb : ∀ w ∈ wb, Regular h w := fun w hw => hreg w (List.mem_append_right _ hw)
  have hfree := gapFree_of_first hacc hcnt hfirst
  have hsum : sizes wa < 2 ^ 32 := by
    rw [sizes_append] at hbelow
    omega
  have hi₁ : Injects h (fwpkg :: as) wa f header bins := ⟨ha, ⟨_, rfl, hopen⟩, hacc⟩
  have hi : Injects h (fwpkg :: (as ++ bs)) (wa ++ wb) f header bins := ⟨hab, ⟨_, rfl, hopen⟩, hacc⟩
  have hroom₁ : bins.length + wa.length ≤ MAX_PARTITION_CNT := by
    unfold MAX_PARTITION_CNT
    omega
  have hroom' : bins.length + (wa ++ wb).length ≤ MAX_PARTITION_CNT := by
    rw [List.length_append]
    unfold MAX_PARTITION_CNT
    omega
  generalize hp : packageOf f header bins = p at hfree
  have hbins : p.bins = bins := by rw [← hp]; rfl
  refine ⟨(p.inject stack wa (contents h wa)).bytes, (p.inject stack (wa ++ wb) (contents h (wa ++ wb))).bytes, ?_, ?_, ?_⟩
  · subst hp
    exact hi₁.makes hfree hroom₁ (opened_of_regular hrega)
  · subst hp
    exact hi.makes hfree hroom' (opened_of_regular hreg)
  · intro h' mid hmid hs
    have hnext : (p.inject stack wa (contents h wa)).bins.length = p.bins.length + wa.length :=
      tableWith_length (by rw [hbins]; exact hroom₁) _
    have hmax : (p.inject stack wa (contents h wa)).bins.length < MAX_PARTITION_CNT := by
      rw [hnext, hbins]
      unfold MAX_PARTITION_CNT
      omega
    have hi₂ : Injects h' (mid :: bs) wb (p.inject stack wa (contents h wa)).bytes
        (p.inject stack wa (contents h wa)).header (p.inject stack wa (contents h wa)).bins :=
      ⟨(mapM_parseWobj_same hs.stat).trans hb, ⟨_, rfl, hmid⟩, Package.accepted hmax⟩
    have hfree₂ := hfree.inject stack (contents h wa) (by rw [hbins]; exact hroom₁)
    have hroom₂ : (p.inject stack wa (contents h wa)).bins.length + wb.length ≤ MAX_PARTITION_CNT := by
      rw [hnext, hbins, Nat.add_assoc, ← List.length_append]
      exact hroom'
    have hmakes : Makes h' stack (mid :: bs) _ :=
      hi₂.makes (by rw [Package.packageOf_bytes]; exact hfree₂) hroom₂ (opened_of_regular (hs.regular hregb))
    rw [Package.packageOf_bytes] at hmakes
    have hcontents : (cutNames wb).flatMap (copied h') = contents h wb := hs.contents
    rw [hcontents, Package.inject_inject p stack (contents h wb) (by rw [hbins]; exact hroom') hsum
      (contents_length hrega), ← contents_append] at hmakes
    exact hmakes

end

/-- The same file twice, over a file in between. -/
theorem verbInject_twice_sample : ∃ out₁ out,
    Makes (hostWith (injectTable samplePkg)) zeroStack [fileP, atAddr fileC false 0] out₁ ∧
    Makes (hostWith (injectTable samplePkg)) zeroStack [fileP, atAddr fileC false 0, atAddr fileC false 0] out ∧
    Makes (hostWith ((fileA, out₁) :: injectTable samplePkg)) zeroStack [fileA, atAddr fileC false 0] out := by
  have hopen : (hostWith (injectTable samplePkg)).fopen fileP = .ok samplePkg := rfl
  have hparse : [atAddr fileC false 0].mapM (parseWobj (hostWith (injectTable samplePkg)) false) = .ok [⟨fileC, 1, 0⟩] :=
    injectArgs_parsed samplePkg
  have hfirst : ∀ b, sampleBins.head? = some b → b.offset.toNat = 12 + 52 * sampleHeader.cnt.toNat := by
    intro b hb
    cases hb
    rfl
  have hreg : ∀ w ∈ [(⟨fileC, 1, 0⟩ : Wobj)] ++ [⟨fileC, 1, 0⟩], Regular (hostWith (injectTable samplePkg)) w := by
    intro w hw
    rw [List.mem_replicate.1 (show w ∈ List.replicate 2 (⟨fileC, 1, 0⟩ : Wobj) from hw) |>.2]
    exact ⟨[0x43], rfl, rfl⟩
  obtain ⟨out₁, out, h₁, h₂, hnext⟩ := verbInject_twice zeroStack hopen samplePkg_accepted (by decide) hfirst hparse
    hparse (by decide) hreg (by decide +kernel)
  refine ⟨out₁, out, h₁, h₂, hnext _ fileA rfl ⟨fun arg harg => ?_, fun w hw => ?_⟩⟩
  · rw [List.mem_singleton.1 harg]
    rfl
  · rw [List.mem_singleton.1 hw]
    rfl

end Ws63Flash
