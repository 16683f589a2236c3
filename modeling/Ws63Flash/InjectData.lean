import Ws63Flash.InjectAccepted
/-!
# InjectData — do the records keep their bytes?

Every record's offset grows by the size of the new records, while the data is copied from the first record's offset to
the end of the new table.  When the first record does not start at the end of the old table, the data is that much too
far to the front, and a record keeps its bytes only where they recur at that distance (`verbInject_keeps_iff`).
-/
namespace Ws63Flash

open Octets Proc Language

section

variable {h : Host} {args : List CStr} {wobjs : List Wobj} {infw : List UInt8} {header : FwpkgHeader}
  {bins : List FwpkgBinInfo}

/-- The end of the table of a package. -/
def binsEnd (bins : List FwpkgBinInfo) : Nat := headerSize + binInfoSize * bins.length

/-- The records' data lie inside the file and after the table, and the output stays below 2^32 bytes. -/
structure Fits (infw : List UInt8) (bins : List FwpkgBinInfo) (wobjs : List Wobj) : Prop where
  inside : ∀ b ∈ bins, binsEnd bins ≤ b.offset.toNat ∧ b.offset.toNat + b.length.toNat ≤ infw.length
  below : infw.length + binInfoSize * wobjs.length + (wobjs.map Wobj.length).sum < 2 ^ 32

/-- Each record of the package has its bytes at its new offset in the output. -/
def KeepsRecords (infw : List UInt8) (bins : List FwpkgBinInfo) (out : List UInt8) : Prop :=
  ∀ i (hi : i < bins.length), (recordAt out i).length = bins[i].length ∧ (recordAt out i).data out = bins[i].data infw

/-- Whenever `verb_inject` returns 0 the records of the package have kept their bytes. -/
def InjectKeeps (h : Host) (args : List CStr) (infw : List UInt8) (bins : List FwpkgBinInfo) : Prop :=
  ∀ (io : FileIo) (stack : StackRecs) (fuel : Nat), (verbInject fuel h stack args io []).1 = .ret 0 →
    KeepsRecords infw bins (output (verbInject fuel h stack args io []).2)

/-- What lies between the table and the first record's data. -/
def gap (bins : List FwpkgBinInfo) : Nat :=
  match bins with
  | []       => 0
  | bin :: _ => bin.offset.toNat - binsEnd bins

/-- The bytes of each record recur the gap further on in the package and the files after it. -/
def Recurs (h : Host) (infw : List UInt8) (bins : List FwpkgBinInfo) (wobjs : List Wobj) : Prop :=
  ∀ b ∈ bins, slice (infw ++ wobjs.flatMap (copied h)) (b.offset.toNat + gap bins) b.length.toNat = b.data infw

theorem Fits.recurs {ws : List Wobj} (hfits : Fits infw bins wobjs) (hgap : gap bins = 0) : Recurs h infw bins ws := by
  intro b hb
  obtain ⟨_, hin⟩ := hfits.inside b hb
  rw [hgap, Nat.add_zero, slice, List.drop_append_of_le_length (by omega),
    List.take_append_of_le_length (by rw [List.length_drop]; omega)]
  rfl

theorem Fits.shift_offset (hfits : Fits infw bins wobjs) {b : FwpkgBinInfo} (hb : b ∈ bins) :
    (b.shift wobjs.length).offset.toNat = b.offset.toNat + binInfoSize * wobjs.length := by
  obtain ⟨_, hin⟩ := hfits.inside b hb
  have hbelow := hfits.below
  show (UInt32.ofNat _).toNat = _
  rw [UInt32.toNat_ofNat', Nat.mod_eq_of_lt (by omega)]

/-- The padding loop runs from the first record's new offset to the end of the new table. -/
theorem InjectBuf.Extends.padding_eq {buf : InjectBuf} {n : Nat} {bin : FwpkgBinInfo} {rest : List FwpkgBinInfo}
    (hext : buf.Extends header (bin :: rest) n) :
    buf.padding = List.replicate (binsEnd (bin :: rest) + binInfoSize * n - (bin.shift n).offset.toNat) 0 := by
  obtain ⟨news, hlen, hrecs⟩ := hext.recs
  have hcnt := hext.cnt
  have hpos : 0 < buf.head.cnt.toNat := by rw [hcnt, List.length_cons]; omega
  have hfirst : buf.at 0 partition_pos = bin.shift n := by
    have htake : (buf.recs.take buf.head.cnt.toNat)[0]? = some (bin.shift n) := by
      rw [hrecs]
      rfl
    rw [List.getElem?_take_of_lt hpos, List.getElem?_eq_getElem (by rw [buf.sized]; exact partition_pos)] at htake
    exact Option.some.inj htake
  unfold InjectBuf.padding InjectBuf.tableEnd binsEnd
  rw [hfirst, hcnt, Nat.mul_add, Nat.add_assoc]

/-- No zero bytes are written: the first record's new offset is not before the end of the new table. -/
theorem InjectBuf.Extends.padding_nil {buf : InjectBuf} (hext : buf.Extends header bins wobjs.length)
    (hfits : Fits infw bins wobjs) (hbins : bins ≠ []) : buf.padding = [] := by
  obtain ⟨bin, bins, rfl⟩ := List.exists_cons_of_ne_nil hbins
  have htable := (hfits.inside bin List.mem_cons_self).1
  rw [hext.padding_eq, hfits.shift_offset List.mem_cons_self, Nat.sub_eq_zero_of_le (by omega)]
  rfl

/-- **Where a record's bytes come from**: the gap further on than they were. -/
theorem InjectBuf.Extends.slice_injected {buf : InjectBuf} (hext : buf.Extends header bins wobjs.length)
    (hfits : Fits infw bins wobjs) {b : FwpkgBinInfo} (hb : b ∈ bins) (ws : List Wobj) :
    (b.shift wobjs.length).data (injected h infw bins ws buf)
      = slice (infw ++ ws.flatMap (copied h)) (b.offset.toNat + gap bins) b.length.toNat := by
  have hbins : bins ≠ [] := List.ne_nil_of_mem hb
  have hpad := hext.padding_nil hfits hbins
  obtain ⟨bin, bins, rfl⟩ := List.exists_cons_of_ne_nil hbins
  obtain ⟨hlow, _⟩ := hfits.inside b hb
  obtain ⟨hfirst, hin⟩ := hfits.inside bin List.mem_cons_self
  have htable : buf.table.length = binsEnd (bin :: bins) + binInfoSize * wobjs.length := by
    unfold InjectBuf.table binsEnd
    rw [List.length_append, flatMap_bytes_length, hext.taken, FwpkgHeader.bytes_length, hext.cnt, Nat.mul_add]
    omega
  have hrest : packageData infw (bin :: bins) ++ ws.flatMap (copied h)
      = (infw ++ ws.flatMap (copied h)).drop bin.offset.toNat :=
    (List.drop_append_of_le_length (by omega)).symm
  unfold FwpkgBinInfo.data injected
  rw [hfits.shift_offset hb, hpad, List.nil_append, hrest, slice_append_right (by rw [htable]; omega), slice_drop, htable]
  show slice _ _ b.length.toNat = slice _ (_ + (bin.offset.toNat - binsEnd (bin :: bins))) _
  congr 1
  omega

theorem InjectBuf.Extends.keepsRecords_iff {buf : InjectBuf} (hext : buf.Extends header bins wobjs.length)
    (hfits : Fits infw bins wobjs) (ws : List Wobj) :
    KeepsRecords infw bins (injected h infw bins ws buf) ↔ Recurs h infw bins ws := by
  have hrecord : ∀ i (hi : i < bins.length), recordAt (injected h infw bins ws buf) i = bins[i].shift wobjs.length := by
    intro i hi
    obtain ⟨news, hlen, hrecs⟩ := hext.recs
    have hi' : i < (buf.recs.take buf.head.cnt.toNat).length := by rw [hext.taken, hext.cnt]; omega
    unfold injected InjectBuf.table
    rw [recordAt_append _ _ _ hi']
    simp only [hrecs]
    rw [List.getElem_append_left (by rw [List.length_map]; exact hi), List.getElem_map]
  constructor
  · intro hkeeps b hb
    obtain ⟨i, hi, rfl⟩ := List.getElem_of_mem hb
    have := (hkeeps i hi).2
    rwa [hrecord i hi, hext.slice_injected hfits hb] at this
  · intro hrecurs i hi
    rw [hrecord i hi, hext.slice_injected hfits (List.getElem_mem hi)]
    exact ⟨rfl, hrecurs _ (List.getElem_mem hi)⟩

theorem Injects.keeps_iff (hi : Injects h args wobjs infw header bins) (hbins : bins ≠ [])
    (hroom : bins.length + wobjs.length ≤ MAX_PARTITION_CNT) (hfits : Fits infw bins wobjs)
    (hopen : Opened h (cutNames wobjs)) :
    InjectKeeps h args infw bins ↔ Recurs h infw bins (cutNames wobjs) := by
  constructor
  · intro hkeeps
    obtain ⟨buf, hbuilds, hout⟩ := hi.output_eq hroom zeroStack
    have hext := hbuilds.toExtends
    obtain ⟨fuel, hgood⟩ := hi.good hroom zeroStack
    have hret : (verbInject fuel h zeroStack args goodIo []).1 = .ret 0 := hgood.trans (if_pos ⟨hbins, hopen⟩)
    have := hkeeps goodIo zeroStack fuel hret
    rw [hout goodIo fuel hret] at this
    exact (hext.keepsRecords_iff hfits _).1 this
  · intro hrecurs io stack fuel hret
    obtain ⟨buf, hbuilds, hout⟩ := hi.output_eq hroom stack
    have hext := hbuilds.toExtends
    rw [hout io fuel hret]
    exact (hext.keepsRecords_iff hfits _).2 hrecurs

/-- **When the records keep their bytes**: when the first of them starts where the table ends, or the bytes recur at the
distance it does not. -/
theorem verbInject_keeps_iff (hi : Injects h args wobjs infw header bins) (hbins : 1 ≤ header.cnt.toNat)
    (hle : header.cnt.toNat + wobjs.length ≤ 15) (hfits : Fits infw bins wobjs) (hopen : Opened h (cutNames wobjs)) :
    InjectKeeps h args infw bins ↔ gap bins = 0 ∨ Recurs h infw bins (cutNames wobjs) := by
  have hcnt := hi.accepted.length_bins
  have hroom : bins.length + wobjs.length ≤ MAX_PARTITION_CNT := by
    unfold MAX_PARTITION_CNT
    omega
  have hne : bins ≠ [] := List.ne_nil_of_length_pos (by omega)
  rw [hi.keeps_iff hne hroom hfits hopen]
  exact ⟨Or.inr, fun h => h.elim hfits.recurs id⟩

end

theorem verbInject_keeps_sample :
    InjectKeeps (hostWith (injectTable samplePkg)) injectArgs samplePkg sampleBins :=
  (verbInject_keeps_iff ⟨injectArgs_parsed _, ⟨_, rfl, rfl⟩, samplePkg_accepted⟩ (by decide) (by decide)
    ⟨by decide +kernel, by decide +kernel⟩ (by decide)).2 (Or.inl (by decide))

def gapBins : List FwpkgBinInfo := [sampleBin 0x61 65 0 0]

def gapHeader : FwpkgHeader := ⟨0xefbeaddf, 41464, 1, 66⟩

/-- A byte lies between the table and the loaderboot. -/
def gapPkg : List UInt8 := gapHeader.bytes ++ gapBins.flatMap FwpkgBinInfo.bytes ++ [0, 0x41]

theorem gapPkg_accepted : Accepted gapPkg gapHeader gapBins := ⟨by decide +kernel, by decide +kernel⟩

/-- **After a gap** the loaderboot's new offset leads to the file after it. -/
theorem verbInject_loses_gap : ¬ InjectKeeps (hostWith (injectTable gapPkg)) injectArgs gapPkg gapBins := by
  have hi : Injects (hostWith (injectTable gapPkg)) injectArgs _ gapPkg gapHeader gapBins :=
    ⟨injectArgs_parsed _, ⟨_, rfl, rfl⟩, gapPkg_accepted⟩
  rw [hi.keeps_iff (List.cons_ne_nil _ _) (by decide) ⟨by decide +kernel, by decide +kernel⟩ (by decide)]
  intro hrecurs
  exact absurd (hrecurs _ (List.mem_singleton.2 rfl)) (by decide +kernel)

end Ws63Flash
