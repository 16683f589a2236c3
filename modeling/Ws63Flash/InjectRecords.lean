import Mathlib.Data.Set.Lattice
import Mathlib.Order.CompletePartialOrder
import Mathlib.Order.Interval.Set.Disjoint
import Ws63Flash.Package
/-!
# InjectRecords — the records of the files

The offsets are counted from the size of the package and the sizes that `stat` gave, the files are copied one after the
other: in a package without a gap each new record points to its file (`verbInject_records`).
-/
namespace Ws63Flash

open Octets Proc

/-- The file can be opened and has the size that `stat` gave. -/
def Regular (h : Host) (w : Wobj) : Prop := ∃ c, h.fopen (basenameCut w.name) = .ok c ∧ c.length = w.length

/-- The sizes of the files. -/
def sizes (ws : List Wobj) : Nat := (ws.map Wobj.length).sum

/-- The bytes a record points to. -/
def FwpkgBinInfo.range (b : FwpkgBinInfo) : Set Nat := Set.Ico b.offset.toNat (b.offset.toNat + b.length.toNat)

theorem sizes_cons (w : Wobj) (ws : List Wobj) : sizes (w :: ws) = w.length + sizes ws := by
  rw [sizes, List.map_cons, List.sum_cons]
  rfl

theorem sizes_append (ws ws' : List Wobj) : sizes (ws ++ ws') = sizes ws + sizes ws' := by
  rw [sizes, List.map_append, List.sum_append]
  rfl

theorem length_le_sizes {ws : List Wobj} {w : Wobj} (hw : w ∈ ws) : w.length ≤ sizes ws :=
  List.single_le_sum (fun _ _ => Nat.zero_le _) _ (List.mem_map.2 ⟨w, hw, rfl⟩)

theorem sizes_take_succ {ws : List Wobj} {j : Nat} {w : Wobj} (hw : ws[j]? = some w) :
    sizes (ws.take (j + 1)) = sizes (ws.take j) + w.length := by
  rw [List.take_add_one, hw, sizes_append]
  rfl

theorem sizes_take_mono (ws : List Wobj) {i j : Nat} (h : i ≤ j) : sizes (ws.take i) ≤ sizes (ws.take j) := by
  obtain ⟨n, rfl⟩ := Nat.exists_eq_add_of_le h
  rw [List.take_add, sizes_append]
  exact Nat.le_add_right _ _

theorem sizes_take_le (ws : List Wobj) (j : Nat) : sizes (ws.take j) ≤ sizes ws := by
  have hsplit := sizes_append (ws.take j) (ws.drop j)
  rw [List.take_append_drop] at hsplit
  omega

/-- The sizes as the records store them, in 32 bits. -/
def storedSizes (ws : List Wobj) : Nat := (ws.map (fun w => w.length % 2 ^ 32)).sum

theorem storedSizes_cons (w : Wobj) (ws : List Wobj) : storedSizes (w :: ws) = w.length % 2 ^ 32 + storedSizes ws := by
  rw [storedSizes, List.map_cons, List.sum_cons]
  rfl

/-- While 32 bits hold the sizes. -/
theorem storedSizes_eq : ∀ {ws : List Wobj}, sizes ws < 2 ^ 32 → storedSizes ws = sizes ws
  | [], _      => rfl
  | w :: ws, h => by
    rw [sizes_cons] at h
    rw [storedSizes_cons, sizes_cons, storedSizes_eq (by omega), Nat.mod_eq_of_lt (by omega)]

theorem toNat_length {old : FwpkgBinInfo} {w : Wobj} {o : Nat} (h : w.length < 2 ^ 32) :
    (newBin old w o).length.toNat = w.length := by
  show (UInt32.ofNat w.length).toNat = _
  rw [UInt32.toNat_ofNat', Nat.mod_eq_of_lt h]

/-- **The record of the file `j`**: its data begins behind the files before it, of the sizes in their records. -/
theorem newBins_getElem? : ∀ (olds : List FwpkgBinInfo) (ws : List Wobj) (o : Nat), ws.length ≤ olds.length →
    ∀ (j : Nat) (w : Wobj), ws[j]? = some w → ∃ old, olds[j]? = some old ∧
      (newBins olds ws o)[j]? = some (newBin old w (o + storedSizes (ws.take j)))
  | [], [], _, _, j, w, hw                   => by cases hw
  | old :: olds, [], _, _, j, w, hw          => by cases hw
  | old :: olds, w :: ws, o, _, 0, w', hw     => by
    cases hw
    exact ⟨old, rfl, rfl⟩
  | old :: olds, w :: ws, o, hle, j + 1, w', hw => by
    obtain ⟨old', hold, hnew⟩ := newBins_getElem? olds ws (o + (newBin old w o).length.toNat)
      (Nat.le_of_succ_le_succ hle) j w' hw
    have hlen : (newBin old w o).length.toNat = w.length % 2 ^ 32 := UInt32.toNat_ofNat' ..
    refine ⟨old', hold, ?_⟩
    rw [newBins, List.getElem?_cons_succ, List.take_succ_cons, storedSizes_cons, ← Nat.add_assoc, ← hlen]
    exact hnew

/-! ## The files in the output -/

section

variable {h : Host} {args : List CStr} {wobjs : List Wobj} {f : List UInt8} {header : FwpkgHeader}
  {bins : List FwpkgBinInfo} {stack : StackRecs}

theorem Regular.copied {w : Wobj} (hr : Regular h w) :
    h.fopen (basenameCut w.name) = .ok (copied h { w with name := basenameCut w.name }) ∧
      (copied h { w with name := basenameCut w.name }).length = w.length := by
  obtain ⟨c, hc, hlen⟩ := hr
  unfold Ws63Flash.copied
  simp only [hc]
  rw [← hlen, List.take_length]
  exact ⟨rfl, rfl⟩

theorem opened_of_regular (hr : ∀ w ∈ wobjs, Regular h w) : Opened h (cutNames wobjs) := by
  intro w hw
  obtain ⟨w', hw', rfl⟩ := List.mem_map.1 hw
  obtain ⟨c, hc, _⟩ := hr w' hw'
  show (h.fopen (basenameCut w'.name)).isOk = true
  rw [hc]
  rfl

/-- The bytes of the files. -/
def contents (h : Host) (ws : List Wobj) : List UInt8 := (cutNames ws).flatMap (copied h)

theorem contents_cons (w : Wobj) (ws : List Wobj) :
    contents h (w :: ws) = copied h { w with name := basenameCut w.name } ++ contents h ws := rfl

theorem contents_append (ws ws' : List Wobj) : contents h (ws ++ ws') = contents h ws ++ contents h ws' := by
  unfold contents cutNames
  rw [List.map_append, List.flatMap_append]

theorem contents_length : ∀ {ws : List Wobj}, (∀ w ∈ ws, Regular h w) → (contents h ws).length = sizes ws
  | [], _      => rfl
  | w :: ws, hr => by
    have ih := contents_length (fun w' hw => hr w' (List.mem_cons_of_mem _ hw))
    rw [contents_cons, List.length_append, ih, (hr w List.mem_cons_self).copied.2, sizes_cons]

/-- Each file lies behind the files before it. -/
theorem slice_contents {ws : List Wobj} (hr : ∀ w ∈ ws, Regular h w) {j : Nat} {w : Wobj} (hw : ws[j]? = some w) :
    h.fopen (basenameCut w.name) = .ok (slice (contents h ws) (sizes (ws.take j)) w.length) := by
  have hmem : w ∈ ws := List.mem_of_getElem? hw
  obtain ⟨hopen, hlen⟩ := (hr w hmem).copied
  obtain ⟨hj, hget⟩ := List.getElem?_eq_some_iff.1 hw
  have hsplit : contents h ws = contents h (ws.take j) ++ copied h { w with name := basenameCut w.name } ++
      contents h (ws.drop (j + 1)) := by
    rw [List.append_assoc, ← contents_cons, ← contents_append, ← hget, List.getElem_cons_drop, List.take_append_drop]
  have hpre : (contents h (ws.take j)).length = sizes (ws.take j) :=
    contents_length (fun w' hw' => hr w' (List.mem_of_mem_take hw'))
  rw [hopen, hsplit, slice_append_mid _ hpre hlen]

theorem gapFree_of_first (ha : Accepted f header bins) (hcnt : 1 ≤ header.cnt.toNat)
    (hfirst : ∀ b, bins.head? = some b → b.offset.toNat = 12 + 52 * header.cnt.toNat) :
    (packageOf f header bins).GapFree := by
  have hlen := ha.length_bins
  cases hb : bins with
  | nil => rw [hb] at hlen; simp only [List.length_nil] at hlen; omega
  | cons b rest =>
    refine ⟨b, rest, rfl, ?_⟩
    rw [hfirst b (by rw [hb]; rfl), ← hlen, hb]
    rfl

/-- The record of a file in the table. -/
theorem tableWith_getElem? (hroom : bins.length + wobjs.length ≤ MAX_PARTITION_CNT) (stack : StackRecs) (size : Nat)
    {j : Nat} {w : Wobj} (hw : wobjs[j]? = some w) : ∃ old, stack.1[bins.length + j]? = some old ∧
      (tableWith bins stack wobjs size)[bins.length + j]?
        = some (newBin old w (size + binInfoSize * wobjs.length + storedSizes (wobjs.take j))) := by
  have hdrop : wobjs.length ≤ (stack.1.drop bins.length).length := by
    rw [List.length_drop, stack.2]
    omega
  obtain ⟨old, hold, hnew⟩ := newBins_getElem? (stack.1.drop bins.length) wobjs
    (size + binInfoSize * wobjs.length) hdrop j w hw
  rw [List.getElem?_drop] at hold
  refine ⟨old, hold, ?_⟩
  rw [tableWith, List.getElem?_append_right (by rw [List.length_map]; omega), List.length_map, Nat.add_sub_cancel_left]
  exact hnew

/-- The record `i` is in the output: it returned 0, or wrote as far. -/
def HasRecord (o : Out Int) (out : List UInt8) (i : Nat) : Prop :=
  o = .ret 0 ∨ headerSize + binInfoSize * (i + 1) ≤ out.length

/-- **The record of a file**, once it is in the output. -/
theorem Injects.recordAt (hi : Injects h args wobjs f header bins) {fuel : Nat} {io : FileIo} {j : Nat} {w : Wobj}
    (hw : wobjs[j]? = some w)
    (hrec : HasRecord (verbInject fuel h stack args io []).1 (output (verbInject fuel h stack args io []).2)
      (bins.length + j)) :
    ∃ old, stack.1[bins.length + j]? = some old ∧
      recordAt (output (verbInject fuel h stack args io []).2) (bins.length + j)
        = newBin old w (f.length + binInfoSize * wobjs.length + storedSizes (wobjs.take j)) := by
  by_cases hroom : bins.length + wobjs.length ≤ MAX_PARTITION_CNT
  · obtain ⟨buf, hbuilds, hrun⟩ := hi.run_eq hroom stack
    have hemits := writeInjected_emits fuel h f bins (cutNames wobjs) buf io []
    rw [← hrun fuel] at hemits
    have hwhole : (verbInject fuel h stack args io []).1 = .ret 0 →
        output (verbInject fuel h stack args io []).2 = injected h f bins (cutNames wobjs) buf :=
      fun hret => hemits.1 0 hret rfl
    have hpre : output (verbInject fuel h stack args io []).2 <+: injected h f bins (cutNames wobjs) buf :=
      Language.mem_prefixes_word.1 hemits.2
    obtain ⟨old, hold, hget⟩ := tableWith_getElem? hroom stack f.length hw
    obtain ⟨hlt, hget⟩ := List.getElem?_eq_some_iff.1 hget
    generalize verbInject fuel h stack args io [] = run at hrec hwhole hpre ⊢
    have htable : injected h f bins (cutNames wobjs) buf = buf.head.bytes ++
        (tableWith bins stack wobjs f.length).flatMap FwpkgBinInfo.bytes ++
        (buf.padding ++ (packageData f bins ++ (cutNames wobjs).flatMap (copied h))) := by
      rw [injected, InjectBuf.table, hbuilds.table]
    obtain ⟨rest, hrest⟩ := hpre
    -- as far as the record, what is written is the table
    have hlen : headerSize + binInfoSize * (bins.length + j) + binInfoSize ≤ (output run.2).length := by
      rcases hrec with hret | hlen
      · rw [hwhole hret, htable, List.length_append, List.length_append, flatMap_bytes_length, FwpkgHeader.bytes_length]
        have hmul := Nat.mul_le_mul_left binInfoSize (Nat.succ_le_of_lt hlt)
        rw [Nat.mul_succ] at hmul
        omega
      · rw [Nat.mul_succ] at hlen
        omega
    refine ⟨old, hold, ?_⟩
    rw [Ws63Flash.recordAt, ← slice_append_left (b := rest) hlen]
    have hsame := recordAt_append buf.head _ (buf.padding ++ (packageData f bins ++ (cutNames wobjs).flatMap (copied h)))
      hlt
    rw [← htable, ← hrest, hget] at hsame
    exact hsame
  · rw [hi.run_overflow (Nat.lt_of_not_le hroom)] at hrec
    rcases hrec with hret | hlen
    · cases hret
    · have hnone : (output (halt (α := Int) .undefined io []).2).length = 0 := rfl
      rw [hnone] at hlen
      unfold headerSize at hlen
      omega

theorem tableEnd_inject {p : Package} {ws : List Wobj} (stack : StackRecs) (cs : List UInt8)
    (hroom : p.bins.length + ws.length ≤ MAX_PARTITION_CNT) :
    (p.inject stack ws cs).tableEnd = p.tableEnd + binInfoSize * ws.length := by
  show binsEnd (tableWith p.bins stack ws p.size) = binsEnd p.bins + _
  unfold binsEnd
  rw [tableWith_length hroom, Nat.mul_add, Nat.add_assoc]

theorem inject_size {p : Package} {ws : List Wobj} (stack : StackRecs) (cs : List UInt8)
    (hroom : p.bins.length + ws.length ≤ MAX_PARTITION_CNT) :
    (p.inject stack ws cs).size = p.size + binInfoSize * ws.length + cs.length := by
  have hdata : (p.inject stack ws cs).data.length = p.data.length + cs.length := List.length_append
  unfold Package.size
  rw [tableEnd_inject stack cs hroom, hdata]
  omega

/-- The data of a package into which files are put. -/
theorem slice_inject {p : Package} {ws : List Wobj} (stack : StackRecs) (cs : List UInt8)
    (hroom : p.bins.length + ws.length ≤ MAX_PARTITION_CNT) (off n : Nat) :
    slice (p.inject stack ws cs).bytes (p.size + binInfoSize * ws.length + off) n = slice cs off n := by
  have hend := tableEnd_inject stack cs hroom
  have hsplit : slice (p.inject stack ws cs).bytes (p.size + binInfoSize * ws.length + off) n
      = slice (p.data ++ cs) (p.data.length + off) n := by
    have hdrop := (p.inject stack ws cs).drop_tableEnd
    rw [show p.size + binInfoSize * ws.length + off = (p.inject stack ws cs).tableEnd + (p.data.length + off) by
      rw [hend, Package.size]; omega, ← slice_drop, hdrop]
    rfl
  rw [hsplit, slice_append_right (Nat.le_add_right _ _), Nat.add_sub_cancel_left]

theorem slice_inject_data {p : Package} {ws : List Wobj} (stack : StackRecs) (cs : List UInt8)
    (hroom : p.bins.length + ws.length ≤ MAX_PARTITION_CNT) :
    slice (p.inject stack ws cs).bytes (p.tableEnd + binInfoSize * ws.length) p.data.length = p.data := by
  rw [← tableEnd_inject stack cs hroom, ← Nat.add_zero (p.inject stack ws cs).tableEnd, ← slice_drop,
    Package.drop_tableEnd]
  exact List.take_left

end

/-! ## The records in the output -/

section

variable {h : Host} {args : List CStr} {wobjs : List Wobj} {f : List UInt8} {header : FwpkgHeader}
  {bins : List FwpkgBinInfo} {p : Package}

/-- Records and files fit: the table its room, and the output 32 bits. -/
structure Package.Takes (p : Package) (ws : List Wobj) : Prop where
  room : p.bins.length + ws.length ≤ MAX_PARTITION_CNT
  below : p.size + binInfoSize * ws.length + sizes ws < 2 ^ 32

/-- The record of the file `j`. -/
theorem Package.Takes.recordAt (hp : p.Takes wobjs) (stack : StackRecs) (cs : List UInt8) {j : Nat} {w : Wobj}
    (hw : wobjs[j]? = some w) : ∃ old, recordAt (p.inject stack wobjs cs).bytes (p.bins.length + j)
      = newBin old w (p.size + binInfoSize * wobjs.length + sizes (wobjs.take j)) := by
  have hbelow := hp.below
  have htake := sizes_take_le wobjs j
  obtain ⟨old, _, hnew⟩ := tableWith_getElem? hp.room stack p.size hw
  rw [storedSizes_eq (by omega)] at hnew
  obtain ⟨hlt, heq⟩ := List.getElem?_eq_some_iff.1 hnew
  exact ⟨old, (recordAt_append (p.inject stack wobjs cs).header _ _ hlt).trans heq⟩

/-- Its fields, and the place of its data. -/
theorem Package.Takes.fields (hp : p.Takes wobjs) (stack : StackRecs) (cs : List UInt8) {j : Nat} {w : Wobj}
    (hw : wobjs[j]? = some w) (haddr : w.addr < 2 ^ 32) :
    let r := Ws63Flash.recordAt (p.inject stack wobjs cs).bytes (p.bins.length + j)
    r.type2 = 1 ∧ r.burnAddr.toNat = w.addr ∧ r.burnSize.toNat = w.length := by
  have hbelow := hp.below
  have hlen := length_le_sizes (List.mem_of_getElem? hw)
  obtain ⟨old, hold⟩ := hp.recordAt stack cs hw
  dsimp only
  rw [hold]
  exact ⟨rfl, (UInt32.toNat_ofNat' ..).trans (Nat.mod_eq_of_lt haddr),
    (UInt32.toNat_ofNat' ..).trans (Nat.mod_eq_of_lt (by omega))⟩

theorem Package.Takes.place (hp : p.Takes wobjs) (stack : StackRecs) (cs : List UInt8) {j : Nat} {w : Wobj}
    (hw : wobjs[j]? = some w) :
    let r := Ws63Flash.recordAt (p.inject stack wobjs cs).bytes (p.bins.length + j)
    r.offset.toNat = p.size + binInfoSize * wobjs.length + sizes (wobjs.take j) ∧ r.length.toNat = w.length := by
  have hbelow := hp.below
  have htake := sizes_take_le wobjs j
  have hlen := length_le_sizes (List.mem_of_getElem? hw)
  obtain ⟨old, hold⟩ := hp.recordAt stack cs hw
  dsimp only
  rw [hold]
  exact ⟨(UInt32.toNat_ofNat' ..).trans (Nat.mod_eq_of_lt (by omega)), toNat_length (by omega)⟩

/-- Its data is the file. -/
theorem Package.Takes.data (hp : p.Takes wobjs) (stack : StackRecs) (hreg : ∀ w ∈ wobjs, Regular h w) {j : Nat} {w : Wobj}
    (hw : wobjs[j]? = some w) :
    h.fopen (basenameCut w.name) = .ok ((Ws63Flash.recordAt (p.inject stack wobjs (contents h wobjs)).bytes
      (p.bins.length + j)).data (p.inject stack wobjs (contents h wobjs)).bytes) := by
  obtain ⟨hoff, hlen⟩ := hp.place stack (contents h wobjs) hw
  unfold FwpkgBinInfo.data
  rw [hoff, hlen, slice_inject stack (contents h wobjs) hp.room]
  exact slice_contents hreg hw

/-- **The files lie one behind the other.** -/
theorem Package.Takes.disjoint (hp : p.Takes wobjs) (stack : StackRecs) (cs : List UInt8) {i j : Nat} (hij : i < j)
    (hj : j < wobjs.length) : Disjoint (Ws63Flash.recordAt (p.inject stack wobjs cs).bytes (p.bins.length + i)).range
      (Ws63Flash.recordAt (p.inject stack wobjs cs).bytes (p.bins.length + j)).range := by
  have hi' : wobjs[i]? = some wobjs[i] := List.getElem?_eq_getElem (by omega)
  have hj' : wobjs[j]? = some wobjs[j] := List.getElem?_eq_getElem hj
  obtain ⟨hioff, hilen⟩ := hp.place stack cs hi'
  obtain ⟨hjoff, hjlen⟩ := hp.place stack cs hj'
  have hmono := sizes_take_mono wobjs (show i + 1 ≤ j from hij)
  rw [sizes_take_succ hi'] at hmono
  unfold FwpkgBinInfo.range
  rw [hioff, hilen, hjoff, hjlen, Set.Ico_disjoint_Ico]
  omega

/-- **They lie behind the package.** -/
theorem Package.Takes.behind (hp : p.Takes wobjs) (stack : StackRecs) (cs : List UInt8) {j : Nat} (hj : j < wobjs.length) :
    Disjoint (Ws63Flash.recordAt (p.inject stack wobjs cs).bytes (p.bins.length + j)).range
      (Set.Iio (p.size + binInfoSize * wobjs.length)) := by
  obtain ⟨hoff, hlen⟩ := hp.place stack cs (List.getElem?_eq_getElem hj)
  unfold FwpkgBinInfo.range
  rw [hoff, hlen, Set.disjoint_left]
  intro k hk hlt
  have hlow := (Set.mem_Ico.1 hk).1
  have hhigh := Set.mem_Iio.1 hlt
  omega

/-- **The last one ends the output.** -/
theorem Package.Takes.last (hp : p.Takes wobjs) (stack : StackRecs) {cs : List UInt8} (hcs : cs.length = sizes wobjs) {j : Nat}
    (hj : j + 1 = wobjs.length) :
    (Ws63Flash.recordAt (p.inject stack wobjs cs).bytes (p.bins.length + j)).offset.toNat +
      (Ws63Flash.recordAt (p.inject stack wobjs cs).bytes (p.bins.length + j)).length.toNat
        = (p.inject stack wobjs cs).bytes.length := by
  have hj' : wobjs[j]? = some wobjs[j] := List.getElem?_eq_getElem (by omega)
  obtain ⟨hoff, hlen⟩ := hp.place stack cs hj'
  have hall := sizes_take_succ hj'
  rw [hj, List.take_length] at hall
  rw [hoff, hlen, Package.bytes_length, inject_size stack cs hp.room, hcs, hall, Nat.add_assoc]

/-- **The records of injected files**: each has its type, address and size, and points to its file; the files lie apart
from each other and behind the package, up to the end of the output. -/
theorem verbInject_records (stack : StackRecs) (hi : Injects h args wobjs f header bins) (hcnt : 1 ≤ header.cnt.toNat)
    (hfirst : ∀ b, bins.head? = some b → b.offset.toNat = 12 + 52 * header.cnt.toNat)
    (hroom : header.cnt.toNat + wobjs.length ≤ 15) (haddr : ∀ w ∈ wobjs, w.addr < 2 ^ 32)
    (hreg : ∀ w ∈ wobjs, Regular h w) (hbelow : f.length + 52 * wobjs.length + sizes wobjs < 2 ^ 32) :
    ∃ out, Makes h stack args out ∧
      (∀ j w, wobjs[j]? = some w → let r := recordAt out (header.cnt.toNat + j)
        r.type2 = 1 ∧ r.burnAddr.toNat = w.addr ∧ r.length.toNat = w.length ∧ r.burnSize.toNat = w.length ∧
          h.fopen (basenameCut w.name) = .ok (r.data out)) ∧
      (∀ i j, i < j → j < wobjs.length →
        Disjoint (recordAt out (header.cnt.toNat + i)).range (recordAt out (header.cnt.toNat + j)).range) ∧
      slice out (12 + 52 * (header.cnt.toNat + wobjs.length)) (f.length - (12 + 52 * header.cnt.toNat))
        = f.drop (12 + 52 * header.cnt.toNat) ∧
      (∀ j < wobjs.length, Disjoint (recordAt out (header.cnt.toNat + j)).range (Set.Iio (f.length + 52 * wobjs.length))) ∧
      ∀ j, j + 1 = wobjs.length →
        (recordAt out (header.cnt.toNat + j)).offset.toNat + (recordAt out (header.cnt.toNat + j)).length.toNat = out.length := by
  have hsize := hi.accepted.length_eq
  have hfree := gapFree_of_first hi.accepted hcnt hfirst
  rw [hsize] at hbelow
  rw [← hi.accepted.length_bins] at hroom
  have hp : (packageOf f header bins).Takes wobjs := by
    refine ⟨show bins.length + wobjs.length ≤ _ from ?_, hbelow⟩
    unfold MAX_PARTITION_CNT
    omega
  refine ⟨_, hi.makes hfree hp.room (opened_of_regular hreg), ?_⟩
  rw [hsize, ← hi.accepted.length_bins]
  refine ⟨?_, ?_, ?_, ?_, ?_⟩
  · intro j w hw
    obtain ⟨htype, hburn, hburnSize⟩ := hp.fields stack (contents h wobjs) hw (haddr w (List.mem_of_getElem? hw))
    exact ⟨htype, hburn, (hp.place stack (contents h wobjs) hw).2, hburnSize, hp.data stack hreg hw⟩
  · intro i j hij hj
    exact hp.disjoint stack (contents h wobjs) hij hj
  · have hdata := slice_inject_data stack (contents h wobjs) hp.room
    have hlen : (packageOf f header bins).size - (12 + 52 * bins.length) = (packageOf f header bins).data.length :=
      Nat.add_sub_cancel_left ..
    rw [hlen, Nat.mul_add, ← Nat.add_assoc]
    exact hdata
  · intro j hj
    exact hp.behind stack (contents h wobjs) hj
  · intro j hj
    exact hp.last stack (contents_length hreg) hj

end

/-- The package of a loaderboot and a record, and two files. -/
def pairTable : List (CStr × List UInt8) := [(fileP, samplePkg), (fileB, [0x42, 0x44]), (fileC, [0x43])]

/-- `--inject p b@0x234000 c@0x236000`. -/
def pairArgs : List CStr := [fileP, atAddr fileB true 0x234000, atAddr fileC true 0x236000]

def pairWobjs : List Wobj := [⟨fileB, 2, 0x234000⟩, ⟨fileC, 1, 0x236000⟩]

theorem pairArgs_injects : Injects (hostWith pairTable) pairArgs pairWobjs samplePkg sampleHeader sampleBins where
  parsed := by
    show [atAddr fileB true 0x234000, atAddr fileC true 0x236000].mapM _ = _
    rw [List.mapM_cons, List.mapM_cons, parseWobj_atAddr (n := 2) false true (by decide) rfl (by decide),
      parseWobj_atAddr (n := 1) false true (by decide) rfl (by decide)]
    rfl
  opened := ⟨_, rfl, rfl⟩
  accepted := samplePkg_accepted

theorem samplePkg_first : ∀ b, sampleBins.head? = some b → b.offset.toNat = 12 + 52 * sampleHeader.cnt.toNat := by
  intro b hb
  cases hb
  rfl

theorem pairWobjs_regular : ∀ w ∈ pairWobjs, Regular (hostWith pairTable) w := by
  intro w hw
  rcases List.mem_cons.1 hw with rfl | hw
  · exact ⟨[0x42, 0x44], rfl, rfl⟩
  · rw [List.mem_singleton.1 hw]
    exact ⟨[0x43], rfl, rfl⟩

theorem verbInject_records_sample : ∃ out, Makes (hostWith pairTable) zeroStack pairArgs out ∧
    (recordAt out 2).data out = [0x42, 0x44] ∧ (recordAt out 3).data out = [0x43] ∧
    Disjoint (recordAt out 2).range (recordAt out 3).range := by
  obtain ⟨out, hmakes, hrec, hdisj, _⟩ := verbInject_records zeroStack pairArgs_injects (by decide) samplePkg_first
    (by decide) (by decide) pairWobjs_regular (by decide +kernel)
  obtain ⟨_, _, _, _, hfirst⟩ := hrec 0 _ rfl
  obtain ⟨_, _, _, _, hsecond⟩ := hrec 1 _ rfl
  exact ⟨out, hmakes, (Except.ok.inj hfirst).symm, (Except.ok.inj hsecond).symm, hdisj 0 1 (by decide) (by decide)⟩

end Ws63Flash
