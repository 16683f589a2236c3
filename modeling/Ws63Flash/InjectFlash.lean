import Ws63Flash.InjectRecords
import Ws63Flash.MainDevice
/-!
# InjectFlash — a file put into a package and flashed

What a package has `--flash` burn is a list of images, and `--inject` appends those of the files to it
(`Package.Takes.images`), with the data of the package where its records point to.  So a run of `ws63flash` that returns 0
on the output of `ws63fwpkg` has put the files at their addresses (`inject_flash_holds`).
-/
namespace Ws63Flash

open Octets Proc Units Burn

/-- The data of every record lies behind the table. -/
def Package.Inside (p : Package) : Prop :=
  ∀ b ∈ p.bins, p.tableEnd ≤ b.offset.toNat ∧ b.offset.toNat + b.length.toNat ≤ p.size

/-- What `--flash` burns of a package. -/
def Package.images (p : Package) : List (Image UInt8) := (files p.bins).map (FwpkgBinInfo.image p.bytes)

section

variable {p : Package} {ws : List Wobj} {h : Host} (stack : StackRecs)

theorem Package.Takes.shift_offset (hp : p.Takes ws) (hin : p.Inside) {b : FwpkgBinInfo} (hb : b ∈ p.bins) :
    (b.shift ws.length).offset.toNat = b.offset.toNat + binInfoSize * ws.length := by
  have hbelow := hp.below
  have hend := (hin b hb).2
  show (UInt32.ofNat _).toNat = _
  rw [UInt32.toNat_ofNat', Nat.mod_eq_of_lt (by omega)]

/-- A record of the package finds its data at its new offset. -/
theorem Package.Takes.shift_data (hp : p.Takes ws) (hin : p.Inside) (cs : List UInt8) {b : FwpkgBinInfo}
    (hb : b ∈ p.bins) : (b.shift ws.length).data (p.inject stack ws cs).bytes = b.data p.bytes := by
  obtain ⟨hlow, hhigh⟩ := hin b hb
  obtain ⟨o, ho⟩ := Nat.exists_eq_add_of_le hlow
  have hdata : (p.inject stack ws cs).data = p.data ++ cs := rfl
  unfold Package.size at hhigh
  unfold FwpkgBinInfo.data
  rw [hp.shift_offset hin hb, ho, show p.tableEnd + o + binInfoSize * ws.length = (p.inject stack ws cs).tableEnd + o by
    rw [tableEnd_inject stack cs hp.room]; omega, ← slice_drop, Package.drop_tableEnd, ← slice_drop, Package.drop_tableEnd,
    hdata]
  exact slice_append_left (by show o + b.length.toNat ≤ _; omega)

theorem Package.Takes.shift_image (hp : p.Takes ws) (hin : p.Inside) (cs : List UInt8) {b : FwpkgBinInfo}
    (hb : b ∈ p.bins) : (b.shift ws.length).image (p.inject stack ws cs).bytes = b.image p.bytes := by
  unfold FwpkgBinInfo.image
  rw [hp.shift_data stack hin cs hb]
  rfl

/-- The record of a file, as one of the table. -/
theorem Package.Takes.newRecord (hp : p.Takes ws) (cs : List UInt8) {j : Nat} {w : Wobj} (hw : ws[j]? = some w) :
    ∃ r : FwpkgBinInfo, (newBins (stack.1.drop p.bins.length) ws (p.size + binInfoSize * ws.length))[j]? = some r ∧
      r = Ws63Flash.recordAt (p.inject stack ws cs).bytes (p.bins.length + j) := by
  obtain ⟨old, _, hnew⟩ := tableWith_getElem? hp.room stack p.size hw
  obtain ⟨hlt, heq⟩ := List.getElem?_eq_some_iff.1 hnew
  refine ⟨_, ?_, ((recordAt_append (p.inject stack ws cs).header _ _ hlt).trans heq).symm⟩
  rwa [tableWith, List.getElem?_append_right (by rw [List.length_map]; omega), List.length_map,
    Nat.add_sub_cancel_left] at hnew

/-- **The image of a file put into a package** is that of the file itself. -/
theorem Package.Takes.newRecord_image (hp : p.Takes ws) (hreg : ∀ w ∈ ws, Regular h w) {j : Nat} {w : Wobj}
    (hw : ws[j]? = some w) (haddr : w.addr < 2 ^ 32) :
    (Ws63Flash.recordAt (p.inject stack ws (contents h ws)).bytes (p.bins.length + j)).image
      (p.inject stack ws (contents h ws)).bytes = w.image h := by
  obtain ⟨_, hburn, _⟩ := hp.fields stack (contents h ws) hw haddr
  have hopen := (hreg w (List.mem_of_getElem? hw)).copied.1
  have hdata := Except.ok.inj ((hp.data stack hreg hw).symm.trans hopen)
  unfold FwpkgBinInfo.image Wobj.image
  rw [hburn, (hp.place stack (contents h ws) hw).2, hdata]

/-- **`--inject` appends the images of the files.** -/
theorem Package.Takes.images (hp : p.Takes ws) (hin : p.Inside) (hreg : ∀ w ∈ ws, Regular h w)
    (haddr : ∀ w ∈ ws, w.addr < 2 ^ 32) :
    (p.inject stack ws (contents h ws)).images = p.images ++ ws.map (Wobj.image h) := by
  have hlen : (newBins (stack.1.drop p.bins.length) ws (p.size + binInfoSize * ws.length)).length = ws.length := by
    have hroom := hp.room
    exact newBins_length _ _ _ (by rw [List.length_drop, stack.2]; omega)
  have hnew : ∀ (j : Nat) (w : Wobj), ws[j]? = some w → ∃ r : FwpkgBinInfo,
      (newBins (stack.1.drop p.bins.length) ws (p.size + binInfoSize * ws.length))[j]? = some r ∧ r.type2 = 1 ∧
        r.image (p.inject stack ws (contents h ws)).bytes = w.image h := by
    intro j w hw
    have hw32 := haddr w (List.mem_of_getElem? hw)
    obtain ⟨r, hr, hrec⟩ := hp.newRecord stack (contents h ws) hw
    refine ⟨r, hr, ?_, ?_⟩ <;> rw [hrec]
    · exact (hp.fields stack (contents h ws) hw hw32).1
    · exact hp.newRecord_image stack hreg hw hw32
  unfold Package.images files
  show List.map _ (List.filter _ (tableWith p.bins stack ws p.size)) = _
  rw [tableWith, List.filter_append, List.map_append]
  congr 1
  · rw [List.filter_map, List.map_map]
    refine List.map_congr_left (fun b hb => hp.shift_image stack hin (contents h ws) (List.mem_filter.1 hb).1)
  · have hall : ∀ r ∈ newBins (stack.1.drop p.bins.length) ws (p.size + binInfoSize * ws.length), r.type2 = 1 := by
      intro r hr
      obtain ⟨j, hj⟩ := List.mem_iff_getElem?.1 hr
      have hjlt := (List.getElem?_eq_some_iff.1 hj).1
      obtain ⟨r', hr', htype, _⟩ := hnew j ws[j] (List.getElem?_eq_getElem (by omega))
      rw [Option.some.inj (hj.symm.trans hr')]
      exact htype
    rw [List.filter_eq_self.2 (fun r hr => decide_eq_true (hall r hr))]
    refine List.ext_getElem? (fun j => ?_)
    rw [List.getElem?_map, List.getElem?_map]
    cases hw : ws[j]? with
    | none =>
      rw [List.getElem?_eq_none (by rw [hlen]; exact List.getElem?_eq_none_iff.1 hw)]
      rfl
    | some w =>
      obtain ⟨r, hr, _, himage⟩ := hnew j w hw
      rw [hr, Option.map_some, Option.map_some, himage]

/-- The data of the new package lies behind its table, too. -/
theorem Package.Takes.inside (hp : p.Takes ws) (hin : p.Inside) {cs : List UInt8} (hcs : cs.length = sizes ws) :
    (p.inject stack ws cs).Inside := by
  intro b hb
  rw [tableEnd_inject stack cs hp.room, inject_size stack cs hp.room, hcs]
  rcases List.mem_append.1 hb with hb | hb
  · obtain ⟨b', hb', rfl⟩ := List.mem_map.1 hb
    obtain ⟨hlow, hhigh⟩ := hin b' hb'
    rw [hp.shift_offset hin hb']
    show _ ∧ _ + b'.length.toNat ≤ _
    omega
  · obtain ⟨j, hj⟩ := List.mem_iff_getElem?.1 hb
    have hroom := hp.room
    have hlen := newBins_length (stack.1.drop p.bins.length) ws (p.size + binInfoSize * ws.length)
      (by rw [List.length_drop, stack.2]; omega)
    have hjlt := (List.getElem?_eq_some_iff.1 hj).1
    have hw : ws[j]? = some ws[j] := List.getElem?_eq_getElem (by omega)
    obtain ⟨r, hr, hrec⟩ := hp.newRecord stack cs hw
    obtain ⟨hoff, hsize⟩ := hp.place stack cs hw
    have htake := sizes_take_succ hw
    have hle := sizes_take_le ws (j + 1)
    rw [Option.some.inj (hj.symm.trans hr), hrec, hoff, hsize]
    unfold Package.size
    omega

end

/-- A run of `--flash` on a package that returns 0 has put its images in place. -/
theorem flash_holds_images {q : Package} (hcnt : q.bins.length < MAX_PARTITION_CNT) (hin : q.Inside)
    (hs : q.images.Pairwise Spares) {h : Host} {tty path : CStr} {baud : UInt32} {late : Bool} {d : Device} {fuel : Nat}
    (hopen : h.fopen path = .ok q.bytes) (hret : (main fuel h .flash (flashArgs tty path baud late) d []).1 = .ret 0)
    (m : Nat → UInt8) :
    ∀ w ∈ q.images,
      Holds (deviceFlash m (written (main fuel h .flash (flashArgs tty path baud late) d []).2)) w.addr w.data := by
  have hsel : selected (flashArgs tty path baud late) q.bins = files q.bins := by
    refine List.filter_congr (fun b _ => ?_)
    simp [binInArgs, flashArgs]
  have hinside : ∀ b ∈ selected (flashArgs tty path baud late) q.bins,
      b.offset.toNat + b.length.toNat ≤ q.bytes.length := fun b hb => by
    rw [Package.bytes_length]
    exact (hin b (selected_subset hb)).2
  have hburnt := (main_burns fuel d (planFlash_burns rfl hopen (Package.accepted hcnt) hinside) m).2 hret
  rw [hsel] at hburnt
  rw [hburnt]
  exact holds_burnAll _ m hs

/-- **A file put into a package and flashed is on the flash**: when `--inject` has made `out` and a run of `--flash` on it
returns 0, each file is at its address and the records that the package had are where they were to go, provided that no
command reaches into the bytes of an earlier one. -/
theorem inject_flash_holds {h : Host} {args : List CStr} {wobjs : List Wobj} {f : List UInt8} {header : FwpkgHeader}
    {bins : List FwpkgBinInfo} (stack : StackRecs) (hi : Injects h args wobjs f header bins)
    (hcnt : 1 ≤ header.cnt.toNat) (hfirst : ∀ b, bins.head? = some b → b.offset.toNat = 12 + 52 * header.cnt.toNat)
    (hroom : header.cnt.toNat + wobjs.length ≤ 15) (haddr : ∀ w ∈ wobjs, w.addr < 2 ^ 32)
    (hreg : ∀ w ∈ wobjs, Regular h w) (hfits : Fits f bins wobjs)
    (hs : ((files bins).map (FwpkgBinInfo.image f) ++ wobjs.map (Wobj.image h)).Pairwise Spares) :
    ∃ out, Makes h stack args out ∧
      ∀ (h' : Host) (tty path : CStr) (baud : UInt32) (late : Bool) (d : Device) (fuel : Nat) (m : Nat → UInt8),
        h'.fopen path = .ok out →
        let run := main fuel h' .flash (flashArgs tty path baud late) d []
        run.1 = .ret 0 →
          (∀ w ∈ wobjs, ∃ c, h.fopen (basenameCut w.name) = .ok c ∧ Holds (deviceFlash m (written run.2)) w.addr c) ∧
          ∀ b ∈ files bins, Holds (deviceFlash m (written run.2)) b.burnAddr.toNat (b.data f) := by
  have hsize := hi.accepted.length_eq
  have hbytes := hi.accepted.eq_bytes.1
  have hbelow := hfits.below
  rw [← hi.accepted.length_bins] at hroom
  have hp : (packageOf f header bins).Takes wobjs := by
    refine ⟨show bins.length + wobjs.length ≤ _ from ?_, by rw [← hsize]; exact hbelow⟩
    unfold MAX_PARTITION_CNT
    omega
  have hin : (packageOf f header bins).Inside := fun b hb => by
    rw [← hsize]
    exact hfits.inside b hb
  have himages : (packageOf f header bins).images = (files bins).map (FwpkgBinInfo.image f) := by
    unfold Package.images
    rw [← hbytes]
    rfl
  refine ⟨_, hi.makes (gapFree_of_first hi.accepted hcnt hfirst) hp.room (opened_of_regular hreg), ?_⟩
  intro h' tty path baud late d fuel m hopen run hret
  have himages' := (hp.images stack hin hreg haddr).trans (congrArg (· ++ wobjs.map (Wobj.image h)) himages)
  have hheld := flash_holds_images (q := (packageOf f header bins).inject stack wobjs (contents h wobjs)) (by
    show (tableWith (packageOf f header bins).bins stack wobjs _).length < _
    rw [tableWith_length hp.room]
    exact Nat.lt_succ_of_le hroom) (hp.inside stack hin (contents_length hreg)) (by rw [himages']; exact hs) hopen hret m
  rw [himages'] at hheld
  exact ⟨fun w hw => ⟨_, (hreg w hw).copied.1, hheld (w.image h) (List.mem_append_right _ (List.mem_map_of_mem hw))⟩,
    fun b hb => hheld (b.image f) (List.mem_append_left _ (List.mem_map_of_mem hb))⟩

/-- What `--inject` makes of the package of a loaderboot and a record, and of two files. -/
def sampleInjected : List UInt8 := output (verbInject 300 (hostWith pairTable) zeroStack pairArgs goodIo []).2

theorem inject_flash_holds_sample :
    let flash := deviceFlash (fun _ => 0)
      (written (main 2 (hostOf sampleInjected) .flash (flashArgs ttyT fileP 115200 false) ackDevice []).2)
    Holds flash 0x234000 [0x42, 0x44] ∧ Holds flash 0x236000 [0x43] ∧ Holds flash 0x230000 [0x42] := by
  have hfiles : files sampleBins = [sampleBin 0x62 117 0x230000 1] := by decide +kernel
  have hs : ((files sampleBins).map (FwpkgBinInfo.image samplePkg) ++
      pairWobjs.map (Wobj.image (hostWith pairTable))).Pairwise Spares := by
    rw [hfiles]
    refine .cons (fun w hw => .of_apart (Or.inl ?_)) (List.pairwise_pair.2 (.of_apart (Or.inl (by decide +kernel))))
    rcases List.mem_cons.1 hw with rfl | hw
    · decide +kernel
    · rw [List.mem_singleton.1 hw]
      decide +kernel
  obtain ⟨out, hmakes, hflash⟩ := inject_flash_holds zeroStack pairArgs_injects (by decide) samplePkg_first (by decide)
    (by decide) pairWobjs_regular ⟨by decide +kernel, by decide +kernel⟩ hs
  obtain rfl : sampleInjected = out := hmakes.1 goodIo 300 (by decide +kernel)
  obtain ⟨hnew, hold⟩ := hflash (hostOf sampleInjected) ttyT fileP 115200 false ackDevice 2 (fun _ => 0) rfl
    (by decide +kernel)
  obtain ⟨c, hc, hfirst⟩ := hnew ⟨fileB, 2, 0x234000⟩ List.mem_cons_self
  obtain ⟨c', hc', hsecond⟩ := hnew ⟨fileC, 1, 0x236000⟩ (List.mem_cons_of_mem _ List.mem_cons_self)
  have hrec := hold (sampleBin 0x62 117 0x230000 1) (by rw [hfiles]; exact List.mem_cons_self)
  have hdata : (sampleBin 0x62 117 0x230000 1).data samplePkg = [0x42] := by decide +kernel
  obtain rfl : [0x42, 0x44] = c := Except.ok.inj hc
  obtain rfl : [0x43] = c' := Except.ok.inj hc'
  rw [hdata] at hrec
  exact ⟨hfirst, hsecond, hrec⟩

end Ws63Flash
