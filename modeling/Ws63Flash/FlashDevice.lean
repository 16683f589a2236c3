import Ws63Flash.PlanDevice
/-!
# FlashDevice — what the flash holds after `--flash`

After a run that returns 0 the device has burnt the selected records in table order (`verbFlash_burns`), so each is in
place when no erase reaches into the bytes of an earlier one.
-/
namespace Ws63Flash

open Octets Proc Language Units Burn

/-- What a record's command and session burn. -/
def FwpkgBinInfo.image (fw : List UInt8) (b : FwpkgBinInfo) : Image UInt8 where
  addr := b.burnAddr.toNat
  erased := (erasSize b.length.toNat).toNat
  data := b.data fw

theorem flashJob_burns {fw : List UInt8} {b : FwpkgBinInfo} (hin : b.offset.toNat + b.length.toNat ≤ fw.length) :
    (flashJob fw b).Burns (b.image fw) := by
  have hfits : (flashPart fw b).Fits := ⟨_, rfl, by
    show b.length.toNat ≤ (fw.drop b.offset.toNat).length
    rw [List.length_drop]
    omega⟩
  have hburns := Job.Burns.store b.burnAddr (erasSize b.length.toNat) hfits b.length.toNat_lt
  rwa [show UInt32.ofNat (flashPart fw b).len = b.length from UInt32.ofNat_toNat] at hburns

theorem flashJobs_burn {fw : List UInt8} (recs : List FwpkgBinInfo)
    (hin : ∀ b ∈ recs, b.offset.toNat + b.length.toNat ≤ fw.length) :
    List.Forall₂ Job.Burns (recs.map (flashJob fw)) (recs.map (FwpkgBinInfo.image fw)) := by
  rw [List.forall₂_map_left_iff, List.forall₂_map_right_iff, List.forall₂_same]
  exact fun b hb => flashJob_burns (hin b hb)

/-- **A run that returns 0 burns the selected records in table order.** -/
theorem verbFlash_burns {d : Device} {l : List Ev} {fuel : Nat} {h : Host} {a : Args} {path : CStr} {fw : List UInt8}
    {header : FwpkgHeader} {bins : List FwpkgBinInfo} (hpath : a.args[1]? = some path) (hopen : h.fopen path = .ok fw)
    (hacc : Accepted fw header bins) (hin : ∀ b ∈ selected a bins, b.offset.toNat + b.length.toNat ≤ fw.length)
    (hret : (verbFlash fuel h a d l).1 = .ret 0) (m : Nat → UInt8) :
    deviceFlash m (written (verbFlash fuel h a d l).2) =
      burnAll 0xff m ((selected a bins).map (FwpkgBinInfo.image fw)) := by
  rw [verbFlash_eq, planFlash_accepted hpath hopen hacc] at hret ⊢
  cases hlb : findLoaderboot bins with
  | none =>
    rw [hlb] at hret
    exact absurd (Out.ret.inj hret) (by decide)
  | some lb =>
    rw [hlb] at hret
    dsimp only at hret ⊢
    by_cases hnamed : ¬ NamesEnd bins
    · rw [if_pos hnamed] at hret
      exact nomatch hret
    rw [if_neg hnamed] at hret ⊢
    split at hret
    · exact absurd (Out.ret.inj hret) (by decide)
    · rename_i hfound
      rw [if_neg hfound]
      exact runPlan_burns a (flashJobs_burn (selected a bins) hin) hret m

/-! ## Which layouts are safe -/

/-- The reserved area of a record. -/
def FwpkgBinInfo.reserved (b : FwpkgBinInfo) : Set Nat := area b.burnAddr.toNat b.burnSize.toNat

/-- The area the device erases for a record. -/
def FwpkgBinInfo.erasedArea (b : FwpkgBinInfo) : Set Nat := area b.burnAddr.toNat (erasSize b.length.toNat).toNat

/-- The addresses of a record's bytes. -/
def FwpkgBinInfo.burnt (b : FwpkgBinInfo) : Set Nat := area b.burnAddr.toNat b.length.toNat

theorem burnt_subset_reserved {b : FwpkgBinInfo} (h : b.length ≤ b.burnSize) : b.burnt ⊆ b.reserved := by
  have hle : b.length.toNat ≤ b.burnSize.toNat := h
  exact Set.Ico_subset_Ico_right (by omega)

/-- **The flash holds every selected record** after a run that returns 0, when the records keep to disjoint reserved
areas and no erase reaches into the bytes of a record flashed earlier. -/
theorem verbFlash_holds {d : Device} {l : List Ev} {fuel : Nat} {h : Host} {a : Args} {path : CStr} {fw : List UInt8}
    {header : FwpkgHeader} {bins : List FwpkgBinInfo} (hpath : a.args[1]? = some path) (hopen : h.fopen path = .ok fw)
    (hacc : Accepted fw header bins) (hin : ∀ b ∈ selected a bins, b.offset.toNat + b.length.toNat ≤ fw.length)
    (hsize : ∀ b ∈ selected a bins, b.length ≤ b.burnSize)
    (hdisj : (selected a bins).Pairwise (fun v w => Disjoint v.reserved w.reserved))
    (heras : (selected a bins).Pairwise (fun v w => Disjoint w.erasedArea v.burnt))
    (hret : (verbFlash fuel h a d l).1 = .ret 0) (m : Nat → UInt8) :
    ∀ b ∈ selected a bins,
      Holds (deviceFlash m (written (verbFlash fuel h a d l).2)) b.burnAddr.toNat (b.data fw) := by
  have hlen : ∀ b ∈ selected a bins, (b.data fw).length = b.length.toNat := fun b hb => slice_length (hin b hb)
  have hspares : ((selected a bins).map (FwpkgBinInfo.image fw)).Pairwise Spares := by
    rw [List.pairwise_map]
    refine ((List.pairwise_and_iff.2 ⟨hdisj, heras⟩).imp_of_mem ?_)
    rintro v w hv hw ⟨hd, he⟩
    have hvw : Disjoint w.burnt v.burnt :=
      (hd.mono (burnt_subset_reserved (hsize v hv)) (burnt_subset_reserved (hsize w hw))).symm
    refine ⟨?_, ?_⟩ <;> simp only [FwpkgBinInfo.image, hlen v hv, hlen w hw]
    · exact he
    · exact hvw
  intro b hb
  rw [verbFlash_burns hpath hopen hacc hin hret m]
  exact holds_burnAll _ m hspares (b.image fw) (List.mem_map_of_mem hb)

/-- A loaderboot and two records an erase unit apart, the one of the higher address first. -/
def apartBins : List FwpkgBinInfo :=
  [sampleBin 0x61 168 0 0, sampleBin 0x62 169 0x232000 1, sampleBin 0x63 170 0x230000 1]

def apartHeader : FwpkgHeader := ⟨0xefbeaddf, 0xa97a, 3, 171⟩

def apartPkg : List UInt8 := apartHeader.bytes ++ apartBins.flatMap FwpkgBinInfo.bytes ++ [0x41, 0x42, 0x43]

theorem apartPkg_accepted : Accepted apartPkg apartHeader apartBins := ⟨by decide +kernel, by decide +kernel⟩

theorem apartBins_selected : selected plainArgs apartBins = [sampleBin 0x62 169 0x232000 1, sampleBin 0x63 170 0x230000 1] := by
  decide +kernel

theorem apartBins_inside : ∀ b ∈ selected plainArgs apartBins, b.offset.toNat + b.length.toNat ≤ apartPkg.length := by
  rw [apartBins_selected]
  decide +kernel

/-- What both records of `apartBins` hold, at their own addresses. -/
theorem apartBins_held {flash : Nat → UInt8}
    (hall : ∀ b ∈ selected plainArgs apartBins, Holds flash b.burnAddr.toNat (b.data apartPkg)) :
    Holds flash 0x232000 [0x42] ∧ Holds flash 0x230000 [0x43] := by
  rw [apartBins_selected] at hall
  have hdata : (sampleBin 0x62 169 0x232000 1).data apartPkg = [0x42] ∧
      (sampleBin 0x63 170 0x230000 1).data apartPkg = [0x43] := by decide +kernel
  have hfirst := hall _ List.mem_cons_self
  have hsecond := hall _ (List.mem_cons_of_mem _ List.mem_cons_self)
  rw [hdata.1] at hfirst
  rw [hdata.2] at hsecond
  exact ⟨hfirst, hsecond⟩

theorem verbFlash_holds_sample :
    let flash := deviceFlash (fun _ => 0) (written (verbFlash 2 (hostOf apartPkg) plainArgs ackDevice []).2)
    Holds flash 0x232000 [0x42] ∧ Holds flash 0x230000 [0x43] := by
  apply apartBins_held
  refine verbFlash_holds (h := hostOf apartPkg) (a := plainArgs) rfl rfl apartPkg_accepted apartBins_inside ?_ ?_ ?_
    (by decide +kernel) _
  · rw [apartBins_selected]
    decide
  · rw [apartBins_selected, List.pairwise_pair]
    refine Set.disjoint_left.2 (fun i hi hi' => ?_)
    have hge : 0x232000 ≤ i := hi.1
    have hlt : i < 0x231000 := hi'.2
    omega
  · rw [apartBins_selected, List.pairwise_pair]
    refine Set.disjoint_left.2 (fun i hi hi' => ?_)
    have hlt : i < 0x232000 := hi.2
    have hge : 0x232000 ≤ i := hi'.1
    omega

/-- Records that start at multiples of the erase unit are erased apart. -/
theorem erased_disjoint_of_aligned {v w : FwpkgBinInfo} (hv : v.burnAddr.toNat % 0x2000 = 0)
    (hw : w.burnAddr.toNat % 0x2000 = 0) (hsize : v.length ≤ v.burnSize ∧ w.length ≤ w.burnSize)
    (hd : Disjoint v.reserved w.reserved) : Disjoint w.erasedArea v.burnt := by
  have hvl : v.length.toNat ≤ v.burnSize.toNat := hsize.1
  have hwl : w.length.toNat ≤ w.burnSize.toNat := hsize.2
  have heras : (erasSize w.length.toNat).toNat ≤ (w.length.toNat + 8191) / 8192 * 0x2000 := by
    rw [erasSize, UInt32.toNat_ofNat']
    exact Nat.mod_le _ _
  have hno := Set.disjoint_left.1 hd
  rw [Set.disjoint_left]
  rintro i ⟨hi1, hi2⟩ ⟨hi3, hi4⟩
  rcases Nat.lt_or_ge v.burnAddr.toNat w.burnAddr.toNat with hlt | hge
  · -- `w` starts above `v`: its first address would lie in both areas
    exact hno (show w.burnAddr.toNat ∈ v.reserved from ⟨by omega, by omega⟩) ⟨Nat.le_refl _, by omega⟩
  · -- `v` starts a whole number of units above `w`, and below the end of `w`'s last unit
    exact hno (show v.burnAddr.toNat ∈ v.reserved from ⟨Nat.le_refl _, by omega⟩) ⟨hge, by omega⟩

/-- A loaderboot and two records in one erase unit, the one of the higher address first. -/
def clashBins : List FwpkgBinInfo :=
  [sampleBin 0x61 168 0 0, sampleBin 0x62 169 0x231000 1, sampleBin 0x63 170 0x230000 1]

def clashHeader : FwpkgHeader := ⟨0xefbeaddf, 0xd959, 3, 171⟩

def clashPkg : List UInt8 := clashHeader.bytes ++ clashBins.flatMap FwpkgBinInfo.bytes ++ [0x41, 0x42, 0x43]

/-- **Disjoint reserved areas are not enough**: the erase of the second record, a whole unit, takes the first one. -/
theorem verbFlash_clash :
    Accepted clashPkg clashHeader clashBins ∧
    (∀ b ∈ selected plainArgs clashBins,
      b.offset.toNat + b.length.toNat ≤ clashPkg.length ∧ b.length ≤ b.burnSize) ∧
    (selected plainArgs clashBins).Pairwise (fun v w => Disjoint v.reserved w.reserved) ∧
    (verbFlash 2 (hostOf clashPkg) plainArgs ackDevice []).1 = .ret 0 ∧
    ∃ b ∈ selected plainArgs clashBins, ¬ Holds
      (deviceFlash (fun _ => 0) (written (verbFlash 2 (hostOf clashPkg) plainArgs ackDevice []).2))
      b.burnAddr.toNat (b.data clashPkg) := by
  have hsel : selected plainArgs clashBins = [sampleBin 0x62 169 0x231000 1, sampleBin 0x63 170 0x230000 1] := by
    decide +kernel
  have hacc : Accepted clashPkg clashHeader clashBins := ⟨by decide +kernel, by decide +kernel⟩
  have hin : ∀ b ∈ selected plainArgs clashBins, b.offset.toNat + b.length.toNat ≤ clashPkg.length := by
    rw [hsel]
    decide +kernel
  have hret : (verbFlash 2 (hostOf clashPkg) plainArgs ackDevice []).1 = .ret 0 := by decide +kernel
  refine ⟨hacc, fun b hb => ⟨hin b hb, ?_⟩, ?_, hret, ?_⟩
  · rw [hsel] at hb
    revert b
    decide
  · rw [hsel, List.pairwise_pair]
    refine Set.disjoint_left.2 (fun i hi hi' => ?_)
    have hge : 0x231000 ≤ i := hi.1
    have hlt : i < 0x231000 := hi'.2
    omega
  · refine ⟨sampleBin 0x62 169 0x231000 1, by rw [hsel]; exact List.mem_cons_self, fun hholds => ?_⟩
    rw [verbFlash_burns (h := hostOf clashPkg) rfl rfl hacc hin hret, hsel] at hholds
    have hbyte := hholds 0 0x42 (by decide +kernel)
    exact absurd hbyte (by decide +kernel)

end Ws63Flash
