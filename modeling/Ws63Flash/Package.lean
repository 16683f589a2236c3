import Ws63Flash.FwpkgRead
import Ws63Flash.InjectData
/-!
# Package — packages as values, and `--inject` as an operation on them

A package is its length field, its records and its data; its bytes are a header with count and checksum, the table and
the data (`Accepted.eq_bytes`).  On packages whose data begins where the table ends, `--inject` shifts the records, adds
those of the files and puts the files behind the data, whatever the environment (`Injects.makes`).
-/
namespace Ws63Flash

open Octets Proc Language

structure Package where
  len : UInt32
  bins : List FwpkgBinInfo
  data : List UInt8

namespace Package

def table (p : Package) : List UInt8 := p.bins.flatMap FwpkgBinInfo.bytes

def cnt (p : Package) : UInt16 := UInt16.ofNat p.bins.length

def header (p : Package) : FwpkgHeader where
  mgc := 0xefbeaddf
  crc := crc16Xmodem (le16 p.cnt ++ le32 p.len ++ p.table)
  cnt := p.cnt
  len := p.len

def bytes (p : Package) : List UInt8 := p.header.bytes ++ p.table ++ p.data

/-- The end of the table. -/
def tableEnd (p : Package) : Nat := binsEnd p.bins

def size (p : Package) : Nat := p.tableEnd + p.data.length

@[simp] theorem bytes_length (p : Package) : p.bytes.length = p.size := by
  unfold bytes size tableEnd binsEnd table
  rw [List.length_append, List.length_append, FwpkgHeader.bytes_length, flatMap_bytes_length]

theorem cnt_toNat {p : Package} (h : p.bins.length < MAX_PARTITION_CNT) : p.cnt.toNat = p.bins.length := by
  unfold MAX_PARTITION_CNT at h
  exact (UInt16.toNat_ofNat' ..).trans (Nat.mod_eq_of_lt (by omega))

/-- **A package is one for the reader.** -/
theorem accepted {p : Package} (h : p.bins.length < MAX_PARTITION_CNT) : Accepted p.bytes p.header p.bins :=
  accepted_written p.data rfl (cnt_toNat h) h rfl

theorem drop_tableEnd (p : Package) : p.bytes.drop p.tableEnd = p.data := by
  apply List.drop_left'
  unfold tableEnd binsEnd table
  rw [List.length_append, FwpkgHeader.bytes_length, flatMap_bytes_length]

end Package

/-! ## What the reader takes is a package -/

theorem FwpkgHeader.bytes_ofBytes {f : List UInt8} (h : headerSize ≤ f.length) :
    (FwpkgHeader.ofBytes f).bytes = f.take headerSize := by
  have h4 : (slice f 0 4).length = 4 := slice_length (by unfold headerSize at h; omega)
  have h2 : (slice f 4 2).length = 2 := slice_length (by unfold headerSize at h; omega)
  have h2' : (slice f 6 2).length = 2 := slice_length (by unfold headerSize at h; omega)
  have h4' : (slice f 8 4).length = 4 := slice_length (by unfold headerSize at h; omega)
  unfold FwpkgHeader.bytes FwpkgHeader.ofBytes
  dsimp only
  rw [le32_ofLe32 h4, le16_ofLe16 h2, le16_ofLe16 h2', le32_ofLe32 h4', slice_append f (by decide),
    slice_append f (by decide), slice_append f (by decide)]
  rfl

theorem FwpkgBinInfo.bytes_ofBytes {bs : List UInt8} (h : bs.length = binInfoSize) : (FwpkgBinInfo.ofBytes bs).bytes = bs := by
  have h4 : ∀ off, off + 4 ≤ 52 → (slice bs off 4).length = 4 := fun off hle => slice_length (by
    unfold binInfoSize at h
    omega)
  have hname : padTo 32 (bs.take 32) = slice bs 0 32 := by
    have hlen : (bs.take 32).length = 32 := by
      rw [List.length_take, h]
      rfl
    rw [padTo, hlen]
    exact List.append_nil _
  unfold FwpkgBinInfo.bytes FwpkgBinInfo.ofBytes
  dsimp only
  rw [hname, le32_ofLe32 (h4 32 (by decide)), le32_ofLe32 (h4 36 (by decide)), le32_ofLe32 (h4 40 (by decide)),
    le32_ofLe32 (h4 44 (by decide)), le32_ofLe32 (h4 48 (by decide)), slice_append bs (by decide),
    slice_append bs (by decide), slice_append bs (by decide), slice_append bs (by decide), slice_append bs (by decide)]
  exact List.take_of_length_le (Nat.le_of_eq h)

section

variable {h : Host} {args : List CStr} {wobjs : List Wobj} {f : List UInt8} {header : FwpkgHeader}
  {bins : List FwpkgBinInfo}

/-- The package of an accepted file. -/
def packageOf (f : List UInt8) (header : FwpkgHeader) (bins : List FwpkgBinInfo) : Package :=
  ⟨header.len, bins, f.drop (binsEnd bins)⟩

theorem Accepted.table_eq (ha : Accepted f header bins) :
    slice f headerSize (binInfoSize * bins.length) = bins.flatMap FwpkgBinInfo.bytes := by
  obtain ⟨hlen, _, _, _, hrecs, _⟩ := fwpkgReadHeader_eq_some.1 ha.head
  have hbins := (fwpkgReadBinInfos_eq_some.1 ha.infos).2
  have hcnt := ha.length_bins
  have htable : headerSize + binInfoSize * bins.length ≤ f.length := by
    rw [hcnt]
    exact (table_le hlen).1 hrecs
  have hsize : (slice f headerSize (binInfoSize * bins.length)).length = binInfoSize * bins.length := slice_length htable
  have hchunks := flatMap_chunks binInfoSize bins.length _ (Nat.le_of_eq hsize)
  rw [padTo, hsize, Nat.sub_self, List.replicate_zero, List.append_nil] at hchunks
  rw [← hchunks, hbins, ← hcnt, List.flatMap_map, List.length_map, List.length_range]
  refine List.flatMap_congr (fun i hi => ?_)
  have hi := List.mem_range.1 hi
  have hle : binInfoSize * i + binInfoSize ≤ binInfoSize * bins.length := by
    rw [← Nat.mul_add_one]
    exact Nat.mul_le_mul_left _ hi
  have hrec : (slice f (headerSize + binInfoSize * i) binInfoSize).length = binInfoSize := slice_length (by omega)
  rw [slice_slice hle, recordAt, FwpkgBinInfo.bytes_ofBytes hrec, padTo, hrec, Nat.sub_self, List.replicate_zero,
    List.append_nil]

/-- **An accepted file is the bytes of its package.** -/
theorem Accepted.eq_bytes (ha : Accepted f header bins) :
    f = (packageOf f header bins).bytes ∧ header = (packageOf f header bins).header := by
  obtain ⟨hlen, hhead, hmgc, hmax, hrecs, hcrc⟩ := fwpkgReadHeader_eq_some.1 ha.head
  have hcnt := ha.length_bins
  have hfile : f = header.bytes ++ bins.flatMap FwpkgBinInfo.bytes ++ f.drop (binsEnd bins) := by
    rw [← ha.table_eq, hhead, FwpkgHeader.bytes_ofBytes hlen]
    unfold slice binsEnd
    rw [← List.take_add, List.take_append_drop]
  have hrange : slice f 6 (binInfoSize * header.cnt.toNat + 6)
      = le16 header.cnt ++ le32 header.len ++ bins.flatMap FwpkgBinInfo.bytes := by
    have := crc_range header bins (f.drop (binsEnd bins))
    rwa [← hfile, hcnt] at this
  have hcount : UInt16.ofNat bins.length = header.cnt := by rw [hcnt, UInt16.ofNat_toNat]
  have hheader : header = (packageOf f header bins).header := by
    show (⟨header.mgc, header.crc, header.cnt, header.len⟩ : FwpkgHeader) = ⟨0xefbeaddf,
      crc16Xmodem (le16 (UInt16.ofNat bins.length) ++ le32 header.len ++ bins.flatMap FwpkgBinInfo.bytes),
      UInt16.ofNat bins.length, header.len⟩
    rw [hmgc, ← hcrc, hrange, hcount]
  refine ⟨?_, hheader⟩
  unfold Package.bytes
  rw [← hheader]
  exact hfile

theorem Accepted.length_eq (ha : Accepted f header bins) : f.length = (packageOf f header bins).size := by
  rw [← Package.bytes_length, ← ha.eq_bytes.1]

end

/-- **The format is a bijection**: the reader takes the bytes of every package of at most fifteen records, and gives its
header and records; and what it takes are the bytes of one such package, and of no other. -/
theorem readPackage_package (stack : HeaderBuf) (heap : List UInt8) :
    (∀ (p : Package) (pos : Nat), p.bins.length ≤ 15 →
      readPackage stack heap ⟨p.bytes, pos⟩ = .ret (some (p.header, p.bins))) ∧
    ∀ (f : InFile) (header : FwpkgHeader) (bins : List FwpkgBinInfo),
      readPackage stack heap f = .ret (some (header, bins)) →
        ∃! p : Package, p.bins.length ≤ 15 ∧ p.bytes = f.bytes ∧ p.header = header ∧ p.bins = bins := by
  refine ⟨fun p pos hlen => (readPackage_eq stack heap _ _ _).2 (p.accepted (Nat.lt_succ_of_le hlen)),
    fun f header bins hread => ?_⟩
  have ha := (readPackage_eq stack heap f header bins).1 hread
  obtain ⟨hbytes, hheader⟩ := ha.eq_bytes
  have hmax : bins.length < MAX_PARTITION_CNT := by
    rw [ha.length_bins]
    exact (fwpkgReadHeader_eq_some.1 ha.head).2.2.2.1
  refine ⟨packageOf f.bytes header bins, ⟨Nat.le_of_lt_succ hmax, hbytes.symm, hheader.symm, rfl⟩, ?_⟩
  rintro q ⟨_, hq, rfl, rfl⟩
  have hdata : q.data = f.bytes.drop (binsEnd q.bins) := by
    rw [← hq]
    exact q.drop_tableEnd.symm
  rw [packageOf, ← hdata]
  rfl

/-! ## `--inject` on packages -/

namespace Package

/-- The records of `ws` and the bytes `contents` put into a package. -/
def inject (p : Package) (stack : StackRecs) (ws : List Wobj) (contents : List UInt8) : Package :=
  ⟨p.len, tableWith p.bins stack ws p.size, p.data ++ contents⟩

/-- The data of the first record begins where the table ends. -/
def GapFree (p : Package) : Prop := ∃ b rest, p.bins = b :: rest ∧ b.offset.toNat = p.tableEnd

end Package

/-- `--inject` writes `out` whenever it returns 0, and it returns 0 when no read or write fails. -/
def Makes (h : Host) (stack : StackRecs) (args : List CStr) (out : List UInt8) : Prop :=
  (∀ (io : FileIo) (fuel : Nat), (verbInject fuel h stack args io []).1 = .ret 0 →
    output (verbInject fuel h stack args io []).2 = out) ∧
  ∃ fuel, (verbInject fuel h stack args goodIo []).1 = .ret 0

section

variable {h : Host} {args : List CStr} {wobjs : List Wobj} {f : List UInt8} {header : FwpkgHeader}
  {bins : List FwpkgBinInfo} {stack : StackRecs}

theorem tableWith_length (hroom : bins.length + wobjs.length ≤ MAX_PARTITION_CNT) (size : Nat) :
    (tableWith bins stack wobjs size).length = bins.length + wobjs.length := by
  rw [tableWith, List.length_append, List.length_map,
    newBins_length _ _ _ (by rw [List.length_drop, stack.2]; omega)]

/-- The header of the buffer is that of a package with its records. -/
theorem InjectBuf.Builds.table_bytes {buf : InjectBuf} {size : Nat} (hb : buf.Builds header bins stack wobjs size)
    (hmgc : header.mgc = 0xefbeaddf) (hroom : bins.length + wobjs.length ≤ MAX_PARTITION_CNT) (data : List UInt8) :
    buf.table ++ data = (⟨header.len, tableWith bins stack wobjs size, data⟩ : Package).bytes := by
  have hcount : buf.head.cnt = UInt16.ofNat (tableWith bins stack wobjs size).length := by
    rw [tableWith_length hroom, ← hb.cnt, UInt16.ofNat_toNat]
  have hhead : buf.head = (⟨header.len, tableWith bins stack wobjs size, data⟩ : Package).header := by
    show (⟨buf.head.mgc, buf.head.crc, buf.head.cnt, buf.head.len⟩ : FwpkgHeader) = ⟨0xefbeaddf,
      crc16Xmodem (le16 (UInt16.ofNat (tableWith bins stack wobjs size).length) ++ le32 header.len ++
        (tableWith bins stack wobjs size).flatMap FwpkgBinInfo.bytes),
      UInt16.ofNat (tableWith bins stack wobjs size).length, header.len⟩
    rw [hb.crc, hb.mgc, hmgc, hb.len, hb.table, hcount]
  unfold InjectBuf.table Package.bytes
  rw [hhead, ← hhead, hb.table]
  rfl

/-- **What `--inject` makes of a package without a gap.** -/
theorem Injects.makes (hi : Injects h args wobjs f header bins) (hfree : (packageOf f header bins).GapFree)
    (hroom : bins.length + wobjs.length ≤ MAX_PARTITION_CNT) (hopen : Opened h (cutNames wobjs)) :
    Makes h stack args ((packageOf f header bins).inject stack wobjs ((cutNames wobjs).flatMap (copied h))).bytes := by
  obtain ⟨b, rest, hbins, hfirst⟩ := hfree
  subst hbins
  have hfirst : b.offset.toNat = binsEnd (b :: rest) := hfirst
  obtain ⟨buf, hbuilds, hout⟩ := hi.output_eq hroom stack
  obtain ⟨fuel, hgood⟩ := hi.good hroom stack
  refine ⟨fun io fuel hret => ?_, fuel, hgood.trans (if_pos ⟨List.cons_ne_nil _ _, hopen⟩)⟩
  have hshift : (b.shift wobjs.length).offset.toNat = binsEnd (b :: rest) + binInfoSize * wobjs.length := by
    show (UInt32.ofNat _).toNat = _
    rw [UInt32.toNat_ofNat', hfirst, Nat.mod_eq_of_lt]
    unfold binsEnd headerSize binInfoSize
    unfold MAX_PARTITION_CNT at hroom
    omega
  have hpad : buf.padding = [] := by
    rw [hbuilds.padding_eq, hshift, Nat.sub_self]
    rfl
  have hmgc := (fwpkgReadHeader_eq_some.1 hi.accepted.head).2.2.1
  rw [hout io fuel hret, injected, hpad, List.nil_append, hbuilds.table_bytes hmgc hroom, hi.accepted.length_eq]
  show (Package.mk _ _ (f.drop b.offset.toNat ++ _)).bytes = _
  rw [hfirst]
  rfl

end

end Ws63Flash
