import Ws63Flash.Crc
import Ws63Flash.Lib.Octets
import Ws63Flash.Lib.Proc
/-!
# Fwpkg — `fwpkg.h`

The package format and its reader.  A file is the list of its bytes, and `fread` of a `struct` takes the bytes as they
are: the host is little-endian.  What the reader prints is left out.
-/
namespace Ws63Flash

open Octets

def MAX_PARTITION_CNT : Nat := 16

structure FwpkgHeader where
  mgc : UInt32
  crc : UInt16
  cnt : UInt16
  len : UInt32
deriving DecidableEq

/-- `sizeof(struct fwpkg_header)`. -/
def headerSize : Nat := 12

def FwpkgHeader.bytes (h : FwpkgHeader) : List UInt8 := le32 h.mgc ++ le16 h.crc ++ le16 h.cnt ++ le32 h.len

def FwpkgHeader.ofBytes (bs : List UInt8) : FwpkgHeader where
  mgc := ofLe32 (slice bs 0 4)
  crc := ofLe16 (slice bs 4 2)
  cnt := ofLe16 (slice bs 6 2)
  len := ofLe32 (slice bs 8 4)

structure FwpkgBinInfo where
  name : List UInt8
  offset : UInt32
  length : UInt32
  burnAddr : UInt32
  burnSize : UInt32
  type2 : UInt32
  name_length : name.length = 32
deriving DecidableEq

/-- `sizeof(struct fwpkg_bin_info)`. -/
def binInfoSize : Nat := 52

def FwpkgBinInfo.bytes (b : FwpkgBinInfo) : List UInt8 :=
  b.name ++ le32 b.offset ++ le32 b.length ++ le32 b.burnAddr ++ le32 b.burnSize ++ le32 b.type2

def FwpkgBinInfo.ofBytes (bs : List UInt8) : FwpkgBinInfo where
  name := padTo 32 (bs.take 32)
  offset := ofLe32 (slice bs 32 4)
  length := ofLe32 (slice bs 36 4)
  burnAddr := ofLe32 (slice bs 40 4)
  burnSize := ofLe32 (slice bs 44 4)
  type2 := ofLe32 (slice bs 48 4)
  name_length := padTo_length (by rw [List.length_take]; omega)

/-- The name as a string, as far as the record goes.  One without a NUL runs on into the fields after it. -/
def FwpkgBinInfo.str (b : FwpkgBinInfo) : CStr := CStr.ofField b.bytes

/-- The table from the record `b` on, when `bins` follow it. -/
def fromRecord (b : FwpkgBinInfo) (bins : List FwpkgBinInfo) : List UInt8 := b.bytes ++ bins.flatMap FwpkgBinInfo.bytes

/-- The names of a table as strings.  One without a NUL in its record runs on into the records after it. -/
def tableNames : List FwpkgBinInfo → List CStr
  | []        => []
  | b :: bins => CStr.ofField (fromRecord b bins) :: tableNames bins

/-- Each of these strings ends in the table. -/
def NamesEnd : List FwpkgBinInfo → Prop
  | []        => True
  | b :: bins => 0 ∈ fromRecord b bins ∧ NamesEnd bins

instance decidableNamesEnd : ∀ bins : List FwpkgBinInfo, Decidable (NamesEnd bins)
  | []        => inferInstanceAs (Decidable True)
  | _ :: bins => @instDecidableAnd _ _ _ (decidableNamesEnd bins)

/-- The bytes of the package `fw` that the record points to. -/
def FwpkgBinInfo.data (fw : List UInt8) (b : FwpkgBinInfo) : List UInt8 := slice fw b.offset.toNat b.length.toNat

/-- The whole records of `f` after its header. -/
def recordsIn (f : List UInt8) : Nat := (f.length - headerSize) / binInfoSize

/-- A table with whole records lies inside the file. -/
theorem table_le {f : List UInt8} {n : Nat} (hlen : headerSize ≤ f.length) :
    n ≤ recordsIn f ↔ headerSize + binInfoSize * n ≤ f.length := by
  unfold recordsIn
  rw [Nat.le_div_iff_mul_le (by decide), Nat.mul_comm]
  omega

def fwpkgReadHeader (f : List UInt8) : Out (Option FwpkgHeader) :=
  if f.length < headerSize then .ret none
  else
    let header := FwpkgHeader.ofBytes f
    if header.mgc ≠ 0xefbeaddf then .ret none
    else if ¬ header.cnt.toNat < MAX_PARTITION_CNT then .stop .abort
    else if recordsIn f < header.cnt.toNat then .ret none
    else if crc16Xmodem (slice f 6 (binInfoSize * header.cnt.toNat + 6)) ≠ header.crc then .ret none
    else .ret (some header)

/-- The record `i` of the table. -/
def recordAt (f : List UInt8) (i : Nat) : FwpkgBinInfo := .ofBytes (slice f (headerSize + binInfoSize * i) binInfoSize)

def fwpkgReadBinInfos (f : List UInt8) (header : FwpkgHeader) : Option (List FwpkgBinInfo) :=
  if recordsIn f < header.cnt.toNat then none
  else some ((List.range header.cnt.toNat).map (recordAt f))

/-! ## Accepted packages -/

/-- The reader takes `f`, with this header and these records. -/
structure Accepted (f : List UInt8) (header : FwpkgHeader) (bins : List FwpkgBinInfo) : Prop where
  head : fwpkgReadHeader f = .ret (some header)
  infos : fwpkgReadBinInfos f header = some bins

/-- **What the reader checks.** -/
theorem fwpkgReadHeader_eq_some {f : List UInt8} {h : FwpkgHeader} : fwpkgReadHeader f = .ret (some h) ↔
    headerSize ≤ f.length ∧ h = .ofBytes f ∧ h.mgc = 0xefbeaddf ∧ h.cnt.toNat < MAX_PARTITION_CNT ∧
      h.cnt.toNat ≤ recordsIn f ∧ crc16Xmodem (slice f 6 (binInfoSize * h.cnt.toNat + 6)) = h.crc := by
  unfold fwpkgReadHeader
  constructor
  · intro heq
    split at heq
    · exact nomatch heq
    dsimp only at heq
    split at heq
    · exact nomatch heq
    split at heq
    · exact nomatch heq
    split at heq
    · exact nomatch heq
    split at heq
    · exact nomatch heq
    rename_i h1 h2 h3 h4 h5
    have hh : FwpkgHeader.ofBytes f = h := Option.some.inj (Out.ret.inj heq)
    subst hh
    exact ⟨Nat.le_of_not_lt h1, rfl, Classical.not_not.1 h2, Classical.not_not.1 h3, Nat.le_of_not_lt h4,
      Classical.not_not.1 h5⟩
  · rintro ⟨h1, rfl, h2, h3, h4, h5⟩
    rw [if_neg (Nat.not_lt_of_le h1)]
    dsimp only
    rw [if_neg (fun h => h h2), if_neg (fun h => h h3), if_neg (Nat.not_lt_of_le h4), if_neg (fun h => h h5)]

theorem fwpkgReadBinInfos_eq_some {f : List UInt8} {h : FwpkgHeader} {bins : List FwpkgBinInfo} :
    fwpkgReadBinInfos f h = some bins ↔
      h.cnt.toNat ≤ recordsIn f ∧ bins = (List.range h.cnt.toNat).map (recordAt f) := by
  unfold fwpkgReadBinInfos
  split
  · rename_i hlt
    exact ⟨fun h => (nomatch h), fun h => absurd h.1 (Nat.not_le_of_lt hlt)⟩
  · rename_i hge
    exact ⟨fun h => ⟨Nat.le_of_not_lt hge, (Option.some.inj h).symm⟩, fun h => congrArg some h.2.symm⟩

theorem Accepted.length_bins {f : List UInt8} {h : FwpkgHeader} {bins : List FwpkgBinInfo} (ha : Accepted f h bins) :
    bins.length = h.cnt.toNat := by
  rw [(fwpkgReadBinInfos_eq_some.1 ha.infos).2, List.length_map, List.length_range]

theorem Accepted.cnt_lt {f : List UInt8} {h : FwpkgHeader} {bins : List FwpkgBinInfo} (ha : Accepted f h bins) :
    h.cnt.toNat < MAX_PARTITION_CNT := (fwpkgReadHeader_eq_some.1 ha.head).2.2.2.1

/-! ## Names -/

theorem nul_of_named {b : FwpkgBinInfo} (h : 0 ∈ b.name) : 0 ∈ b.bytes := by
  simp [FwpkgBinInfo.bytes, h]

/-- The type of a loaderboot, and of a record that is transferred, has NULs. -/
theorem nul_of_type2 {b : FwpkgBinInfo} (h : b.type2 = 0 ∨ b.type2 = 1) : 0 ∈ b.bytes := by
  have hword : 0 ∈ le32 b.type2 := by
    rcases h with h | h <;> rw [h] <;> decide
  exact List.mem_append_right _ hword

theorem str_of_named {b : FwpkgBinInfo} (h : 0 ∈ b.name) : b.str = CStr.ofField b.name := by
  unfold FwpkgBinInfo.str FwpkgBinInfo.bytes
  simp only [List.append_assoc]
  exact CStr.ofField_append h _

theorem tableNames_cons {b : FwpkgBinInfo} (h : 0 ∈ b.bytes) (bins : List FwpkgBinInfo) :
    tableNames (b :: bins) = b.str :: tableNames bins := by
  rw [tableNames, fromRecord, CStr.ofField_append h, FwpkgBinInfo.str]

/-- **Names that end in their records** are these strings. -/
theorem tableNames_eq : ∀ {bins : List FwpkgBinInfo}, (∀ b ∈ bins, 0 ∈ b.bytes) → tableNames bins = bins.map FwpkgBinInfo.str
  | [], _        => rfl
  | b :: bins, h => by
    obtain ⟨hb, hbins⟩ := List.forall_mem_cons.1 h
    rw [tableNames_cons hb, tableNames_eq hbins, List.map_cons]

theorem tableNames_length : ∀ bins : List FwpkgBinInfo, (tableNames bins).length = bins.length
  | []        => rfl
  | _ :: bins => congrArg (· + 1) (tableNames_length bins)

theorem tableNames_getElem? : ∀ {bins : List FwpkgBinInfo} {i : Nat} {b : FwpkgBinInfo}, bins[i]? = some b → 0 ∈ b.bytes →
    (tableNames bins)[i]? = some b.str
  | [], _, _, hb, _               => by cases hb
  | _ :: bins, 0, _, hb, hnul     => by
    cases hb
    rw [tableNames_cons hnul]
    rfl
  | _ :: bins, i + 1, b, hb, hnul => @tableNames_getElem? bins i b hb hnul

theorem namesEnd_of_nul : ∀ {bins : List FwpkgBinInfo}, (∀ b ∈ bins, 0 ∈ b.bytes) → NamesEnd bins
  | [], _        => trivial
  | _ :: bins, h => by
    obtain ⟨hb, hbins⟩ := List.forall_mem_cons.1 h
    exact ⟨List.mem_append_left _ hb, namesEnd_of_nul hbins⟩

/-- **The last record decides**: a NUL there ends every name. -/
theorem namesEnd_iff (bins : List FwpkgBinInfo) : NamesEnd bins ↔ ∀ b, bins.getLast? = some b → 0 ∈ b.bytes := by
  induction bins with
  | nil => exact iff_of_true trivial (fun b hb => by cases hb)
  | cons b bins ih =>
    rw [NamesEnd, fromRecord, ih]
    cases bins with
    | nil          => simp
    | cons c bins =>
      rw [List.getLast?_cons_cons]
      refine and_iff_right_of_imp (fun hlast => List.mem_append_right _ ?_)
      have hget := List.getLast?_eq_some_getLast (List.cons_ne_nil c bins)
      exact List.mem_flatMap.2 ⟨_, List.getLast_mem _, hlast _ hget⟩

/-! ## Round trips -/

@[simp] theorem FwpkgHeader.bytes_length (h : FwpkgHeader) : h.bytes.length = headerSize := by
  simp [FwpkgHeader.bytes, headerSize]

@[simp] theorem FwpkgBinInfo.bytes_length (b : FwpkgBinInfo) : b.bytes.length = binInfoSize := by
  simp [FwpkgBinInfo.bytes, b.name_length, binInfoSize]

theorem FwpkgHeader.ofBytes_append (h : FwpkgHeader) (rest : List UInt8) : .ofBytes (h.bytes ++ rest) = h := by
  have hmgc : slice (h.bytes ++ rest) 0 4 = le32 h.mgc := by
    have := slice_append_mid (a := []) (i := 0) (le16 h.crc ++ le16 h.cnt ++ le32 h.len ++ rest) rfl (le32_length h.mgc)
    simpa only [FwpkgHeader.bytes, List.append_assoc, List.nil_append] using this
  have hcrc : slice (h.bytes ++ rest) 4 2 = le16 h.crc := by
    have := slice_append_mid (le16 h.cnt ++ le32 h.len ++ rest) (le32_length h.mgc) (le16_length h.crc)
    simpa only [FwpkgHeader.bytes, List.append_assoc] using this
  have hcnt : slice (h.bytes ++ rest) 6 2 = le16 h.cnt := by
    have := slice_append_mid (a := le32 h.mgc ++ le16 h.crc) (i := 6) (le32 h.len ++ rest) (by simp) (le16_length h.cnt)
    simpa only [FwpkgHeader.bytes, List.append_assoc] using this
  have hlen : slice (h.bytes ++ rest) 8 4 = le32 h.len := by
    have := slice_append_mid (a := le32 h.mgc ++ le16 h.crc ++ le16 h.cnt) (i := 8) rest (by simp) (le32_length h.len)
    simpa only [FwpkgHeader.bytes, List.append_assoc] using this
  unfold FwpkgHeader.ofBytes
  rw [hmgc, hcrc, hcnt, hlen, ofLe32_le32, ofLe16_le16, ofLe16_le16, ofLe32_le32]

theorem FwpkgBinInfo.ofBytes_bytes (b : FwpkgBinInfo) : .ofBytes b.bytes = b := by
  have hname : padTo 32 (b.bytes.take 32) = b.name := by
    have htake : b.bytes.take 32 = b.name := by
      simp only [FwpkgBinInfo.bytes, List.append_assoc]
      exact List.take_left' b.name_length
    rw [htake, padTo, b.name_length]
    exact List.append_nil _
  have hoffset : slice b.bytes 32 4 = le32 b.offset := by
    have := slice_append_mid (le32 b.length ++ le32 b.burnAddr ++ le32 b.burnSize ++ le32 b.type2) b.name_length
      (le32_length b.offset)
    simpa only [FwpkgBinInfo.bytes, List.append_assoc] using this
  have hlength : slice b.bytes 36 4 = le32 b.length := by
    have := slice_append_mid (a := b.name ++ le32 b.offset) (i := 36)
      (le32 b.burnAddr ++ le32 b.burnSize ++ le32 b.type2) (by simp [b.name_length]) (le32_length b.length)
    simpa only [FwpkgBinInfo.bytes, List.append_assoc] using this
  have hburnAddr : slice b.bytes 40 4 = le32 b.burnAddr := by
    have := slice_append_mid (a := b.name ++ le32 b.offset ++ le32 b.length) (i := 40)
      (le32 b.burnSize ++ le32 b.type2) (by simp [b.name_length]) (le32_length b.burnAddr)
    simpa only [FwpkgBinInfo.bytes, List.append_assoc] using this
  have hburnSize : slice b.bytes 44 4 = le32 b.burnSize := by
    have := slice_append_mid (a := b.name ++ le32 b.offset ++ le32 b.length ++ le32 b.burnAddr) (i := 44)
      (le32 b.type2) (by simp [b.name_length]) (le32_length b.burnSize)
    simpa only [FwpkgBinInfo.bytes, List.append_assoc] using this
  have htype2 : slice b.bytes 48 4 = le32 b.type2 := by
    have := slice_append_mid (a := b.name ++ le32 b.offset ++ le32 b.length ++ le32 b.burnAddr ++ le32 b.burnSize)
      (i := 48) [] (by simp [b.name_length]) (le32_length b.type2)
    simpa only [FwpkgBinInfo.bytes, List.append_assoc, List.append_nil] using this
  unfold FwpkgBinInfo.ofBytes
  simp only [hname, hoffset, hlength, hburnAddr, hburnSize, htype2, ofLe32_le32]

/-- The bytes of a table are the bytes of its records. -/
theorem flatMap_bytes_length (bins : List FwpkgBinInfo) :
    (bins.flatMap FwpkgBinInfo.bytes).length = binInfoSize * bins.length := by
  induction bins with
  | nil => rfl
  | cons b bins ih => rw [List.flatMap_cons, List.length_append, ih, FwpkgBinInfo.bytes_length, List.length_cons]; ring

/-- The record `i` of a written table. -/
theorem recordAt_append (h : FwpkgHeader) (bins : List FwpkgBinInfo) (rest : List UInt8) {i : Nat} (hi : i < bins.length) :
    recordAt (h.bytes ++ bins.flatMap FwpkgBinInfo.bytes ++ rest) i = bins[i] := by
  have hsplit : bins.flatMap FwpkgBinInfo.bytes = (bins.take i).flatMap FwpkgBinInfo.bytes ++ bins[i].bytes ++
      (bins.drop (i + 1)).flatMap FwpkgBinInfo.bytes := by
    rw [List.append_assoc, ← List.flatMap_cons, ← List.flatMap_append, List.getElem_cons_drop, List.take_append_drop]
  have hlen : (h.bytes ++ (bins.take i).flatMap FwpkgBinInfo.bytes).length = headerSize + binInfoSize * i := by
    rw [List.length_append, h.bytes_length, flatMap_bytes_length, List.length_take, Nat.min_eq_left (Nat.le_of_lt hi)]
  have hslice := slice_append_mid (i := headerSize + binInfoSize * i)
    ((bins.drop (i + 1)).flatMap FwpkgBinInfo.bytes ++ rest) hlen (FwpkgBinInfo.bytes_length bins[i])
  unfold recordAt
  rw [hsplit]
  simp only [List.append_assoc] at hslice ⊢
  rw [hslice, FwpkgBinInfo.ofBytes_bytes]

/-- What the checksum of a written package covers. -/
theorem crc_range (h : FwpkgHeader) (bins : List FwpkgBinInfo) (rest : List UInt8) :
    slice (h.bytes ++ bins.flatMap FwpkgBinInfo.bytes ++ rest) 6 (binInfoSize * bins.length + 6)
      = le16 h.cnt ++ le32 h.len ++ bins.flatMap FwpkgBinInfo.bytes := by
  have := slice_append_mid (a := le32 h.mgc ++ le16 h.crc) (b := le16 h.cnt ++ le32 h.len ++
    bins.flatMap FwpkgBinInfo.bytes) (i := 6) (n := binInfoSize * bins.length + 6) rest (by simp)
    (by simp only [List.length_append, le16_length, le32_length, flatMap_bytes_length]; omega)
  simpa only [FwpkgHeader.bytes, List.append_assoc] using this

/-- **A table that is written is read back**, with its own count. -/
theorem fwpkgReadBinInfos_written {h : FwpkgHeader} {bins : List FwpkgBinInfo} (rest : List UInt8)
    (hcnt : h.cnt.toNat = bins.length) :
    fwpkgReadBinInfos (h.bytes ++ bins.flatMap FwpkgBinInfo.bytes ++ rest) h = some bins := by
  have hlen : (h.bytes ++ bins.flatMap FwpkgBinInfo.bytes ++ rest).length
      = headerSize + binInfoSize * bins.length + rest.length := by
    rw [List.length_append, List.length_append, h.bytes_length, flatMap_bytes_length]
  refine fwpkgReadBinInfos_eq_some.2 ⟨?_, ?_⟩
  · rw [table_le (by omega), hlen, hcnt]
    exact Nat.le_add_right _ _
  · rw [hcnt]
    refine List.ext_getElem (by rw [List.length_map, List.length_range]) (fun i hi _ => ?_)
    rw [List.getElem_map, List.getElem_range, recordAt_append h bins rest hi]

/-- **A package that is written is read back**: with its own count and checksum, and fewer records than the most. -/
theorem accepted_written {h : FwpkgHeader} {bins : List FwpkgBinInfo} (rest : List UInt8) (hmgc : h.mgc = 0xefbeaddf)
    (hcnt : h.cnt.toNat = bins.length) (hmax : bins.length < MAX_PARTITION_CNT)
    (hcrc : h.crc = crc16Xmodem (le16 h.cnt ++ le32 h.len ++ bins.flatMap FwpkgBinInfo.bytes)) :
    Accepted (h.bytes ++ bins.flatMap FwpkgBinInfo.bytes ++ rest) h bins := by
  have hlen : (h.bytes ++ bins.flatMap FwpkgBinInfo.bytes ++ rest).length
      = headerSize + binInfoSize * bins.length + rest.length := by
    rw [List.length_append, List.length_append, h.bytes_length, flatMap_bytes_length]
  have hinfos := fwpkgReadBinInfos_written rest hcnt
  refine ⟨fwpkgReadHeader_eq_some.2 ⟨by rw [hlen]; omega, ?_, hmgc, by rw [hcnt]; exact hmax,
    (fwpkgReadBinInfos_eq_some.1 hinfos).1, ?_⟩, hinfos⟩
  · rw [List.append_assoc, FwpkgHeader.ofBytes_append]
  · rw [hcnt, crc_range, hcrc]

end Ws63Flash
