import Ws63Flash.Fwpkg
/-!
# FwpkgRead — the reader and its buffers

`fwpkg_read_header` reads the file into a buffer on its stack and checks that, and `fwpkg_read_bin_infos` reads the same
bytes again into memory of its own.  Here the two run on a file with a position and on buffers that hold anything
before; they are the reader of `Fwpkg`, and `readPackage_iff` says which files they take.
-/
namespace Ws63Flash

open Octets

/-- A file open for reading: its bytes, and the position in them. -/
structure InFile where
  bytes : List UInt8
  pos : Nat

def InFile.fseek (f : InFile) (pos : Nat) : InFile := { f with pos := pos }

/-- `fread`: what is stored, the number of whole members, and the file after it. -/
def InFile.fread (f : InFile) (size nmemb : Nat) : List UInt8 × Nat × InFile :=
  let stored := slice f.bytes f.pos (size * nmemb)
  (stored, stored.length / size, { f with pos := f.pos + stored.length })

/-- `buf` of `fwpkg_read_header`, with what the stack holds. -/
def HeaderBuf : Type := {bs : List UInt8 // bs.length = headerSize + binInfoSize * MAX_PARTITION_CNT}

def InFile.fwpkgReadHeader (stack : HeaderBuf) (f : InFile) : Out (Option FwpkgHeader) × InFile :=
  let f := f.fseek 0
  let (stored, ret, f) := f.fread headerSize 1
  let header := setRange (List.replicate headerSize 0) 0 stored
  if ret ≤ 0 then (.ret none, f)
  else
    let buf := setRange stack.1 0 header
    let h := FwpkgHeader.ofBytes header
    if h.mgc ≠ 0xefbeaddf then (.ret none, f)
    else if ¬ h.cnt.toNat < MAX_PARTITION_CNT then (.stop .abort, f)
    else
      let (stored, ret, f) := f.fread binInfoSize h.cnt.toNat
      let buf := setRange buf headerSize stored
      if ret < h.cnt.toNat then (.ret none, f)
      else if crc16Xmodem (slice buf 6 (binInfoSize * h.cnt.toNat + 6)) ≠ h.crc then (.ret none, f)
      else (.ret (some h), f)

/-- `heap` is what the memory for the records holds before. -/
def InFile.fwpkgReadBinInfos (heap : List UInt8) (f : InFile) (header : FwpkgHeader) :
    Option (List FwpkgBinInfo) × InFile :=
  let f := f.fseek headerSize
  let (stored, ret, f) := f.fread binInfoSize header.cnt.toNat
  let bins := setRange heap 0 stored
  if ret < header.cnt.toNat then (none, f)
  else (some ((List.range header.cnt.toNat).map (fun i => .ofBytes (slice bins (binInfoSize * i) binInfoSize))), f)

/-- The two calls, as `verb_flash` and `verb_inject` make them. -/
def readPackage (stack : HeaderBuf) (heap : List UInt8) (f : InFile) :
    Out (Option (FwpkgHeader × List FwpkgBinInfo)) :=
  match f.fwpkgReadHeader stack with
  | (.stop x, _)           => .stop x
  | (.ret none, _)         => .ret none
  | (.ret (some header), f) =>
    match f.fwpkgReadBinInfos heap header with
    | (none, _)      => .ret none
    | (some bins, _) => .ret (some (header, bins))

/-! ## The buffers hold what the file holds -/

theorem ofBytes_take {f : List UInt8} : FwpkgHeader.ofBytes (f.take headerSize) = .ofBytes f := by
  unfold FwpkgHeader.ofBytes
  rw [slice_take (by decide), slice_take (by decide), slice_take (by decide), slice_take (by decide)]

/-- The members that are whole. -/
theorem fread_members {L size n : Nat} (hs : 0 < size) : min (size * n) L / size < n ↔ L / size < n := by
  rw [Nat.div_lt_iff_lt_mul hs, Nat.div_lt_iff_lt_mul hs, Nat.mul_comm n size]
  omega

/-- **The header is that of the reader on bytes**, whatever the stack held. -/
theorem InFile.fwpkgReadHeader_eq (stack : HeaderBuf) (f : InFile) :
    (f.fwpkgReadHeader stack).1 = Ws63Flash.fwpkgReadHeader f.bytes ∧ (f.fwpkgReadHeader stack).2.bytes = f.bytes := by
  have hstored : slice f.bytes 0 headerSize = f.bytes.take headerSize := rfl
  unfold InFile.fwpkgReadHeader Ws63Flash.fwpkgReadHeader InFile.fread InFile.fseek
  dsimp only
  rw [Nat.mul_one, hstored]
  by_cases hlen : f.bytes.length < headerSize
  · have hret : (f.bytes.take headerSize).length / headerSize ≤ 0 := by
      rw [List.length_take, Nat.min_eq_right (Nat.le_of_lt hlen), Nat.div_eq_of_lt hlen]
    rw [if_pos hret, if_pos hlen]
    exact ⟨rfl, rfl⟩
  have hsize : (f.bytes.take headerSize).length = headerSize := by
    rw [List.length_take]
    omega
  have hret : ¬ (f.bytes.take headerSize).length / headerSize ≤ 0 := by
    rw [hsize]
    decide
  have hheader : setRange (List.replicate headerSize 0) 0 (f.bytes.take headerSize) = f.bytes.take headerSize :=
    setRange_zero (by rw [hsize, List.length_replicate])
  rw [if_neg hret, if_neg hlen, hheader, ofBytes_take, hsize, Nat.zero_add]
  generalize hh : FwpkgHeader.ofBytes f.bytes = h
  split
  · exact ⟨rfl, rfl⟩
  split
  · exact ⟨rfl, rfl⟩
  rename_i hcnt
  have hrecs : (slice f.bytes headerSize (binInfoSize * h.cnt.toNat)).length / binInfoSize < h.cnt.toNat ↔
      recordsIn f.bytes < h.cnt.toNat := by
    rw [slice, List.length_take, List.length_drop, fread_members (by decide)]
    rfl
  by_cases hfew : recordsIn f.bytes < h.cnt.toNat
  · rw [if_pos (hrecs.2 hfew), if_pos hfew]
    exact ⟨rfl, rfl⟩
  rw [if_neg (fun hn => hfew (hrecs.1 hn)), if_neg hfew]
  -- the buffer holds the header and the table
  have htable := (table_le (Nat.le_of_not_lt hlen)).1 (Nat.le_of_not_lt hfew)
  have hbuf : (setRange (setRange stack.1 0 (f.bytes.take headerSize)) headerSize
      (slice f.bytes headerSize (binInfoSize * h.cnt.toNat))).take (headerSize + binInfoSize * h.cnt.toNat)
        = f.bytes.take (headerSize + binInfoSize * h.cnt.toNat) := by
    have hstart : (setRange stack.1 0 (f.bytes.take headerSize)).take headerSize = f.bytes.take headerSize := by
      rw [setRange, List.take_zero, List.nil_append, List.take_left' hsize]
    have hlen : (f.bytes.take headerSize ++ slice f.bytes headerSize (binInfoSize * h.cnt.toNat)).length
        = headerSize + binInfoSize * h.cnt.toNat := by
      rw [List.length_append, hsize, slice_length htable]
    rw [setRange, hstart, List.take_left' hlen, slice, List.take_add]
  have hcrc : slice (setRange (setRange stack.1 0 (f.bytes.take headerSize)) headerSize
      (slice f.bytes headerSize (binInfoSize * h.cnt.toNat))) 6 (binInfoSize * h.cnt.toNat + 6)
        = slice f.bytes 6 (binInfoSize * h.cnt.toNat + 6) := by
    have hle : 6 + (binInfoSize * h.cnt.toNat + 6) ≤ headerSize + binInfoSize * h.cnt.toNat := by
      unfold headerSize
      omega
    rw [← slice_take hle, hbuf, slice_take hle]
  rw [hcrc]
  split
  · exact ⟨rfl, rfl⟩
  · exact ⟨rfl, rfl⟩

theorem InFile.fwpkgReadBinInfos_eq (heap : List UInt8) {f : InFile} (hlen : headerSize ≤ f.bytes.length)
    (header : FwpkgHeader) :
    (f.fwpkgReadBinInfos heap header).1 = Ws63Flash.fwpkgReadBinInfos f.bytes header := by
  unfold InFile.fwpkgReadBinInfos Ws63Flash.fwpkgReadBinInfos InFile.fread InFile.fseek
  dsimp only
  have hrecs : (slice f.bytes headerSize (binInfoSize * header.cnt.toNat)).length / binInfoSize < header.cnt.toNat ↔
      recordsIn f.bytes < header.cnt.toNat := by
    rw [slice, List.length_take, List.length_drop, fread_members (by decide)]
    rfl
  by_cases hfew : recordsIn f.bytes < header.cnt.toNat
  · rw [if_pos (hrecs.2 hfew), if_pos hfew]
  rw [if_neg (fun hn => hfew (hrecs.1 hn)), if_neg hfew]
  have hbins : ∀ i < header.cnt.toNat, slice (setRange heap 0 (slice f.bytes headerSize (binInfoSize * header.cnt.toNat)))
      (binInfoSize * i) binInfoSize = slice f.bytes (headerSize + binInfoSize * i) binInfoSize := by
    intro i hi
    have hle : binInfoSize * i + binInfoSize ≤ binInfoSize * header.cnt.toNat := by
      rw [← Nat.mul_add_one]
      exact Nat.mul_le_mul_left _ hi
    rw [setRange, List.take_zero, List.nil_append,
      slice_append_left (by rw [slice_length ((table_le hlen).1 (Nat.le_of_not_lt hfew))]; exact hle), slice_slice hle]
  show some _ = some _
  congr 1
  refine List.map_congr_left (fun i hi => ?_)
  rw [hbins i (List.mem_range.1 hi)]
  rfl

/-- The two readers together are those on bytes. -/
theorem readPackage_eq (stack : HeaderBuf) (heap : List UInt8) (f : InFile) (header : FwpkgHeader)
    (bins : List FwpkgBinInfo) :
    readPackage stack heap f = .ret (some (header, bins)) ↔ Accepted f.bytes header bins := by
  obtain ⟨hhead, hbytes⟩ := f.fwpkgReadHeader_eq stack
  unfold readPackage
  rcases hrun : f.fwpkgReadHeader stack with ⟨o, f'⟩
  rw [hrun] at hhead hbytes
  dsimp only at hhead hbytes
  constructor
  · intro h
    rcases o with (_ | header') | x
    · cases h
    · have hlen := (fwpkgReadHeader_eq_some.1 hhead.symm).1
      have hinfos := InFile.fwpkgReadBinInfos_eq heap (hbytes ▸ hlen : headerSize ≤ f'.bytes.length) header'
      dsimp only at h
      rcases hbins : f'.fwpkgReadBinInfos heap header' with ⟨_ | bins', f''⟩
      · rw [hbins] at h
        cases h
      · rw [hbins] at h hinfos
        cases h
        rw [hbytes] at hinfos
        exact ⟨hhead.symm, hinfos.symm⟩
    · cases h
  · rintro ⟨hread, hinfos⟩
    rw [hread] at hhead
    subst hhead
    have hlen := (fwpkgReadHeader_eq_some.1 hread).1
    have heq := InFile.fwpkgReadBinInfos_eq heap (hbytes ▸ hlen : headerSize ≤ f'.bytes.length) header
    rw [hbytes, hinfos] at heq
    dsimp only
    rcases hbins : f'.fwpkgReadBinInfos heap header with ⟨o, f''⟩
    rw [hbins] at heq
    subst heq
    rfl

/-- The `n` records in the bytes of a table. -/
def decodeTable (n : Nat) (table : List UInt8) : List FwpkgBinInfo :=
  (List.range n).map (fun i => .ofBytes (slice table (52 * i) 52))

/-- **What the reader takes**, and what it makes of it: the records in the bytes it has checked. -/
theorem readPackage_iff (stack : HeaderBuf) (heap : List UInt8) (f : InFile) :
    let cnt := (ofLe16 (slice f.bytes 6 2)).toNat
    ((∃ header bins, readPackage stack heap f = .ret (some (header, bins))) ↔
      12 ≤ f.bytes.length ∧ ofLe32 (slice f.bytes 0 4) = 0xefbeaddf ∧ cnt ≤ 15 ∧ 12 + 52 * cnt ≤ f.bytes.length ∧
        crc16Xmodem (slice f.bytes 6 (6 + 52 * cnt)) = ofLe16 (slice f.bytes 4 2)) ∧
    ∀ header bins, readPackage stack heap f = .ret (some (header, bins)) →
      header.cnt.toNat = cnt ∧ bins = decodeTable cnt (slice f.bytes 12 (52 * cnt)) := by
  intro cnt
  have hread : ∀ header bins, readPackage stack heap f = .ret (some (header, bins)) →
      header.cnt.toNat = cnt := fun header bins h => by
    have hacc := (readPackage_eq stack heap f header bins).1 h
    rw [(fwpkgReadHeader_eq_some.1 hacc.head).2.1]
    rfl
  constructor
  · simp only [readPackage_eq]
    constructor
    · rintro ⟨header, bins, hacc⟩
      obtain ⟨hlen, rfl, hmgc, hmax, hrecs, hcrc⟩ := fwpkgReadHeader_eq_some.1 hacc.head
      refine ⟨hlen, hmgc, Nat.le_of_lt_succ hmax, (table_le hlen).1 hrecs, ?_⟩
      rw [Nat.add_comm 6]
      exact hcrc
    · rintro ⟨hlen, hmgc, hmax, htable, hcrc⟩
      have hrecs : cnt ≤ recordsIn f.bytes := (table_le hlen).2 htable
      rw [Nat.add_comm 6] at hcrc
      exact ⟨.ofBytes f.bytes, _, fwpkgReadHeader_eq_some.2 ⟨hlen, rfl, hmgc, Nat.lt_succ_of_le hmax, hrecs, hcrc⟩,
        fwpkgReadBinInfos_eq_some.2 ⟨hrecs, rfl⟩⟩
  · intro header bins h
    have hcnt := hread header bins h
    refine ⟨hcnt, ?_⟩
    rw [(fwpkgReadBinInfos_eq_some.1 ((readPackage_eq stack heap f header bins).1 h).infos).2, hcnt, decodeTable]
    refine List.map_congr_left (fun i hi => ?_)
    have hi := List.mem_range.1 hi
    rw [slice_slice (by omega)]
    rfl

end Ws63Flash
