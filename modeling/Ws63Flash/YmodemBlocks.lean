import Ws63Flash.Lib.Units
import Ws63Flash.Ymodem
/-!
# YmodemBlocks — the blocks on the wire, and a reader of them

Block 0 of a name and length that fit is the name, a NUL and the length as text, zero-filled (`blk0_eq`).  The blocks
of a session delimit themselves, so a reader that cuts the stream into blocks, drops repeats and truncates to the
length gets the data back (`readSession_repeated`).
-/
namespace Ws63Flash

open Octets Units Language

/-- A 128-byte block. -/
def sohBlk (seq : UInt8) (payload : List UInt8) : List UInt8 :=
  [SOH, seq, 0xff - seq] ++ payload ++ be16 (crc16Xmodem payload)

/-- A 1024-byte block. -/
def stxBlk (seq : UInt8) (payload : List UInt8) : List UInt8 :=
  [STX, seq, 0xff - seq] ++ payload ++ be16 (crc16Xmodem payload)

/-- The payload of block 0: the name, a NUL, the length in hexadecimal, and zero bytes. -/
def fileInfo (fn : CStr) (len : Nat) : List UInt8 := padTo 128 (fn.bytes ++ [0] ++ lenText len)

/-- The name and the length, each with its NUL, fit the 128 bytes of block 0. -/
def FitsBlk0 (fn : CStr) (len : Nat) : Prop := fn.strlen + 1 + (lenText len).length + 1 ≤ 128

instance (fn : CStr) (len : Nat) : Decidable (FitsBlk0 fn len) := inferInstanceAs (Decidable (_ ≤ _))

/-- The data blocks of `data`: block `i + 1` carries the bytes from `1024 * i` on. -/
def dataBlks (data : List UInt8) : List (List UInt8) :=
  (List.range (totalBlk data.length)).map (fun i => dataBlk (i + 1) (slice data (1024 * i) 1024))

/-- What a session sends, in order. -/
def sessionBlks (fn : CStr) (data : List UInt8) : List (List UInt8) :=
  blk0 fn data.length :: dataBlks data ++ [[EOT], blkEnd]

theorem dataBlk_eq (i : Nat) (chunk : List UInt8) :
    dataBlk i chunk = stxBlk (UInt8.ofNat (i % 0x100)) (padTo 1024 chunk) := rfl

theorem sealSoh_eq {a p c : List UInt8} (hh : a.length = 3) (hp : p.length = 128) (hc : 2 ≤ c.length) :
    sealSoh (a ++ p ++ c) = a ++ p ++ be16 (crc16Xmodem p) := by
  have hset := setRange_append (c.drop 2) (a := a ++ p) (b := c.take 2) (s := be16 (crc16Xmodem p)) (i := 131)
    (by rw [List.length_append, hh, hp]) (by rw [be16_length, List.length_take]; omega)
  rw [List.append_assoc (a ++ p), List.take_append_drop] at hset
  rw [sealSoh, slice_append_mid c hh hp, hset, List.take_left' (by simp [hh, hp])]

theorem zeros_append (a b : Nat) : List.replicate a (0 : UInt8) ++ List.replicate b 0 = List.replicate (a + b) 0 :=
  List.replicate_append_replicate

theorem zero_append (n : Nat) : [(0 : UInt8)] ++ List.replicate n 0 = List.replicate (n + 1) 0 := rfl

theorem header_eq : setRange (List.replicate 1029 0) 0 [SOH, 0x00, 0xff]
    = [SOH, 0x00, 0xff] ++ List.replicate 1026 (0 : UInt8) := by
  have h := setRange_append (List.replicate 1026 0) (a := []) (b := List.replicate 3 0) (s := [SOH, 0x00, 0xff])
    (i := 0) rfl rfl
  rwa [List.nil_append, List.nil_append, zeros_append] at h

theorem blkEnd_eq : blkEnd = sohBlk 0 (List.replicate 128 0) := by
  have h := sealSoh_eq (a := [SOH, 0x00, 0xff]) (p := List.replicate 128 0) (c := List.replicate 898 0) rfl
    List.length_replicate (by rw [List.length_replicate]; omega)
  rw [List.append_assoc, zeros_append] at h
  rw [blkEnd, header_eq, h]
  rfl

theorem fileInfo_length {fn : CStr} {len : Nat} (h : FitsBlk0 fn len) : (fileInfo fn len).length = 128 := by
  unfold FitsBlk0 CStr.strlen at h
  apply padTo_length
  simp only [List.length_append, List.length_cons, List.length_nil]
  omega

/-- The 128 bytes after the header once `strncpy` has stored the name, and once `snprintf` has stored the text. -/
theorem blk0Buf_eq {fn : CStr} {len : Nat} (h : FitsBlk0 fn len) :
    blk0Buf fn len = [SOH, 0x00, 0xff] ++ fileInfo fn len ++ List.replicate 898 0 := by
  unfold FitsBlk0 CStr.strlen at h
  unfold blk0Buf fileInfo CStr.strlen
  generalize lenText len = text at h ⊢
  generalize hs : fn.bytes.length = s at h
  have hroom : (2 ^ 64 + 127 - s) % 2 ^ 64 = 127 - s := by omega
  have hname : setRange ([SOH, 0x00, 0xff] ++ List.replicate 1026 0) 3 (padTo 128 (fn.bytes.take 128))
      = [SOH, 0x00, 0xff] ++ fn.bytes ++ [0] ++ List.replicate (text.length + 1) 0
        ++ (List.replicate (126 - s - text.length) 0 ++ List.replicate 898 0) := by
    have h1 := setRange_append (List.replicate 898 0) (a := [SOH, 0x00, 0xff]) (b := List.replicate 128 0)
      (s := padTo 128 fn.bytes) (i := 3) rfl (by rw [padTo_length (by omega), List.length_replicate])
    rw [List.append_assoc, zeros_append] at h1
    have hz : List.replicate (128 - s) (0 : UInt8)
        = [0] ++ List.replicate (text.length + 1) 0 ++ List.replicate (126 - s - text.length) 0 := by
      rw [zero_append, zeros_append]
      congr 1
      omega
    rw [List.take_of_length_le (by omega), h1, padTo, hs, hz]
    simp only [List.append_assoc]
  have htext : setRange ([SOH, 0x00, 0xff] ++ fn.bytes ++ [0] ++ List.replicate (text.length + 1) 0
        ++ (List.replicate (126 - s - text.length) 0 ++ List.replicate 898 0)) (3 + s + 1) (text ++ [0])
      = [SOH, 0x00, 0xff] ++ fn.bytes ++ [0] ++ (text ++ [0])
        ++ (List.replicate (126 - s - text.length) 0 ++ List.replicate 898 0) := by
    refine setRange_append _ ?_ (by rw [List.length_append, List.length_replicate]; rfl)
    simp only [List.length_append, List.length_cons, List.length_nil, hs]
  have hz : List.replicate (128 - (fn.bytes ++ [0] ++ text).length) (0 : UInt8)
      = [0] ++ List.replicate (126 - s - text.length) 0 := by
    rw [zero_append]
    congr 1
    simp only [List.length_append, List.length_cons, List.length_nil, hs]
    omega
  simp only [header_eq, hname, hroom]
  rw [if_neg (by omega), List.take_of_length_le (by omega), htext, padTo, hz]
  simp only [List.append_assoc]

/-- **Block 0 of a name and length that fit.** -/
theorem blk0_eq {fn : CStr} {len : Nat} (h : FitsBlk0 fn len) : blk0 fn len = sohBlk 0 (fileInfo fn len) := by
  rw [blk0, blk0Buf_eq h, sealSoh_eq rfl (fileInfo_length h) (by rw [List.length_replicate]; omega)]
  rfl

/-- Block 0 is a block of 128 bytes whatever the name: a long one only runs into what is not sent. -/
theorem blk0_shape (fn : CStr) (len : Nat) : ∃ p : List UInt8, p.length = 128 ∧ blk0 fn len = sohBlk 0 p := by
  have hlen : ([SOH, 0x00, 0xff] ++ List.replicate 1026 (0 : UInt8)).length = 1029 := by
    rw [List.length_append, List.length_replicate]
    rfl
  have hbuf : (blk0Buf fn len).take 3 = [SOH, 0x00, 0xff] ∧ 1029 ≤ (blk0Buf fn len).length := by
    have hname := setRange_keeps (n := 3) (i := 3) (padTo 128 (fn.bytes.take 128)) (Nat.le_refl _)
      (by rw [hlen]; omega : 3 ≤ ([SOH, 0x00, 0xff] ++ List.replicate 1026 (0 : UInt8)).length)
    rw [hlen] at hname
    unfold blk0Buf
    rw [header_eq]
    dsimp only
    split
    · exact hname
    · have htext := setRange_keeps (n := 3) (i := 3 + fn.strlen + 1)
        ((lenText len).take ((2 ^ 64 + 127 - fn.strlen) % 2 ^ 64 - 1) ++ [0]) (by omega) (le_trans (by omega) hname.2)
      exact ⟨htext.1.trans hname.1, hname.2.trans htext.2⟩
  unfold blk0
  generalize blk0Buf fn len = buf at hbuf
  have hp : (slice buf 3 128).length = 128 := slice_length (by omega)
  have hsplit : buf = [SOH, 0x00, 0xff] ++ slice buf 3 128 ++ buf.drop 131 := by
    rw [← hbuf.1, List.append_assoc, slice, ← List.drop_drop (i := 128) (j := 3), List.take_append_drop,
      List.take_append_drop]
  refine ⟨slice buf 3 128, hp, ?_⟩
  rw [hsplit, sealSoh_eq rfl hp (by rw [List.length_drop]; omega), ← hsplit]
  rfl

/-! ## A reader -/

/-- The length of the block that starts with the byte given. -/
def blkSize : List UInt8 → Nat
  | []     => 0
  | b :: _ => if b = SOH then 133 else if b = STX then 1029 else if b = EOT then 1 else 0

/-- What tells a block from a repeat of the one before it: its kind and sequence number. -/
def blkKey (b : List UInt8) : List UInt8 := b.take 2

/-- The data of a session of `len` bytes: its blocks without repeats, the payloads of the data blocks, truncated. -/
def readSession (len : Nat) (bs : List UInt8) : List UInt8 :=
  (((dropRepeats blkKey none (units blkSize bs)).filter (fun b => b.head? = some STX)).flatMap
    (fun b => slice b 3 1024)).take len

theorem sohBlk_selfDelimiting {seq : UInt8} {p : List UInt8} (hp : p.length = 128) :
    SelfDelimiting blkSize (sohBlk seq p) := by
  refine ⟨List.cons_ne_nil _ _, fun rest => ?_⟩
  simp only [sohBlk, List.length_append, hp, be16_length]
  rfl

theorem stxBlk_selfDelimiting {seq : UInt8} {p : List UInt8} (hp : p.length = 1024) :
    SelfDelimiting blkSize (stxBlk seq p) := by
  refine ⟨List.cons_ne_nil _ _, fun rest => ?_⟩
  simp only [stxBlk, List.length_append, hp, be16_length]
  rfl

theorem eot_selfDelimiting : SelfDelimiting blkSize [EOT] := ⟨List.cons_ne_nil _ _, fun _ => rfl⟩

theorem chunk_length (data : List UInt8) (i : Nat) : (padTo 1024 (slice data (1024 * i) 1024)).length = 1024 :=
  padTo_length (by rw [slice, List.length_take]; omega)

theorem blkEnd_selfDelimiting : SelfDelimiting blkSize blkEnd := by
  rw [blkEnd_eq]
  exact sohBlk_selfDelimiting List.length_replicate

theorem blk0_selfDelimiting (fn : CStr) (len : Nat) : SelfDelimiting blkSize (blk0 fn len) := by
  obtain ⟨p, hp, heq⟩ := blk0_shape fn len
  rw [heq]
  exact sohBlk_selfDelimiting hp

theorem dataBlks_selfDelimiting {data u : List UInt8} (h : u ∈ dataBlks data) : SelfDelimiting blkSize u := by
  obtain ⟨i, _, rfl⟩ := List.mem_map.1 h
  exact stxBlk_selfDelimiting (chunk_length data i)

theorem sessionBlks_selfDelimiting {fn : CStr} {data u : List UInt8} (h : u ∈ sessionBlks fn data) :
    SelfDelimiting blkSize u := by
  rw [sessionBlks, List.cons_append, List.mem_cons, List.mem_append, List.mem_cons, List.mem_singleton] at h
  rcases h with rfl | h | rfl | rfl
  · exact blk0_selfDelimiting fn data.length
  · exact dataBlks_selfDelimiting h
  · exact eot_selfDelimiting
  · exact blkEnd_selfDelimiting

theorem blkKey_dataBlk (i : Nat) (chunk : List UInt8) : blkKey (dataBlk i chunk) = [STX, UInt8.ofNat (i % 256)] := rfl

theorem blkKey_succ (i : Nat) (c c' : List UInt8) : blkKey (dataBlk i c) ≠ blkKey (dataBlk (i + 1) c') := by
  rw [blkKey_dataBlk, blkKey_dataBlk]
  intro h
  have := congrArg UInt8.toNat (List.cons.inj (List.cons.inj h).2).1
  rw [UInt8.toNat_ofNat', UInt8.toNat_ofNat'] at this
  omega

theorem dataBlks_chain (data : List UInt8) : (dataBlks data).IsChain (fun u v => blkKey u ≠ blkKey v) := by
  refine List.isChain_map_of_isChain _ (R := fun i j => j = i + 1) (fun i j h => ?_) ?_
  · rw [h]; exact blkKey_succ _ _ _
  · rw [List.range_eq_range']
    exact List.isChain_range' 0 _ 1

/-- The blocks of a session: no two neighbours have the same key. -/
theorem sessionBlks_chain (fn : CStr) (data : List UInt8) :
    (sessionBlks fn data).IsChain (fun u v => blkKey u ≠ blkKey v) := by
  have hk0 : blkKey (blk0 fn data.length) = [SOH, 0] := by
    obtain ⟨p, _, heq⟩ := blk0_shape fn data.length
    rw [heq]
    rfl
  have hkE : blkKey blkEnd = [SOH, 0] := by rw [blkEnd_eq]; rfl
  have hkD : ∀ u ∈ dataBlks data, ∃ s, blkKey u = [STX, s] := fun u hu => by
    obtain ⟨i, _, rfl⟩ := List.mem_map.1 hu
    exact ⟨_, blkKey_dataBlk _ _⟩
  have htail : [[EOT], blkEnd].IsChain (fun u v => blkKey u ≠ blkKey v) := by
    rw [List.isChain_cons_cons, hkE]
    exact ⟨by decide, List.isChain_singleton _⟩
  rw [sessionBlks, List.cons_append, List.isChain_cons, List.isChain_append]
  refine ⟨fun y hy => ?_, dataBlks_chain data, htail, fun x hx y hy => ?_⟩
  · rw [hk0]
    rcases hd : dataBlks data with _ | ⟨u, us⟩
    · rw [hd] at hy
      obtain rfl : [EOT] = y := Option.some.inj hy
      decide
    · rw [hd] at hy
      obtain rfl : u = y := Option.some.inj hy
      obtain ⟨s, hs⟩ := hkD u (by rw [hd]; exact List.mem_cons_self)
      rw [hs]
      exact fun h => absurd (List.cons.inj h).1 (by decide)
  · obtain ⟨s, hs⟩ := hkD x (List.mem_of_getLast? hx)
    obtain rfl : [EOT] = y := Option.some.inj hy
    rw [hs]
    exact fun h => absurd (List.cons.inj h).1 (by decide)

/-- **Reading a session back**: dropping the repeats and truncating recovers the data. -/
theorem readSession_repeated {fn : CStr} {data w : List UInt8} (hfit : FitsBlk0 fn data.length)
    (hmax : data.length ≤ xferMax) (hw : w ∈ repeated (sessionBlks fn data)) : readSession data.length w = data := by
  have hdata : ∀ u ∈ dataBlks data, decide (u.head? = some STX) = true := fun u hu => by
    obtain ⟨i, _, rfl⟩ := List.mem_map.1 hu
    rfl
  have hlen := totalBlk_mul hmax
  have hfilter : (sessionBlks fn data).filter (fun b => b.head? = some STX) = dataBlks data := by
    rw [sessionBlks, List.cons_append, List.filter_cons, List.filter_append, List.filter_eq_self.2 hdata, blk0_eq hfit,
      blkEnd_eq]
    exact List.append_nil _
  have hmap : (dataBlks data).flatMap (fun b => slice b 3 1024) = padTo (1024 * totalBlk data.length) data := by
    rw [dataBlks, List.flatMap_map, ← flatMap_chunks 1024 _ data hlen]
    congr 1
    funext i
    exact slice_append_mid _ rfl (chunk_length data i)
  rw [readSession, dropRepeats_repeated rfl blkKey (fun u hu => sessionBlks_selfDelimiting hu) hw,
    dropRepeats_of_chain _ none (fun _ _ h => (nomatch h)) (sessionBlks_chain fn data), hfilter, hmap, take_padTo]

end Ws63Flash
