import Ws63Flash.FlashTrace
import Ws63Flash.Lib.Burn
import Ws63Flash.Lib.Torn
/-!
# Device — a device that burns what it reads

On a DOWNLOADI frame the device erases the area the frame names, and stores the data blocks of the session after it from
the frame's address on; other frames, and blocks outside such a transfer, go past the flash.  What it makes of a frame
or a block cut short is nothing (`cmdFrame_whole`, `whole_dev`).
-/
namespace Ws63Flash

open Octets Proc Language Units Burn

/-! ## The device -/

structure Dev where
  flash : Nat → UInt8
  /-- The transfer under way: its address, its length, and the bytes received. -/
  cur : Option (Nat × Nat × Nat)
  /-- The number of the last block. -/
  last : Option UInt8

/-- The length of the frame or block at the start. -/
def devSize : List UInt8 → Nat
  | []      => 0
  | b :: bs => if b = 0xef then leNat (slice (b :: bs) 4 2) else blkSize (b :: bs)

def Dev.frame (s : Dev) (u : List UInt8) : Dev :=
  if slice u 6 1 = [0xd2] then
    { flash := fill 0xff s.flash (leNat (slice u 8 4)) (leNat (slice u 16 4))
      cur := some (leNat (slice u 8 4), leNat (slice u 12 4), 0)
      last := none }
  else s

/-- A block with the number of the one before it is a repeat. -/
def Dev.block (s : Dev) (u : List UInt8) : Dev :=
  if u[1]? = none ∨ s.last = u[1]? then s
  else
    match s.cur with
    | none                => { s with last := u[1]? }
    | some (addr, len, n) =>
      if u.head? = some STX then
        { flash := store s.flash (addr + n) ((slice u 3 1024).take (len - n))
          cur := some (addr, len, n + 1024)
          last := u[1]? }
      else { s with last := u[1]? }

def devStep (s : Dev) (u : List UInt8) : Dev := if u.head? = some 0xef then s.frame u else s.block u

/-- The flash after the device has read `bs`. -/
def deviceFlash (m : Nat → UInt8) (bs : List UInt8) : Nat → UInt8 := (consume devSize devStep ⟨m, none, none⟩ bs).flash

/-! ## Frames -/

theorem leNat_le32 (x : UInt32) : leNat (le32 x) = x.toNat := by
  rw [le32, leNat_leBytes, Nat.mod_eq_of_lt (show x.toNat < 256 ^ 4 from x.toNat_lt)]

theorem frame_length (cmd : UInt8) (payload : List UInt8) : (frame cmd payload).length = payload.length + 10 := by
  simp only [frame, List.length_append, le16_length, List.length_cons, List.length_nil]
  omega

theorem frame_split (cmd : UInt8) (payload : List UInt8) : ∃ crc, frame cmd payload =
    [0xef, 0xbe, 0xad, 0xde] ++ le16 (UInt16.ofNat (payload.length + 10)) ++ [cmd] ++ ([swapCmd cmd] ++ payload ++ crc) := by
  refine ⟨le16 (crc16Xmodem ([0xef, 0xbe, 0xad, 0xde] ++ le16 (UInt16.ofNat (payload.length + 10)) ++
    [cmd, swapCmd cmd] ++ payload)), ?_⟩
  rw [frame]
  simp only [List.append_assoc]
  rfl

theorem frame_selfDelimiting (cmd : UInt8) {payload : List UInt8} (h : payload.length + 10 < 2 ^ 16) :
    SelfDelimiting devSize (frame cmd payload) := by
  refine ⟨fun hnil => ?_, fun rest => ?_⟩
  · have := congrArg List.length hnil
    rw [frame_length, List.length_nil] at this
    omega
  · obtain ⟨crc, hf⟩ := frame_split cmd payload
    have hslice : slice (frame cmd payload ++ rest) 4 2 = le16 (UInt16.ofNat (payload.length + 10)) := by
      rw [hf, List.append_assoc, List.append_assoc]
      exact slice_append_mid _ rfl (le16_length _)
    have hdev : devSize (frame cmd payload ++ rest) = leNat (slice (frame cmd payload ++ rest) 4 2) := rfl
    rw [hdev, hslice, le16, leNat_leBytes, UInt16.toNat_ofNat', frame_length]
    omega

theorem frame_cmd (cmd : UInt8) (payload : List UInt8) : slice (frame cmd payload) 6 1 = [cmd] := by
  obtain ⟨crc, hf⟩ := frame_split cmd payload
  rw [hf]
  exact slice_append_mid _ (by rw [List.length_append, le16_length]; rfl) rfl

theorem frame_payload (cmd : UInt8) {a b c : List UInt8} {i n : Nat} (ha : a.length + 8 = i) (hb : b.length = n) :
    slice (frame cmd (a ++ b ++ c)) i n = b := by
  obtain ⟨crc, hf⟩ := frame_split cmd (a ++ b ++ c)
  have h := slice_append_mid (a := [0xef, 0xbe, 0xad, 0xde] ++ le16 (UInt16.ofNat ((a ++ b ++ c).length + 10)) ++ [cmd] ++
    [swapCmd cmd] ++ a) (b := b) (c ++ crc) (i := i) (n := n)
    (by rw [List.length_append, List.length_append, List.length_append, List.length_append, le16_length, ← ha]
        simp only [List.length_cons, List.length_nil]
        omega) hb
  rw [hf]
  simpa only [List.append_assoc] using h

theorem frame_head (cmd : UInt8) (payload : List UInt8) : (frame cmd payload).head? = some 0xef := rfl

theorem devStep_frame (s : Dev) {cmd : UInt8} {payload : List UInt8} (hcmd : cmd ≠ 0xd2) :
    devStep s (frame cmd payload) = s := by
  rw [devStep, if_pos (frame_head _ _), Dev.frame, frame_cmd, if_neg (fun h => hcmd (List.cons.inj h).1)]

/-- The fields of a DOWNLOADI frame: `ADDR`, `ILEN` and `ERAS`. -/
theorem frame_download (addr len eras : UInt32) :
    slice (frame 0xd2 (le32 addr ++ le32 len ++ le32 eras ++ [0x00, 0xff])) 8 4 = le32 addr ∧
      slice (frame 0xd2 (le32 addr ++ le32 len ++ le32 eras ++ [0x00, 0xff])) 12 4 = le32 len ∧
      slice (frame 0xd2 (le32 addr ++ le32 len ++ le32 eras ++ [0x00, 0xff])) 16 4 = le32 eras := by
  have h8 := frame_payload 0xd2 (a := []) (b := le32 addr) (c := le32 len ++ le32 eras ++ [0x00, 0xff]) (i := 8) rfl
    (le32_length _)
  have h12 := frame_payload 0xd2 (a := le32 addr) (b := le32 len) (c := le32 eras ++ [0x00, 0xff]) (i := 12)
    (by rw [le32_length]) (le32_length _)
  have h16 := frame_payload 0xd2 (a := le32 addr ++ le32 len) (b := le32 eras) (c := [0x00, 0xff]) (i := 16)
    (by rw [List.length_append, le32_length, le32_length]) (le32_length _)
  simp only [List.nil_append, List.append_assoc] at h8 h12 h16 ⊢
  exact ⟨h8, h12, h16⟩

theorem devStep_download (s : Dev) (addr len eras : UInt32) :
    devStep s (frame 0xd2 (le32 addr ++ le32 len ++ le32 eras ++ [0x00, 0xff])) =
      ⟨fill 0xff s.flash addr.toNat eras.toNat, some (addr.toNat, len.toNat, 0), none⟩ := by
  obtain ⟨h8, h12, h16⟩ := frame_download addr len eras
  rw [devStep, if_pos (frame_head _ _), Dev.frame, if_pos (frame_cmd _ _), h8, h12, h16, leNat_le32, leNat_le32, leNat_le32]

/-- The fields as the receiver reads them. -/
theorem downloadCmd_fields (addr len eras : UInt32) :
    leNat (slice (cmdFrame (downloadCmd addr len eras)) 8 4) = addr.toNat ∧
      leNat (slice (cmdFrame (downloadCmd addr len eras)) 12 4) = len.toNat ∧
      leNat (slice (cmdFrame (downloadCmd addr len eras)) 16 4) = eras.toNat := by
  obtain ⟨h8, h12, h16⟩ := frame_download addr len eras
  rw [cmdFrame_download, h8, h12, h16, leNat_le32, leNat_le32, leNat_le32]
  exact ⟨rfl, rfl, rfl⟩

/-- The command of `--erase` has the whole address space to erase, but for its last cell. -/
theorem downloadi_eq : WS63E_FLASHINFO .downloadi = downloadCmd 0 0 0xffffffff := by
  have hdat : (WS63E_FLASHINFO .downloadi).dat = (downloadCmd 0 0 0xffffffff).dat := by decide +kernel
  rw [show WS63E_FLASHINFO .downloadi = ⟨0xd2, 14, (WS63E_FLASHINFO .downloadi).dat, (WS63E_FLASHINFO .downloadi).dat_length⟩
    from rfl]
  simp only [hdat]
  rfl

/-! ## Blocks -/

theorem block_block (s : Dev) (u : List UInt8) : (s.block u).block u = s.block u := by
  by_cases h : u[1]? = none ∨ s.last = u[1]?
  · have hs : s.block u = s := by rw [Dev.block, if_pos h]
    rw [hs, hs]
  · have hlast : (s.block u).last = u[1]? := by
      rw [Dev.block, if_neg h]
      split
      · rfl
      · split <;> rfl
    rw [Dev.block, if_pos (Or.inr hlast)]

theorem head_of_selfDelimiting {u : List UInt8} (hu : SelfDelimiting blkSize u) : u.head? ≠ some 0xef := by
  intro h
  obtain ⟨tl, rfl⟩ := List.head?_eq_some_iff.1 h
  exact absurd (hu.2 []) (by simp [blkSize, SOH, STX, EOT])

theorem selfDelimiting_dev {u : List UInt8} (hu : SelfDelimiting blkSize u) : SelfDelimiting devSize u := by
  refine ⟨hu.1, fun rest => ?_⟩
  have hhead := head_of_selfDelimiting hu
  obtain ⟨b, bs, rfl⟩ := List.exists_cons_of_ne_nil hu.1
  have hb : ¬ b = 0xef := fun h => hhead (by rw [h]; rfl)
  rw [← hu.2 rest]
  exact if_neg hb

theorem devStep_blk {u : List UInt8} (hu : SelfDelimiting blkSize u) (s : Dev) : devStep s u = s.block u :=
  if_neg (head_of_selfDelimiting hu)

theorem devStep_idem {u : List UInt8} (hu : SelfDelimiting blkSize u) (s : Dev) :
    devStep (devStep s u) u = devStep s u := by
  rw [devStep_blk hu, devStep_blk hu, block_block]

theorem block_sohBlk (m : Nat → UInt8) (c : Option (Nat × Nat × Nat)) (l : Option UInt8) (seq : UInt8)
    (p : List UInt8) : Dev.block ⟨m, c, l⟩ (sohBlk seq p) = ⟨m, c, some seq⟩ := by
  have h1 : (sohBlk seq p)[1]? = some seq := rfl
  rw [Dev.block, h1]
  by_cases hl : l = some seq
  · rw [if_pos (Or.inr hl), hl]
  · rw [if_neg (fun h => h.elim (fun h => nomatch h) hl)]
    cases c with
    | none   => rfl
    | some x => rfl

theorem block_stxBlk (m : Nat → UInt8) (addr len n : Nat) {l : Option UInt8} {seq : UInt8} {p : List UInt8}
    (hp : p.length = 1024) (hl : l ≠ some seq) : Dev.block ⟨m, some (addr, len, n), l⟩ (stxBlk seq p) =
      ⟨store m (addr + n) (p.take (len - n)), some (addr, len, n + 1024), some seq⟩ := by
  have h1 : (stxBlk seq p)[1]? = some seq := rfl
  have hpay : slice (stxBlk seq p) 3 1024 = p := slice_append_mid _ rfl hp
  rw [Dev.block, h1, if_neg (fun h => h.elim (fun h => nomatch h) hl)]
  show (if (stxBlk seq p).head? = some STX then _ else _) = _
  rw [if_pos (show (stxBlk seq p).head? = some STX from rfl), hpay]

/-- A payload cut to what is missing is the chunk it was filled up from. -/
theorem take_payload {data : List UInt8} {i : Nat} (h : 1024 * i < data.length) :
    (padTo 1024 (slice data (1024 * i) 1024)).take (data.length - 1024 * i) = slice data (1024 * i) 1024 := by
  have hlen : (slice data (1024 * i) 1024).length = min 1024 (data.length - 1024 * i) := by
    rw [slice, List.length_take, List.length_drop]
  by_cases hfull : 1024 ≤ data.length - 1024 * i
  · rw [List.take_of_length_le (by rw [chunk_length]; exact hfull), padTo, hlen, Nat.min_eq_left hfull, Nat.sub_self]
    exact List.append_nil _
  · have hshort : data.length - 1024 * i = (slice data (1024 * i) 1024).length := by rw [hlen]; omega
    rw [hshort, take_padTo]

/-- **The data blocks store the data**, block by block. -/
theorem foldl_dataBlksTo (m : Nat → UInt8) (addr : Nat) (data : List UInt8) : ∀ i, i ≤ totalBlk data.length →
    (dataBlksTo data i).foldl devStep ⟨m, some (addr, data.length, 0), some 0⟩ =
      ⟨store m addr (data.take (1024 * i)), some (addr, data.length, 1024 * i), some (UInt8.ofNat (i % 256))⟩
  | 0, _     => by
    rw [Nat.mul_zero, List.take_zero, store_nil]
    rfl
  | i + 1, h => by
    have hlt : 1024 * i < data.length := totalBlk_lt h
    have hne : some (UInt8.ofNat (i % 256)) ≠ some (UInt8.ofNat ((i + 1) % 256)) := fun heq => by
      have := congrArg UInt8.toNat (Option.some.inj heq)
      rw [UInt8.toNat_ofNat', UInt8.toNat_ofNat'] at this
      omega
    have htake : (data.take (1024 * i)).length = 1024 * i := by rw [List.length_take]; omega
    rw [dataBlksTo_succ, List.foldl_append, foldl_dataBlksTo m addr data i (Nat.le_of_succ_le h), dataBlk_eq,
      List.foldl_cons, List.foldl_nil, devStep_blk (stxBlk_selfDelimiting (chunk_length data i)),
      block_stxBlk _ _ _ _ (chunk_length data i) hne, take_payload hlt]
    have hstore := store_append m addr (data.take (1024 * i)) (slice data (1024 * i) 1024)
    rw [htake] at hstore
    rw [hstore, slice, ← List.take_add, Nat.mul_add_one]

/-- What follows the data blocks goes past the flash. -/
theorem foldl_endBlks : ∀ (us : List (List UInt8)) (s : Dev), (∀ u ∈ us, u = [EOT] ∨ u = blkEnd) →
    (us.foldl devStep s).flash = s.flash
  | [], _, _      => rfl
  | u :: us, s, h => by
    rw [List.foldl_cons, foldl_endBlks us _ (fun v hv => h v (List.mem_cons_of_mem _ hv))]
    rcases h u List.mem_cons_self with rfl | rfl
    · rfl
    · rw [devStep_blk blkEnd_selfDelimiting, blkEnd_eq, block_sohBlk]

/-- The first `k` blocks of a session after a DOWNLOADI frame store the data of all but block 0. -/
theorem foldl_sessionBlks_take (m : Nat → UInt8) (addr : Nat) (fn : CStr) {data : List UInt8}
    (hmax : data.length ≤ xferMax) (k : Nat) :
    (((sessionBlks fn data).take k).foldl devStep ⟨m, some (addr, data.length, 0), none⟩).flash =
      store m addr (data.take (1024 * (k - 1))) := by
  have h0 : devStep ⟨m, some (addr, data.length, 0), none⟩ (blk0 fn data.length) =
      ⟨m, some (addr, data.length, 0), some 0⟩ := by
    obtain ⟨p, _, heq⟩ := blk0_shape fn data.length
    rw [devStep_blk (blk0_selfDelimiting fn data.length), heq, block_sohBlk]
  have hnum : (dataBlks data).length = totalBlk data.length := by rw [dataBlks, List.length_map, List.length_range]
  cases k with
  | zero => exact (store_nil m addr).symm
  | succ k =>
    rw [sessionBlks, List.cons_append, List.take_succ_cons, List.foldl_cons, h0, Nat.add_sub_cancel]
    by_cases hk : k ≤ totalBlk data.length
    · have hdata : (dataBlks data ++ [[EOT], blkEnd]).take k = dataBlksTo data k := by
        rw [List.take_append_of_le_length (by rw [hnum]; exact hk), dataBlks, dataBlksTo, ← List.map_take,
          List.take_range, Nat.min_eq_left hk]
      rw [hdata, foldl_dataBlksTo m addr data k hk]
    · have hdata : dataBlks data = dataBlksTo data (totalBlk data.length) := rfl
      have hall := totalBlk_mul hmax
      rw [List.take_append, List.take_of_length_le (by rw [hnum]; omega), List.foldl_append, hdata,
        foldl_dataBlksTo m addr data _ (Nat.le_refl _), foldl_endBlks _ _ (fun u hu => by
          simpa using List.mem_of_mem_take hu), List.take_of_length_le hall,
        List.take_of_length_le (show data.length ≤ 1024 * k by omega)]

/-- A session after a DOWNLOADI frame stores its data. -/
theorem foldl_sessionBlks (m : Nat → UInt8) (addr : Nat) (fn : CStr) {data : List UInt8} (hmax : data.length ≤ xferMax) :
    ((sessionBlks fn data).foldl devStep ⟨m, some (addr, data.length, 0), none⟩).flash = store m addr data := by
  have hall := totalBlk_mul hmax
  have hlen : (sessionBlks fn data).length = totalBlk data.length + 3 := by
    rw [sessionBlks, List.length_append, List.length_cons, dataBlks, List.length_map, List.length_range]
    rfl
  have htake := foldl_sessionBlks_take m addr fn hmax (sessionBlks fn data).length
  rwa [List.take_length, hlen, List.take_of_length_le (by omega)] at htake

/-! ## Cut short -/

theorem frame_whole (cmd : UInt8) {payload : List UInt8} (h : payload.length + 10 < 2 ^ 8) :
    Whole devSize (frame cmd payload) := by
  refine ⟨frame_selfDelimiting cmd (by omega), fun k hk => units_short ?_⟩
  obtain ⟨crc, hf⟩ := frame_split cmd payload
  have hlen : (UInt16.ofNat (payload.length + 10)).toNat = payload.length + 10 := by
    rw [UInt16.toNat_ofNat']
    omega
  have hslice : slice (frame cmd payload) 4 2 = leBytes 2 (payload.length + 10) := by
    rw [← hlen, hf, List.append_assoc]
    exact slice_append_mid _ rfl (le16_length _)
  have hcut : slice ((frame cmd payload).take k) 4 2 = (leBytes 2 (payload.length + 10)).take (k - 4) := by
    rw [← hslice, slice, slice, List.drop_take, List.take_take, List.take_take, Nat.min_comm]
  rw [frame_length] at hk
  cases k with
  | zero => exact Or.inl rfl
  | succ k =>
    -- the magic byte is there, so the size is what is there of the length field
    have hsize : devSize ((frame cmd payload).take (k + 1)) = leNat (slice ((frame cmd payload).take (k + 1)) 4 2) := rfl
    rw [List.length_take, hsize, hcut, frame_length]
    by_cases hk4 : k + 1 ≤ 4
    · left
      rw [Nat.sub_eq_zero_of_le hk4]
      rfl
    · by_cases hk5 : k + 1 = 5
      · right
        have hone : (leBytes 2 (payload.length + 10)).take (k + 1 - 4) = leBytes 1 (payload.length + 10) := by
          rw [hk5]
          rfl
        rw [hone, leNat_leBytes]
        omega
      · right
        rw [List.take_of_length_le (by rw [leBytes_length]; omega), leNat_leBytes]
        omega

theorem whole_dev {u : List UInt8} (hu : SelfDelimiting blkSize u) : Whole devSize u := by
  refine ⟨selfDelimiting_dev hu, fun k hk => units_short ?_⟩
  obtain ⟨b, bs, rfl⟩ := List.exists_cons_of_ne_nil hu.1
  cases k with
  | zero => exact Or.inl rfl
  | succ k =>
    have hb : ¬ b = 0xef := fun h => head_of_selfDelimiting hu (by rw [h]; rfl)
    have hsize : devSize ((b :: bs).take (k + 1)) = blkSize (b :: bs ++ []) := if_neg hb
    rw [hsize, hu.2 [], List.length_take]
    omega

/-! ## What goes past the flash -/

/-- Outside a DOWNLOADI transfer, and to no effect on the flash. -/
def Dev.Past (s s' : Dev) : Prop := s.cur = none → s'.cur = none ∧ s'.flash = s.flash

theorem Dev.Past.refl (s : Dev) : s.Past s := fun hs => ⟨hs, rfl⟩

theorem Dev.Past.trans (s s' s'' : Dev) (h1 : s.Past s') (h2 : s'.Past s'') : s.Past s'' := fun hs => by
  obtain ⟨hc, hf⟩ := h1 hs
  obtain ⟨hc', hf'⟩ := h2 hc
  exact ⟨hc', hf'.trans hf⟩

theorem frame_past {cmd : UInt8} {payload : List UInt8} (hcmd : cmd ≠ 0xd2) (h : payload.length + 10 < 2 ^ 8) :
    Keeps devSize devStep (word (frame cmd payload)) Dev.Past :=
  .word (frame_whole cmd h) Dev.Past.refl (fun s => by rw [devStep_frame s hcmd]; exact .refl s)

theorem wholeBlk_past : Keeps devSize devStep (KStar.kstar wholeBlk) Dev.Past := by
  refine (Keeps.units (fun u hu => whole_dev hu) Dev.Past.refl (fun u hu s hs => ?_)).kstar Dev.Past.refl Dev.Past.trans
  rw [devStep_blk hu, Dev.block]
  split
  · exact ⟨hs, rfl⟩
  · rw [hs]
    exact ⟨rfl, rfl⟩

theorem handshake_past (a : Args) : Keeps devSize devStep (plus (word (cmdFrame (handshakeCmd a)))) Dev.Past := by
  rw [cmdFrame_handshake]
  exact ((frame_past (by decide) (by simp)).kstar Dev.Past.refl Dev.Past.trans).subset (fun w hw => plus_subset_kstar hw)

theorem switchTrace_past (a : Args) (switch : Bool) : Keeps devSize devStep (switchTrace a switch) Dev.Past := by
  unfold switchTrace
  split
  · rw [cmdFrame_setbaudr]
    exact frame_past (by decide) (by simp)
  · exact .one Dev.Past.refl

/-- Reset frames leave the device as it is. -/
theorem resets_torn : Torn devSize devStep resets (fun s s' => s' = s) := by
  have hrst : Keeps devSize devStep (word (frame 0x87 [0x00, 0x00])) (fun s s' => s' = s) :=
    .word (frame_whole _ (by decide)) (fun _ => rfl) (fun s => devStep_frame s (by decide))
  have hstar := hrst.kstar (fun _ => rfl) (fun _ _ _ h1 h2 => h2.trans h1)
  rw [resets, cmdFrame_rst]
  exact hstar.torn.mul hstar.effect hrst.torn.prefixes (fun _ _ h => h) (fun _ _ _ h1 h2 => h2.trans h1)

end Ws63Flash
