import Ws63Flash.Crc
import Ws63Flash.Lib.ShiftReg
/-!
# CrcBits — the table of `crc16_xmodem` and its polynomial

One look-up in `crc16_tbl` is eight steps of a shift register for x^16 + x^12 + x^5 + 1, so that the checksum of bytes
is what the register makes of their bits, each byte's most significant bit first (`crc16Xmodem_bits`), and what the
definition bit by bit says (`crc16Xmodem_bitwise`).
-/
namespace Ws63Flash

open ShiftReg

/-- x^12 + x^5 + 1. -/
def crcPoly : BitVec 16 := 0x1021#16

/-- The bits of a byte as the checksum takes them. -/
def byteBits (b : UInt8) : List Bool := (List.range 8).map b.toBitVec.getMsbD

@[simp] theorem byteBits_length (b : UInt8) : (byteBits b).length = 8 := by
  rw [byteBits, List.length_map, List.length_range]

theorem byteBits_xor (a b : UInt8) : byteBits (a ^^^ b) = List.zipWith xor (byteBits a) (byteBits b) := by
  unfold byteBits
  rw [List.zipWith_map, List.zipWith_self]
  refine List.map_congr_left (fun i _ => ?_)
  rw [UInt8.toBitVec_xor, BitVec.getMsbD_xor]

/-- Eight steps move the lower byte up. -/
theorem steps_low (r : BitVec 16) (h : r.toNat < 256) : (step crcPoly)^[8] r = r <<< 8 := by
  have hall : ∀ n < 256, (step crcPoly)^[8] (BitVec.ofNat 16 n) = BitVec.ofNat 16 n <<< 8 := by decide +kernel
  have := hall r.toNat h
  rwa [BitVec.ofNat_toNat, BitVec.setWidth_eq] at this

/-- **The table** holds what the register makes of a byte. -/
theorem crc16Tbl_eq (b : UInt8) : (crc16Tbl.get b.toFin).toBitVec = feed crcPoly 0#16 (byteBits b) := by
  have hall : ∀ i : Fin 256, (crc16Tbl.get i).toBitVec = feed crcPoly 0#16 (byteBits (UInt8.ofFin i)) := by
    decide +kernel
  exact hall b.toFin

/-- The upper byte, as the look-up takes it. -/
theorem getMsbD_high (crc : UInt16) (i : Nat) (h : i < 8) :
    (crc >>> 8).toUInt8.toBitVec.getMsbD i = crc.toBitVec.getMsbD i := by
  have hshift : (crc >>> 8).toUInt8.toBitVec = (crc.toBitVec >>> 8).setWidth 8 := rfl
  rw [hshift, BitVec.getMsbD_eq_getLsbD, BitVec.getMsbD_eq_getLsbD, BitVec.getLsbD_setWidth, BitVec.getLsbD_ushiftRight]
  have h1 : 8 - 1 - i < 8 := by omega
  have h2 : 8 + (8 - 1 - i) = 16 - 1 - i := by omega
  simp [h, h1, h2, show i < 16 by omega]

/-- A register is its upper byte, at the top, and its lower byte. -/
theorem split_register (crc : UInt16) :
    crc.toBitVec = window (byteBits (crc >>> 8).toUInt8) ^^^ (crc.toBitVec &&& 0xff#16) := by
  have hmask : ∀ i < 16, (0xff#16).getMsbD i = decide (8 ≤ i) := by decide
  apply BitVec.eq_of_getMsbD_eq
  intro i hi
  rw [BitVec.getMsbD_xor, getMsbD_window _ i hi, BitVec.getMsbD_and, hmask i hi, byteBits, List.getElem?_map]
  by_cases h8 : i < 8
  · rw [List.getElem?_range h8]
    simp only [Option.map_some, Option.getD_some, getMsbD_high crc i h8]
    simp [show ¬ 8 ≤ i by omega]
  · rw [List.getElem?_eq_none (by rw [List.length_range]; omega)]
    simp [show 8 ≤ i by omega]

/-- **One look-up is eight steps.** -/
theorem crc16Step_bits (crc : UInt16) (b : UInt8) :
    (crc16Step crc b).toBitVec = feed crcPoly crc.toBitVec (byteBits b) := by
  have hbits : ∀ c : UInt8, (byteBits c).length ≤ 16 := fun c => by
    rw [byteBits_length]
    decide
  have hlow : (crc.toBitVec &&& 0xff#16).toNat < 256 := by
    rw [BitVec.toNat_and]
    exact Nat.lt_succ_of_le Nat.and_le_right
  have hshift : (crc.toBitVec &&& 0xff#16) <<< 8 = crc.toBitVec <<< 8 := by
    have hmask : ∀ i < 16, 8 ≤ i → (0xff#16).getLsbD (i - 8) = true := by decide
    apply BitVec.eq_of_getLsbD_eq
    intro i hi
    rw [BitVec.getLsbD_shiftLeft, BitVec.getLsbD_shiftLeft, BitVec.getLsbD_and]
    by_cases h8 : i < 8
    · simp [h8]
    · rw [hmask i hi (by omega), Bool.and_true]
  have hlook : feed crcPoly 0#16 (byteBits ((crc >>> 8).toUInt8 ^^^ b))
      = (step crcPoly)^[8] (window (byteBits (crc >>> 8).toUInt8) ^^^ window (byteBits b)) := by
    have hxor := feed_xor crcPoly (byteBits (crc >>> 8).toUInt8) (byteBits b) 0#16 0#16 (by simp)
    rw [BitVec.xor_zero, ← byteBits_xor, feed_window crcPoly (byteBits (crc >>> 8).toUInt8) _ (hbits _),
      feed_window crcPoly (byteBits b) _ (hbits _), BitVec.zero_xor, BitVec.zero_xor, byteBits_length, byteBits_length,
      ← iterate_xor] at hxor
    exact hxor
  calc (crc16Step crc b).toBitVec
      = (crc.toBitVec <<< 8) ^^^ (crc16Tbl.get ((crc >>> 8).toUInt8 ^^^ b).toFin).toBitVec := rfl
    _ = (step crcPoly)^[8] (crc.toBitVec &&& 0xff#16) ^^^
          (step crcPoly)^[8] (window (byteBits (crc >>> 8).toUInt8) ^^^ window (byteBits b)) := by
        rw [crc16Tbl_eq, hlook, steps_low _ hlow, hshift]
    _ = (step crcPoly)^[8] (crc.toBitVec ^^^ window (byteBits b)) := by
        rw [← iterate_xor, ← BitVec.xor_assoc, BitVec.xor_comm (crc.toBitVec &&& 0xff#16), ← split_register]
    _ = feed crcPoly crc.toBitVec (byteBits b) := by
        rw [feed_window crcPoly (byteBits b) _ (hbits b), byteBits_length]

theorem crc16Xmodem_bits (bs : List UInt8) :
    (crc16Xmodem bs).toBitVec = feed crcPoly 0#16 (bs.flatMap byteBits) := by
  have hgen : ∀ (bs : List UInt8) (crc : UInt16),
      (bs.foldl crc16Step crc).toBitVec = feed crcPoly crc.toBitVec (bs.flatMap byteBits) := by
    intro bs
    induction bs with
    | nil => exact fun crc => rfl
    | cons b bs ih =>
      intro crc
      rw [List.foldl_cons, ih, crc16Step_bits, List.flatMap_cons, feed_append]
  exact hgen bs 0

/-! ## Bit by bit -/

/-- One bit: the register goes up by one, and the polynomial is added when a bit falls out. -/
def crc16Bit (crc : UInt16) : UInt16 := if crc &&& 0x8000 ≠ 0 then (crc <<< 1) ^^^ 0x1021 else crc <<< 1

/-- One byte, the most significant bit first. -/
def crc16BitByte (crc : UInt16) (b : UInt8) : UInt16 := crc16Bit^[8] (crc ^^^ (b.toUInt16 <<< 8))

/-- CRC-16/XMODEM bit by bit: initial value 0, nothing reflected and nothing added at the end. -/
def crc16Bitwise (bs : List UInt8) : UInt16 := bs.foldl crc16BitByte 0

theorem top_bit (crc : UInt16) : crc &&& 0x8000 ≠ 0 ↔ crc.toBitVec.msb = true := by
  have hmask : (crc &&& 0x8000).toBitVec = crc.toBitVec &&& BitVec.twoPow 16 15 := rfl
  rw [← UInt16.toBitVec_inj.ne, hmask, BitVec.and_twoPow, BitVec.msb_eq_getLsbD_last]
  cases crc.toBitVec.getLsbD (16 - 1) <;> decide

theorem crc16Bit_step (crc : UInt16) : (crc16Bit crc).toBitVec = step crcPoly crc.toBitVec := by
  unfold crc16Bit step
  by_cases h : crc.toBitVec.msb = true
  · rw [if_pos h, if_pos ((top_bit crc).2 h)]
    rfl
  · rw [if_neg h, if_neg (fun hn => h ((top_bit crc).1 hn))]
    rfl

theorem crc16Bit_iterate : ∀ (n : Nat) (crc : UInt16), (crc16Bit^[n] crc).toBitVec = (step crcPoly)^[n] crc.toBitVec
  | 0, _       => rfl
  | n + 1, crc => by
    rw [Function.iterate_succ_apply, Function.iterate_succ_apply, crc16Bit_iterate n, crc16Bit_step]

theorem window_byte (b : UInt8) : window (byteBits b) = (b.toUInt16 <<< 8).toBitVec := by
  have hall : ∀ n < 256, window (byteBits (UInt8.ofNat n)) = ((UInt8.ofNat n).toUInt16 <<< 8).toBitVec := by
    decide +kernel
  have h := hall b.toNat b.toNat_lt
  rwa [UInt8.ofNat_toNat] at h

/-- **One look-up is one byte bit by bit.** -/
theorem crc16Step_bitwise (crc : UInt16) (b : UInt8) : crc16Step crc b = crc16BitByte crc b := by
  have hbits : (byteBits b).length ≤ 16 := by
    rw [byteBits_length]
    decide
  apply UInt16.toBitVec_inj.1
  calc (crc16Step crc b).toBitVec
      = feed crcPoly crc.toBitVec (byteBits b) := crc16Step_bits crc b
    _ = (step crcPoly)^[8] (crc.toBitVec ^^^ window (byteBits b)) := by
        rw [feed_window crcPoly _ _ hbits, byteBits_length]
    _ = (crc16BitByte crc b).toBitVec := by
        rw [window_byte, crc16BitByte, crc16Bit_iterate]
        rfl

/-- The step in C: the operands are promoted to `int`, and the assignment cuts the result to 16 bits. -/
theorem crc16Step_promoted (crc : UInt16) (b : UInt8) : (crc16Step crc b).toNat =
    ((crc.toNat <<< 8) ^^^ (crc16Tbl.get ⟨(crc.toNat >>> 8 ^^^ b.toNat) &&& 0xff,
      Nat.lt_succ_of_le Nat.and_le_right⟩).toNat) % 2 ^ 16 := by
  have hidx : ((crc >>> 8).toUInt8 ^^^ b).toFin = ⟨(crc.toNat >>> 8 ^^^ b.toNat) &&& 0xff,
      Nat.lt_succ_of_le Nat.and_le_right⟩ := by
    apply Fin.ext
    show ((crc >>> 8).toUInt8 ^^^ b).toNat = (crc.toNat >>> 8 ^^^ b.toNat) &&& 0xff
    have hb := b.toNat_lt
    rw [UInt8.toNat_xor, UInt16.toNat_toUInt8, UInt16.toNat_shiftRight]
    show (crc.toNat >>> 8) % 2 ^ 8 ^^^ b.toNat = _ &&& (2 ^ 8 - 1)
    rw [Nat.and_two_pow_sub_one_eq_mod, Nat.xor_mod_two_pow, Nat.mod_eq_of_lt hb]
  have hshift : (crc <<< 8).toNat = (crc.toNat <<< 8) % 2 ^ 16 := UInt16.toNat_shiftLeft _ _
  rw [crc16Step, UInt16.toNat_xor, hidx, hshift, Nat.xor_mod_two_pow, Nat.mod_eq_of_lt (UInt16.toNat_lt _)]

/-- **The table-driven loop computes CRC-16/XMODEM.** -/
theorem crc16Xmodem_bitwise (bs : List UInt8) : crc16Xmodem bs = crc16Bitwise bs := by
  have hstep : crc16Step = crc16BitByte := by
    funext crc b
    exact crc16Step_bitwise crc b
  rw [crc16Xmodem, crc16Bitwise, hstep]

end Ws63Flash
