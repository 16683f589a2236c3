import Ws63Flash.Crc
import Ws63Flash.Lib.Octets
import Ws63Flash.Tty
/-!
# Ymodem — `ymodem.h`

The sender of one YModem session: `ymodem_wait_ack`, `ymodem_blk_xmit`, `ymodem_blk_timed_xmit` and `ymodem_xfer`.
Every loop runs on the budget `fuel`.  The arguments that only choose what is printed (`verbose`) are left out, and a
stream is the list of bytes left in it.

`difftime` compares whole seconds: more than 1.5 s is twice the difference above 3.
-/
namespace Ws63Flash

open Octets

def SOH : UInt8 := 0x01
def STX : UInt8 := 0x02
def EOT : UInt8 := 0x04
def ACK : UInt8 := 0x06
def NAK : UInt8 := 0x15
def C : UInt8 := 0x43

def YMODEM_C_TIMEOUT : Int := 5
def YMODEM_XMIT_TIMEOUT : Int := 10

def ymodemWaitAck (fuel : Nat) : Tty Int := called .ymodemWaitAck do
  let t0 ← time
  Proc.loop (fun (_ : Unit) => do
    match ← read 1 with
    -- `continue`: the clock is not read while the line is silent
    | .data []       => return .next ()
    | .fail e        => return .done e.neg
    | .data (cc :: _) =>
      if cc = ACK then return .done 0
      else if cc = NAK then return .done EAGAIN.code
      else
        let t ← time
        if 2 * (t - t0) > 3 then return .done EAGAIN.code else return .next ()) fuel ()

def ymodemBlkXmit (fuel : Nat) (blk : List UInt8) : Tty Int := writeAll fuel blk

def ymodemBlkTimedXmit (fuel : Nat) (blk : List UInt8) : Tty Int := do
  let t0 ← time
  Proc.loop (fun (_ : Unit) => do
    let t ← time
    if t - t0 > YMODEM_XMIT_TIMEOUT then return .done ETIMEDOUT.neg
    else
      let ret ← ymodemBlkXmit fuel blk
      if ret < 0 then return .done ret
      else
        let ret ← ymodemWaitAck fuel
        if ret < 0 then return .done ret
        else if ret > 0 then return .next ()
        else return .done 0) fuel ()

/-! ## The blocks -/

/-- `int total_blk = ceil(len/1024.0)`.  A value that no `int` holds becomes the least one, as on x86-64. -/
def totalBlkInt (len : Nat) : Int := if (len + 1023) / 1024 < 2 ^ 31 then ((len + 1023) / 1024 : Nat) else -2 ^ 31

/-- How many data blocks there are: none when `total_blk + 1` is past the `int`s. -/
def totalBlk (len : Nat) : Nat := if (len + 1023) / 1024 + 1 < 2 ^ 31 then (len + 1023) / 1024 else 0

/-- `last_blk`: the bytes of the last block. -/
def lastBlk (len : Nat) : Nat := if len - len / 1024 * 1024 ≠ 0 then len - len / 1024 * 1024 else 1024

/-- The text `snprintf` prints for `"0x%zx"`. -/
def lenText (len : Nat) : List UInt8 := [0x30, 0x78] ++ hexText len

/-- `blkbuf` of block 0 before the checksum: `strncpy` pads the name to 128 bytes, then `snprintf` stores at most
`127 - strlen(fn)` bytes after it, the NUL included.  That bound is a `size_t`: it wraps for a name above 127. -/
def blk0Buf (fn : CStr) (len : Nat) : List UInt8 :=
  let buf := setRange (List.replicate 1029 0) 0 [SOH, 0x00, 0xff]
  let buf := setRange buf 3 (padTo 128 (fn.bytes.take 128))
  let room := (2 ^ 64 + 127 - fn.strlen) % 2 ^ 64
  if room = 0 then buf
  else setRange buf (3 + fn.strlen + 1) ((lenText len).take (room - 1) ++ [0])

/-- A buffer with the checksum of its 128 bytes of payload stored, cut to the 133 bytes sent. -/
def sealSoh (buf : List UInt8) : List UInt8 :=
  (setRange buf 131 (be16 (crc16Xmodem (slice buf 3 128)))).take 133

def blk0 (fn : CStr) (len : Nat) : List UInt8 := sealSoh (blk0Buf fn len)

/-- The empty block 0 that ends the session. -/
def blkEnd : List UInt8 := sealSoh (setRange (List.replicate 1029 0) 0 [SOH, 0x00, 0xff])

/-- The data block `i`, with what `fread` stored at its payload. -/
def dataBlk (i : Nat) (chunk : List UInt8) : List UInt8 :=
  [STX, UInt8.ofNat (i % 0x100), 0xff - UInt8.ofNat (i % 0x100)] ++ padTo 1024 chunk
    ++ be16 (crc16Xmodem (padTo 1024 chunk))

/-! ## The session -/

/-- Waiting for `C`. -/
def waitC (fuel : Nat) : Tty Int := do
  let t0 ← time
  Proc.loop (fun (_ : Unit) => do
    match ← read 1 with
    | .fail e  => return .done e.neg
    | .data [] =>
      let t ← time
      if t - t0 > YMODEM_C_TIMEOUT then return .done ETIMEDOUT.neg else return .next ()
    | .data (cc :: _) => if cc = C then return .done 0 else return .next ()) fuel ()

/-- The data blocks, from block 1 on; the state is `i_blk` and the rest of the stream.  The sum `total_blk+1` wraps. -/
def xferData (fuel len : Nat) (f : List UInt8) : Tty Int :=
  Proc.loop (fun (s : Nat × List UInt8) => do
    if (s.1 : Int) < (totalBlkInt len + 1).bmod (2 ^ 32) then
      let rlen := if (s.1 : Int) = totalBlkInt len then lastBlk len else 1024
      if (s.1 : Int) < totalBlkInt len ∧ (s.2.take rlen).length < 1024 then return .done EXIT_FAILURE
      else
        let ret ← ymodemBlkTimedXmit fuel (dataBlk s.1 (s.2.take rlen))
        if ret < 0 then return .done ret
        else return .next (s.1 + 1, s.2.drop rlen)
    else return .done 0) fuel (1, f)

/-- `eot_xmit`. -/
def xferEot (fuel : Nat) : Tty Int :=
  Proc.loop (fun (_ : Unit) => do
    match ← write [EOT] with
    | .fail e  => return .done e.neg
    | .wrote _ =>
      let ret ← ymodemWaitAck fuel
      if ret < 0 then return .done ret
      else if ret > 0 then return .next ()
      else return .done 0) fuel ()

def ymodemXfer (fuel : Nat) (f : List UInt8) (fn : CStr) (len : Nat) : Tty Int := called .ymodemXfer do
  let ret ← waitC fuel
  if ret < 0 then return ret
  else
    let ret ← ymodemBlkTimedXmit fuel (blk0 fn len)
    if ret < 0 then return ret
    else
      let ret ← xferData fuel len f
      if ret ≠ 0 then return ret
      else
        let ret ← xferEot fuel
        if ret < 0 then return ret
        else
          let ret ← ymodemBlkTimedXmit fuel blkEnd
          if ret < 0 then return ret
          else return EXIT_SUCCESS

/-! ## The block count -/

/-- The longest transfer whose blocks an `int` counts. -/
def xferMax : Nat := 2 ^ 41 - 2048

theorem totalBlk_eq {len : Nat} (h : len ≤ xferMax) : totalBlk len = (len + 1023) / 1024 := by
  unfold xferMax at h
  exact if_pos (by omega)

/-- Beyond it there are none. -/
theorem totalBlk_past {len : Nat} (h : xferMax < len) : totalBlk len = 0 := by
  unfold xferMax at h
  exact if_neg (by omega)

theorem le_xferMax {len : Nat} (h : 0 < totalBlk len) : len ≤ xferMax := by
  by_contra hn
  rw [totalBlk_past (Nat.lt_of_not_le hn)] at h
  exact Nat.lt_irrefl _ h

/-- A length in a record is far below. -/
theorem toNat_le_xferMax (n : UInt32) : n.toNat ≤ xferMax := Nat.le_trans (Nat.le_of_lt n.toNat_lt) (by decide)

theorem totalBlk_mul {len : Nat} (h : len ≤ xferMax) : len ≤ 1024 * totalBlk len := by
  rw [totalBlk_eq h]
  omega

theorem totalBlk_lt {len i : Nat} (h : i < totalBlk len) : 1024 * i < len := by
  rw [totalBlk_eq (le_xferMax (Nat.zero_lt_of_lt h))] at h
  omega

theorem totalBlkInt_eq {len : Nat} (h : len ≤ xferMax) : totalBlkInt len = totalBlk len := by
  rw [totalBlk_eq h]
  unfold xferMax at h
  exact if_pos (by omega)

/-- While an `int` counts the blocks the sum does not wrap. -/
theorem blkBound_eq {len : Nat} (h : len ≤ xferMax) : (totalBlkInt len + 1).bmod (2 ^ 32) = (totalBlk len + 1 : Nat) := by
  rw [totalBlkInt_eq h, totalBlk_eq h, Int.bmod_def]
  unfold xferMax at h
  omega

/-- Beyond that it is negative. -/
theorem blkBound_neg {len : Nat} (h : xferMax < len) : (totalBlkInt len + 1).bmod (2 ^ 32) < 0 := by
  unfold xferMax at h
  unfold totalBlkInt
  rw [Int.bmod_def]
  split <;> omega

/-- **The data loop with the number of blocks.** -/
theorem xferData_eq (fuel len : Nat) (f : List UInt8) : xferData fuel len f =
    Proc.loop (fun (s : Nat × List UInt8) => do
      if s.1 < totalBlk len + 1 then
        let rlen := if s.1 = totalBlk len then lastBlk len else 1024
        if s.1 < totalBlk len ∧ (s.2.take rlen).length < 1024 then return .done EXIT_FAILURE
        else
          let ret ← ymodemBlkTimedXmit fuel (dataBlk s.1 (s.2.take rlen))
          if ret < 0 then return .done ret
          else return .next (s.1 + 1, s.2.drop rlen)
      else return .done 0) fuel (1, f) := by
  refine Proc.loop_sim (fun s t => s = t ∧ 1 ≤ s.1) ?_ fuel (1, f) (1, f) ⟨rfl, Nat.le_refl _⟩
  rintro ⟨i, f'⟩ _ ⟨rfl, hi⟩ d l
  dsimp only at hi ⊢
  by_cases hlen : len ≤ xferMax
  · rw [blkBound_eq hlen, totalBlkInt_eq hlen]
    simp only [Nat.cast_lt, Nat.cast_inj]
    split
    · generalize (if i = totalBlk len then lastBlk len else 1024) = rlen
      split
      · exact .done _ []
      · refine Proc.Lockstep.bind (fun ret d l => ?_) d l
        split
        · exact .done _ []
        · exact .next [] ⟨rfl, Nat.le_succ_of_le hi⟩
    · exact .done _ []
  · have hneg := blkBound_neg (Nat.lt_of_not_le hlen)
    rw [totalBlk_past (Nat.lt_of_not_le hlen), if_neg (by omega), if_neg (by omega)]
    exact .done _ []

end Ws63Flash
