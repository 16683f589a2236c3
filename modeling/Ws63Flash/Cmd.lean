import Ws63Flash.Crc
import Ws63Flash.Lib.Octets
import Ws63Flash.Tty
/-!
# Cmd — `ws63defs.h` and the command frames of `io.h`

`ws63_send_cmddef` writes a command frame and `uart_read_until_magic` reads one.  What they print is left out.
-/
namespace Ws63Flash

open Octets

/-- The array of a `struct cmddef` holds 1024 bytes. -/
structure Cmddef where
  cmd : UInt8
  len : Nat
  dat : List UInt8
  dat_length : dat.length = 1024

/-- An initialised `struct cmddef`: the array is the bytes given, then zero bytes. -/
def Cmddef.init (cmd : UInt8) (dat : List UInt8) (len : Nat) (h : dat.length ≤ 1024) : Cmddef :=
  ⟨cmd, len, padTo 1024 dat, padTo_length h⟩

/-- `*((uint32_t *) (c.dat + i)) = htole32(x)`. -/
def Cmddef.setDat (c : Cmddef) (i : Nat) (x : UInt32) (h : i + 4 ≤ 1024) : Cmddef :=
  { c with
    dat := setRange c.dat i (le32 x)
    dat_length := by rw [setRange_length (by rw [c.dat_length, le32_length]; exact h), c.dat_length] }

inductive CmdType where
  | handshake
  | setbaudr
  | downloadi
  | rst

def WS63E_FLASHINFO : CmdType → Cmddef
  | .handshake => .init 0xf0 [0x00, 0xc2, 0x01, 0x00, 0x08, 0x01, 0x00, 0x00] 8 (by decide)
  | .setbaudr  => .init 0x5a [0x00, 0x10, 0x0e, 0x00, 0x08, 0x01, 0x00, 0x00] 8 (by decide)
  | .downloadi => .init 0xd2 [0x00, 0x00, 0x00, 0x00, 0x00, 0x00, 0x00, 0x00, 0xFF, 0xFF, 0xFF, 0xFF, 0x00, 0xFF] 14
      (by decide)
  | .rst       => .init 0x87 [0x00, 0x00] 2 (by decide)

/-- `SWAP_CMD`, cut to the byte it is stored in. -/
def swapCmd (x : UInt8) : UInt8 := (x <<< 4) ||| (x >>> 4)

/-- `sizeof(buf)`, of the sender and of the reader. -/
def cmdBufLen : Nat := 1024 + 12

/-- A frame up to its checksum. -/
def frameHead (c : Cmddef) : List UInt8 :=
  le32 0xdeadbeef ++ le16 (UInt16.ofNat (c.len + 10)) ++ [c.cmd, swapCmd c.cmd] ++ c.dat.take c.len

def cmdFrame (c : Cmddef) : List UInt8 := frameHead c ++ le16 (crc16Xmodem (frameHead c))

/-- The assertion admits one length above the array: there `memcpy` reads past its end. -/
def ws63SendCmddef (fuel : Nat) (c : Cmddef) : Tty Int :=
  if ¬ (cmdBufLen > c.len + 10) then Proc.halt .abort
  else if c.len > 1024 then Proc.halt .undefined
  else writeAll fuel (cmdFrame c)

/-! ## Reading a reply -/

def UART_READ_TIMEOUT : Int := 2

def mgc : List UInt8 := [0xef, 0xbe, 0xad, 0xde]

/-- The state of the reader between two bytes: the next byte goes to `buf[i]`. -/
structure MagicSt where
  buf : List UInt8
  i : Nat
  framelen : Nat
  st : Nat
deriving DecidableEq

def MagicSt.init : MagicSt := ⟨List.replicate cmdBufLen 0, 0, 0, 0⟩

/-- The `switch`, the byte `b` having been read into `buf[i]`: the state to go on from, or the state of a whole frame. -/
def magicStep (s : MagicSt) (b : UInt8) : Iter MagicSt MagicSt :=
  let s := { s with buf := s.buf.set s.i b }
  match s.st with
  | 0 =>
    if mgc.getD s.i 0 = b then
      if s.i + 1 ≥ 3 then .next { s with i := s.i + 1, st := 1 } else .next { s with i := s.i + 1 }
    else if s.i ≥ 3 then .next { s with st := 1 }
    else .next { s with i := 0 }
  | 1 =>
    if s.i = 5 then .next { s with framelen := leNat (slice s.buf 4 2), i := s.i + 1 }
    else if s.i + 1 = s.framelen then .done s
    else .next { s with i := s.i + 1 }
  | _ => .next { s with st := 0 }

/-- What a call leaves: its result, its buffer, and whether it warned of a bad checksum. -/
structure Reply where
  ret : Int
  buf : List UInt8
  framelen : Nat
  badCrc : Bool
deriving DecidableEq

/-- The end of a call that read a whole frame. -/
def MagicSt.reply (s : MagicSt) : Reply where
  ret := 0
  buf := s.buf
  framelen := s.framelen
  badCrc := slice s.buf (s.framelen - 2) 2 ≠ le16 (crc16Xmodem (s.buf.take (s.framelen - 2)))

/-- The end of a call that failed. -/
def MagicSt.failed (s : MagicSt) (e : Errno) : Reply := ⟨e.neg, s.buf, s.framelen, false⟩

/-- The loop; its state is that of the reader and `t0`, the time of the last byte. -/
def magicLoop (fuel : Nat) (s : MagicSt × Int) : Tty Reply :=
  Proc.loop (fun (s : MagicSt × Int) => do
    let t ← time
    if t - s.2 > UART_READ_TIMEOUT then return .done (s.1.failed ETIMEDOUT)
    else
      match ← read 1 with
      | .data []       => return .next s
      | .fail e        => return .done (s.1.failed e)
      | .data (b :: _) =>
        -- nothing keeps `i` below the length of the buffer
        if s.1.i < cmdBufLen then
          let t0 ← time
          match magicStep s.1 b with
          | .next s' => return .next (s', t0)
          | .done s' => return .done s'.reply
        else Proc.halt .undefined) fuel s

def uartReadUntilMagic (fuel : Nat) : Tty Reply := do
  let t0 ← time
  let r ← magicLoop fuel (MagicSt.init, t0)
  mark .uartReadUntilMagic r.ret
  return r

end Ws63Flash
