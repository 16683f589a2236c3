import Ws63Flash.Lib.Absorb
import Ws63Flash.Lib.Octets
/-!
# Sha256 — `lib/sha256.c`

The context keeps the hash value, a count of the bytes in it, and a buffer of 128 bytes of which the first `buflen` are
still to come.  Memory is little-endian.
-/
namespace Ws63Flash

open Octets Absorb

structure Sha256Ctx where
  state : List UInt32
  total0 : UInt32
  total1 : UInt32
  buflen : Nat
  /-- The 32 words, as bytes. -/
  buffer : List UInt8

/-- The context's other bytes are not written: `fill` is what they hold. -/
def sha256InitCtx (fill : Vector UInt8 128) : Sha256Ctx where
  state := [0x6a09e667, 0xbb67ae85, 0x3c6ef372, 0xa54ff53a, 0x510e527f, 0x9b05688c, 0x1f83d9ab, 0x5be0cd19]
  total0 := 0
  total1 := 0
  buflen := 0
  buffer := fill.toList

/-- `bswap_32`. -/
def SWAP (n : UInt32) : UInt32 := ofLe32 (le32 n).reverse

def setUint32 (buf : List UInt8) (cp : Nat) (v : UInt32) : List UInt8 := setRange buf cp (le32 v)

def sha256ReadCtx (ctx : Sha256Ctx) : List UInt8 := (List.range 8).flatMap (fun i => le32 (SWAP (ctx.state.getD i 0)))

/-! ## `sha256_process_block` -/

def sha256RoundConstants : List UInt32 :=
  [0x428a2f98, 0x71374491, 0xb5c0fbcf, 0xe9b5dba5,
   0x3956c25b, 0x59f111f1, 0x923f82a4, 0xab1c5ed5,
   0xd807aa98, 0x12835b01, 0x243185be, 0x550c7dc3,
   0x72be5d74, 0x80deb1fe, 0x9bdc06a7, 0xc19bf174,
   0xe49b69c1, 0xefbe4786, 0x0fc19dc6, 0x240ca1cc,
   0x2de92c6f, 0x4a7484aa, 0x5cb0a9dc, 0x76f988da,
   0x983e5152, 0xa831c66d, 0xb00327c8, 0xbf597fc7,
   0xc6e00bf3, 0xd5a79147, 0x06ca6351, 0x14292967,
   0x27b70a85, 0x2e1b2138, 0x4d2c6dfc, 0x53380d13,
   0x650a7354, 0x766a0abb, 0x81c2c92e, 0x92722c85,
   0xa2bfe8a1, 0xa81a664b, 0xc24b8b70, 0xc76c51a3,
   0xd192e819, 0xd6990624, 0xf40e3585, 0x106aa070,
   0x19a4c116, 0x1e376c08, 0x2748774c, 0x34b0bcb5,
   0x391c0cb3, 0x4ed8aa4a, 0x5b9cca4f, 0x682e6ff3,
   0x748f82ee, 0x78a5636f, 0x84c87814, 0x8cc70208,
   0x90befffa, 0xa4506ceb, 0xbef9a3f7, 0xc67178f2]

def K (i : Nat) : UInt32 := sha256RoundConstants.getD i 0

def F2 (a b c : UInt32) : UInt32 := (a &&& b) ||| (c &&& (a ||| b))
def F1 (e f g : UInt32) : UInt32 := g ^^^ (e &&& (f ^^^ g))

def rol (x n : UInt32) : UInt32 := (x <<< n) ||| (x >>> (32 - n))
def S0 (x : UInt32) : UInt32 := rol x 25 ^^^ rol x 14 ^^^ (x >>> 3)
def S1 (x : UInt32) : UInt32 := rol x 15 ^^^ rol x 13 ^^^ (x >>> 10)
def SS0 (x : UInt32) : UInt32 := rol x 30 ^^^ rol x 19 ^^^ rol x 10
def SS1 (x : UInt32) : UInt32 := rol x 26 ^^^ rol x 21 ^^^ rol x 7

/-- The value `M(I)` stores into `x[I & 0x0f]`. -/
def M (x : List UInt32) (i : Nat) : UInt32 :=
  S1 (x.getD ((i - 2) % 16) 0) + x.getD ((i - 7) % 16) 0 + S0 (x.getD ((i - 15) % 16) 0) + x.getD (i % 16) 0

/-- The place of the `j`-th name of `R`'s in its `t`-th use: from each line to the next the names `a` … `h` go round. -/
def regAt (t j : Nat) : Nat := (j + (8 - t % 8)) % 8

/-- The `t`-th use of `R`, on the registers `v`. -/
def R (v : List UInt32) (t : Nat) (k m : UInt32) : List UInt32 :=
  let reg := fun j => v.getD (regAt t j) 0
  let t0 := SS0 (reg 0) + F2 (reg 0) (reg 1) (reg 2)
  let t1 := reg 7 + SS1 (reg 4) + F1 (reg 4) (reg 5) (reg 6) + k + m
  (v.set (regAt t 3) (reg 3 + t1)).set (regAt t 7) (t0 + t1)

/-- The `t`-th line: the registers and the ring of 16 words after it. -/
def roundLine (s : List UInt32 × List UInt32) (t : Nat) : List UInt32 × List UInt32 :=
  let x := if t < 16 then s.2 else s.2.set (t % 16) (M s.2 t)
  (R s.1 t (K t) (x.getD (t % 16) 0), x)

/-- One pass of the loop, over 16 words; the registers start it as the state. -/
def blockPass (state : List UInt32) (words : List UInt8) : List UInt32 :=
  let x := (List.range 16).map (fun t => SWAP (ofLe32 (slice words (4 * t) 4)))
  let v := ((List.range 64).foldl roundLine (state, x)).1
  (List.range 8).map (fun i => state.getD i 0 + v.getD i 0)

/-- The loop ends once it has read the last of the words. -/
def sha256ProcessBlock (buffer : List UInt8) (ctx : Sha256Ctx) : Sha256Ctx :=
  let len := buffer.length
  let lolen := UInt32.ofNat len
  let total0 := ctx.total0 + lolen
  { ctx with
    total0 := total0
    total1 := ctx.total1 + UInt32.ofNat (len / 2 ^ 32 + if total0 < lolen then 1 else 0)
    state := absorb 64 blockPass ((len / 4 + 15) / 16) ctx.state buffer }

/-! ## `sha256_process_bytes` -/

/-- The context once the buffer has taken what it can of the input, and how much that is. -/
def fillBuffer (buffer : List UInt8) (ctx : Sha256Ctx) : Sha256Ctx × Nat :=
  if ctx.buflen ≠ 0 then
    let left_over := ctx.buflen
    let add := if 128 - left_over > buffer.length then buffer.length else 128 - left_over
    let ctx := { ctx with buffer := setRange ctx.buffer left_over (buffer.take add), buflen := left_over + add }
    if ctx.buflen > 64 then
      let done := sha256ProcessBlock (ctx.buffer.take (ctx.buflen / 64 * 64)) ctx
      let buflen := ctx.buflen % 64
      ({ done with
        buflen := buflen
        buffer := setRange ctx.buffer 0 (slice ctx.buffer ((left_over + add) / 64 * 64) buflen) }, add)
    else (ctx, add)
  else (ctx, 0)

/-- The loop over an unaligned input: a block at a time through the buffer, the last one left. -/
def copiedBlocks : Nat → List UInt8 → Sha256Ctx → Sha256Ctx × List UInt8
  | 0, buffer, ctx        => (ctx, buffer)
  | fuel + 1, buffer, ctx =>
    if buffer.length > 64 then
      copiedBlocks fuel (buffer.drop 64)
        (sha256ProcessBlock (buffer.take 64) { ctx with buffer := setRange ctx.buffer 0 (buffer.take 64) })
    else (ctx, buffer)

/-- The complete blocks of the input, and what is left of it.  `unaligned` is `UNALIGNED_P (buffer)`, where it is asked. -/
def wholeBlocks (unaligned : Bool) (buffer : List UInt8) (ctx : Sha256Ctx) : Sha256Ctx × List UInt8 :=
  let len := buffer.length
  if len ≥ 64 then
    if unaligned then copiedBlocks len buffer ctx
    else (sha256ProcessBlock (buffer.take (len / 64 * 64)) ctx, buffer.drop (len / 64 * 64))
  else (ctx, buffer)

/-- The remaining bytes moved into the buffer. -/
def keepRest (buffer : List UInt8) (ctx : Sha256Ctx) : Sha256Ctx :=
  let len := buffer.length
  if len > 0 then
    let left_over := ctx.buflen
    let ctx := { ctx with buffer := setRange ctx.buffer left_over buffer }
    let left_over := left_over + len
    if left_over ≥ 64 then
      let ctx := sha256ProcessBlock (ctx.buffer.take 64) ctx
      let left_over := left_over - 64
      { ctx with buffer := setRange ctx.buffer 0 (slice ctx.buffer 64 left_over), buflen := left_over }
    else { ctx with buflen := left_over }
  else ctx

/-- An input: its address, and its bytes. -/
structure Input where
  addr : Nat
  bytes : List UInt8

/-- `strictAlign` is the condition of the `#if`: that the string functions do not do without alignment. -/
def sha256ProcessBytes (strictAlign : Bool) (ctx : Sha256Ctx) (input : Input) : Sha256Ctx :=
  let (ctx, add) := fillBuffer input.bytes ctx
  let unaligned := strictAlign && decide ((input.addr + add) % 4 ≠ 0)
  let (ctx, rest) := wholeBlocks unaligned (input.bytes.drop add) ctx
  keepRest rest ctx

/-! ## `sha256_finish_ctx` -/

def fillbuf : List UInt8 := 0x80 :: List.replicate 63 0

def sha256ConcludeCtx (ctx : Sha256Ctx) : Sha256Ctx :=
  let bytes := ctx.buflen
  let size := if bytes < 56 then 64 / 4 else 64 * 2 / 4
  let total0 := ctx.total0 + UInt32.ofNat bytes
  let total1 := if total0.toNat < bytes then ctx.total1 + 1 else ctx.total1
  let buffer := setUint32 ctx.buffer (4 * (size - 2)) (SWAP ((total1 <<< 3) ||| (total0 >>> 29)))
  let buffer := setUint32 buffer (4 * (size - 1)) (SWAP (total0 <<< 3))
  let buffer := setRange buffer bytes (fillbuf.take ((size - 2) * 4 - bytes))
  sha256ProcessBlock (buffer.take (size * 4)) { ctx with total0 := total0, total1 := total1, buffer := buffer }

def sha256FinishCtx (ctx : Sha256Ctx) : List UInt8 := sha256ReadCtx (sha256ConcludeCtx ctx)

end Ws63Flash
