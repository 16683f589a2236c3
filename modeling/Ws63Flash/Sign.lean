import Ws63Flash.Lib.Octets
/-!
# Sign — `ws63sign.h`

The signed image of a program: a header of 0x300 bytes, the program, and zero bytes up to a multiple of 16.  SHA-256 is
a parameter, a function of the bytes fed to it.
-/
namespace Ws63Flash

open Octets

structure Ws63SignCtx where
  buf : List UInt8
  len : Nat
  /-- The bytes `sha256_ctx` was fed. -/
  fed : List UInt8

/-- `sizeof(ctx.buf)`. -/
def signBufLen : Nat := 0x300

def ws63SignInit : Ws63SignCtx where
  buf :=
    let rootpubk := [0x4b0f2d1e, 0x00010000, 0x100, 0x40, 0x1, 0x1, 0x2a13c812, 0x2a13c812, 0x40].flatMap le32
    let codei := [0x4b0f2d2d, 0x00010000, 0x200, 0x40].flatMap le32
    setRange (setRange (setRange (List.replicate signBufLen 0) 0 rootpubk) 0x100 codei) (0x100 + 72) (le32 0x3c7896e1)
  len := 0
  fed := []

def ws63SignFeed (ctx : Ws63SignCtx) (code : List UInt8) : Ws63SignCtx :=
  { ctx with fed := ctx.fed ++ code, len := ctx.len + code.length }

/-- The context after it, and the length of the padding. -/
def ws63SignFinalize (sha256 : List UInt8 → List UInt8) (ctx : Ws63SignCtx) : Ws63SignCtx × Nat :=
  let alignedLen := (ctx.len + 15) / 16 * 16
  let padding := alignedLen - ctx.len
  let fed := ctx.fed ++ List.replicate padding 0
  ({ buf := setRange (setRange ctx.buf (0x100 + 40) (sha256 fed)) (0x100 + 36) (le32 (UInt32.ofNat alignedLen))
     len := alignedLen
     fed := fed }, padding)

/-- What `fread` yields until the file ends, `size` bytes at a time. -/
def freads (size : Nat) : Nat → List UInt8 → List (List UInt8)
  | 0, _     => []
  | n + 1, f => if f = [] then [] else f.take size :: freads size n (f.drop size)

/-- The context after signing `bin`, and what was written to the output file: the header first, again at the end. -/
def signFile (sha256 : List UInt8 → List UInt8) (bin : List UInt8) : Ws63SignCtx × List UInt8 :=
  let blocks := freads 4096 bin.length bin
  let ctx := blocks.foldl ws63SignFeed ws63SignInit
  let end_ := ws63SignFinalize sha256 ctx
  (end_.1, setRange (ws63SignInit.buf ++ blocks.flatten ++ List.replicate end_.2 0) 0 end_.1.buf)

theorem freads_flatten {size : Nat} (hs : 0 < size) : ∀ (n : Nat) (f : List UInt8), f.length ≤ n →
    (freads size n f).flatten = f
  | 0, f, h     => by rw [List.length_eq_zero_iff.1 (Nat.le_zero.1 h)]; rfl
  | n + 1, f, h => by
    rw [freads]
    split
    · rename_i hf; rw [hf]; rfl
    · rename_i hf
      have := List.length_pos_iff.2 hf
      rw [List.flatten_cons, freads_flatten hs n (f.drop size) (by rw [List.length_drop]; omega), List.take_append_drop]

theorem ws63SignFeed_foldl : ∀ (bss : List (List UInt8)) (ctx : Ws63SignCtx),
    bss.foldl ws63SignFeed ctx = { ctx with fed := ctx.fed ++ bss.flatten, len := ctx.len + bss.flatten.length }
  | [], ctx        => by simp
  | bs :: bss, ctx => by
    rw [List.foldl_cons, ws63SignFeed_foldl bss]
    simp [ws63SignFeed, List.append_assoc, Nat.add_assoc]

theorem ws63SignInit_buf_length : ws63SignInit.buf.length = signBufLen := by decide +kernel

/-- **The image is as long as its context says**: the header, and `ctx.len` bytes. -/
theorem signFile_length {sha256 : List UInt8 → List UInt8} (hsha : ∀ m, (sha256 m).length = 32) (bin : List UInt8) :
    (signFile sha256 bin).2.length = (signFile sha256 bin).1.len + signBufLen := by
  have hinit := ws63SignInit_buf_length
  have hctx := ws63SignFeed_foldl (freads 4096 bin.length bin) ws63SignInit
  rw [freads_flatten (by decide) _ _ (Nat.le_refl _)] at hctx
  have hlen : ((freads 4096 bin.length bin).foldl ws63SignFeed ws63SignInit).len = bin.length := by
    rw [hctx]
    exact Nat.zero_add _
  have hbuf : ((freads 4096 bin.length bin).foldl ws63SignFeed ws63SignInit).buf = ws63SignInit.buf := by rw [hctx]
  have hend : (signFile sha256 bin).1.buf.length = signBufLen := by
    simp only [signFile, ws63SignFinalize, hbuf]
    rw [setRange_length, setRange_length, hinit]
    · rw [hinit, hsha]; decide
    · rw [setRange_length, hinit, le32_length]
      · decide
      · rw [hinit, hsha]; decide
  have hfile : (signFile sha256 bin).2 = setRange (ws63SignInit.buf ++ bin ++
      List.replicate ((bin.length + 15) / 16 * 16 - bin.length) 0) 0 (signFile sha256 bin).1.buf := by
    simp only [signFile, ws63SignFinalize, hlen, freads_flatten (show 0 < 4096 by decide) _ _ (Nat.le_refl _)]
  have hlen' : (signFile sha256 bin).1.len = (bin.length + 15) / 16 * 16 := by
    simp only [signFile, ws63SignFinalize, hlen]
  rw [hfile, setRange_length (by rw [hend]; simp only [List.length_append, hinit]; omega), hlen']
  simp only [List.length_append, List.length_replicate, hinit]
  omega

end Ws63Flash
