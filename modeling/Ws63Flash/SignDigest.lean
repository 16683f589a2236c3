import Ws63Flash.Lib.Relate
import Ws63Flash.Sha256Stream
import Ws63Flash.SignMain
/-!
# SignDigest — `ws63sign` with the hash of its own library

`ws63sign.h` and `main` again, over the contexts of `lib/sha256.c` where `Sign` and `SignMain` have a parameter.  The
two programs do the same when the parameter is SHA-256 (`signMain_eq`): so the hash in the image is that of the program
and its padding, by the standard (`signMain_image`).  So it is for the image that `--write-program` makes itself
(`digestFile_eq`).
-/
namespace Ws63Flash

open Octets Proc

/-- `struct ws63sign_ctx`. -/
structure SignCtx where
  buf : List UInt8
  len : Nat
  sha256_ctx : Sha256Ctx

/-- Where the program's arrays are, and how its `sha256.c` was compiled. -/
structure SignPlace where
  strictAlign : Bool
  buf : Nat
  nil128 : Nat

namespace SignCtx

/-- After `memset`, as `ws63sign_init` leaves it. -/
def init : SignCtx where
  buf := ws63SignInit.buf
  len := 0
  sha256_ctx := sha256InitCtx (Vector.replicate 128 0)

def feed (place : SignPlace) (ctx : SignCtx) (code : List UInt8) : SignCtx :=
  { ctx with
    sha256_ctx := sha256ProcessBytes place.strictAlign ctx.sha256_ctx ⟨place.buf, code⟩
    len := ctx.len + code.length }

def finalize (place : SignPlace) (ctx : SignCtx) : SignCtx × Nat :=
  let aligned_len := (ctx.len + 15) / 16 * 16
  let padding := aligned_len - ctx.len
  let sha := sha256ProcessBytes place.strictAlign ctx.sha256_ctx ⟨place.nil128, List.replicate padding 0⟩
  let done := sha256ConcludeCtx sha
  ({ buf := setRange (setRange ctx.buf (0x100 + 40) (sha256ReadCtx done)) (0x100 + 36) (le32 (UInt32.ofNat aligned_len))
     len := aligned_len
     sha256_ctx := done }, padding)

end SignCtx

/-- The loop of `main`. -/
def digestLoop (place : SignPlace) (fuel : Nat) (inf : List UInt8) : FileProc (Except Int SignCtx) :=
  Proc.loop (fun (s : SignCtx × List UInt8) => do
    let read_len ← fread (min 4096 s.2.length)
    if read_len > 0 then
      let buf := s.2.take read_len
      let ctx := s.1.feed place buf
      let ret ← checkedFwrite buf
      if ret ≠ 0 then return .done (.error ret) else return .next (ctx, s.2.drop read_len)
    else return .done (.ok s.1)) fuel (SignCtx.init, inf)

/-- `signFile` with these contexts. -/
def digestFile (place : SignPlace) (bin : List UInt8) : SignCtx × List UInt8 :=
  let blocks := freads 4096 bin.length bin
  let ctx := blocks.foldl (SignCtx.feed place) SignCtx.init
  let end_ := ctx.finalize place
  (end_.1, setRange (SignCtx.init.buf ++ blocks.flatten ++ List.replicate end_.2 0) 0 end_.1.buf)

def digestBody (place : SignPlace) (fuel : Nat) (inf : List UInt8) : FileProc (Except Int SignCtx) := do
  let ret ← checkedFwrite SignCtx.init.buf
  if ret ≠ 0 then return .error ret
  else
    match ← digestLoop place fuel inf with
    | .error r => return .error r
    | .ok ctx  =>
      let (ctx, padding) := ctx.finalize place
      let ret ← checkedFwrite (List.replicate padding 0)
      if ret ≠ 0 then return .error ret else return .ok ctx

/-- A run of `main`: what it returns, and the file it leaves. -/
def signMain (place : SignPlace) (fuel : Nat) (inf : List UInt8) (io : FileIo) : Out Int × List UInt8 :=
  match digestBody place fuel inf io [] with
  | (.stop x, e)         => (.stop x, output e)
  | (.ret (.error r), e) => (.ret r, output e)
  | (.ret (.ok ctx), e)  =>
    let head := checkedFwrite ctx.buf io e
    (head.1, setRange (output e) 0 (output head.2))

/-! ## Simulation -/

/-- The context has been fed what the other one remembers. -/
structure SignCtx.Knows (ctx : SignCtx) (spec : Ws63SignCtx) : Prop where
  buf : ctx.buf = spec.buf
  len : ctx.len = spec.len
  holds : ctx.sha256_ctx.Holds spec.fed []

theorem SignCtx.init_knows : SignCtx.init.Knows ws63SignInit := ⟨rfl, rfl, sha256InitCtx_holds _⟩

theorem SignCtx.Knows.feed {ctx : SignCtx} {spec : Ws63SignCtx} (h : ctx.Knows spec) (place : SignPlace)
    (code : List UInt8) : (ctx.feed place code).Knows (ws63SignFeed spec code) where
  buf := h.buf
  len := congrArg (· + code.length) h.len
  holds := sha256ProcessBytes_holds place.strictAlign h.holds ⟨place.buf, code⟩

theorem SignCtx.Knows.feeds (place : SignPlace) : ∀ (bss : List (List UInt8)) {ctx : SignCtx} {spec : Ws63SignCtx},
    ctx.Knows spec → (bss.foldl (SignCtx.feed place) ctx).Knows (bss.foldl ws63SignFeed spec)
  | [], _, _, h        => h
  | bs :: bss, _, _, h => (h.feed place bs).feeds place bss

theorem SignCtx.Knows.finalize_len {ctx : SignCtx} {spec : Ws63SignCtx} (h : ctx.Knows spec) (place : SignPlace) :
    (ctx.finalize place).1.len = (ws63SignFinalize Fips180.sha256 spec).1.len := by
  simp only [SignCtx.finalize, ws63SignFinalize, ← h.len]

/-- Finished, the two have the same header and the same padding. -/
theorem SignCtx.Knows.finalize {ctx : SignCtx} {spec : Ws63SignCtx} (h : ctx.Knows spec) (place : SignPlace) :
    (ctx.finalize place).1.buf = (ws63SignFinalize Fips180.sha256 spec).1.buf ∧
      (ctx.finalize place).2 = (ws63SignFinalize Fips180.sha256 spec).2 := by
  have hfed := sha256ProcessBytes_holds place.strictAlign h.holds
    ⟨place.nil128, List.replicate ((ctx.len + 15) / 16 * 16 - ctx.len) 0⟩
  constructor
  · simp only [SignCtx.finalize, ws63SignFinalize, ← h.buf, ← h.len, ← hfed.finish]
    rfl
  · simp only [SignCtx.finalize, ws63SignFinalize, ← h.len]

/-- Results alike: the same error, or contexts that know the same. -/
inductive SameEnd (R : SignCtx → Ws63SignCtx → Prop) : Except Int SignCtx → Except Int Ws63SignCtx → Prop where
  | error (r : Int) : SameEnd R (.error r) (.error r)
  | ok {ctx : SignCtx} {spec : Ws63SignCtx} (h : R ctx spec) : SameEnd R (.ok ctx) (.ok spec)

theorem digestLoop_relate (place : SignPlace) (fuel : Nat) (inf : List UInt8) :
    Relate (SameEnd SignCtx.Knows) (digestLoop place fuel inf) (signLoop fuel inf) := by
  refine Relate.loop (R := fun s t => s.1.Knows t.1 ∧ s.2 = t.2) ?_ fuel _ _ ⟨SignCtx.init_knows, rfl⟩
  rintro ⟨ctx, f⟩ ⟨spec, f'⟩ ⟨hknows, hf⟩
  cases hf
  refine Relate.then _ (fun read_len => ?_)
  by_cases hread : read_len > 0
  · rw [if_pos hread, if_pos hread]
    refine Relate.then _ (fun ret => ?_)
    by_cases hret : ret ≠ 0
    · rw [if_pos hret, if_pos hret]
      exact Relate.pure (.done (.error ret))
    · rw [if_neg hret, if_neg hret]
      exact Relate.pure (.next ⟨hknows.feed place _, rfl⟩)
  · rw [if_neg hread, if_neg hread]
    exact Relate.pure (.done (.ok hknows))

theorem digestBody_relate (place : SignPlace) (fuel : Nat) (inf : List UInt8) :
    Relate (SameEnd fun ctx spec => ctx.buf = spec.buf) (digestBody place fuel inf)
      (signBody fuel Fips180.sha256 inf) := by
  refine Relate.then _ (fun ret => ?_)
  by_cases hret : ret ≠ 0
  · rw [if_pos hret, if_pos hret]
    exact Relate.pure (.error ret)
  rw [if_neg hret, if_neg hret]
  refine (digestLoop_relate place fuel inf).bind (fun a b hab => ?_)
  cases hab with
  | error r => exact Relate.pure (.error r)
  | @ok ctx spec hknows =>
    obtain ⟨hbuf, hpad⟩ := hknows.finalize place
    dsimp only
    rw [hpad]
    refine Relate.then _ (fun ret => ?_)
    by_cases hret : ret ≠ 0
    · rw [if_pos hret, if_pos hret]
      exact Relate.pure (.error ret)
    · rw [if_neg hret, if_neg hret]
      exact Relate.pure (.ok hbuf)

/-- **With its own hash `ws63sign` is the program with SHA-256 for a parameter**, wherever its arrays are. -/
theorem signMain_eq (place : SignPlace) (fuel : Nat) (inf : List UInt8) (io : FileIo) :
    signMain place fuel inf io = ws63sign fuel Fips180.sha256 inf io := by
  have h := digestBody_relate place fuel inf io []
  unfold signMain ws63sign
  generalize digestBody place fuel inf io [] = u at h ⊢
  generalize signBody fuel Fips180.sha256 inf io [] = v at h ⊢
  cases h with
  | ret e hab =>
    cases hab with
    | error r => rfl
    | ok hbuf =>
      dsimp only
      rw [hbuf]
  | stop x e => rfl

/-- **The image that `--write-program` makes** is the one with SHA-256 for a parameter, too. -/
theorem digestFile_eq (place : SignPlace) (bin : List UInt8) :
    (digestFile place bin).1.len = (signFile Fips180.sha256 bin).1.len ∧
      (digestFile place bin).2 = (signFile Fips180.sha256 bin).2 := by
  have hknows := SignCtx.init_knows.feeds place (freads 4096 bin.length bin)
  obtain ⟨hbuf, hpad⟩ := hknows.finalize place
  refine ⟨hknows.finalize_len place, ?_⟩
  simp only [digestFile, signFile, hbuf, hpad]
  rfl

/-- **The image has the SHA-256 of what it describes**: the input and its padding, however the input is cut into reads
and wherever the arrays are. -/
theorem signMain_image {inf : List UInt8} (hlen : (inf.length + 15) / 16 * 16 < 2 ^ 32) :
    ∃ header pad, pad < 16 ∧ 16 ∣ inf.length + pad ∧
      Describes Fips180.sha256 header (inf ++ List.replicate pad 0) ∧
      ∀ (place : SignPlace) (io : FileIo) (fuel : Nat), io.Reads →
        ((signMain place fuel inf io).1 = .ret 0 →
          (signMain place fuel inf io).2 = header ++ (inf ++ List.replicate pad 0)) ∧
        (io.Writes → inf.length < fuel → (signMain place fuel inf io).1 = .ret 0) := by
  obtain ⟨hsize, hcode, hhash⟩ := signHead_fields Fips180.sha256_length inf
  have hbytes : (ofLe32 (slice (signHead Fips180.sha256 inf) (0x100 + 36) 4)).toNat = (signBytes inf).length := by
    rw [hcode, ofLe32_le32, signBytes_length, UInt32.toNat_ofNat', Nat.mod_eq_of_lt hlen]
  refine ⟨signHead Fips180.sha256 inf, (inf.length + 15) / 16 * 16 - inf.length, by omega, ⟨(inf.length + 15) / 16, by omega⟩,
    ⟨hsize, hbytes, hhash⟩, fun place io fuel hr => ?_⟩
  obtain ⟨hfile, htotal⟩ := @ws63sign_image Fips180.sha256 fuel inf _ hr
  rw [signMain_eq]
  exact ⟨fun h0 => (hfile h0).trans (signFile_bytes Fips180.sha256_length inf), htotal⟩

/-- A program of one byte. -/
theorem signMain_image_sample : ∃ header pad, pad < 16 ∧ 16 ∣ [0x41].length + pad ∧
    Describes Fips180.sha256 header ([0x41] ++ List.replicate pad 0) ∧
      ∀ (place : SignPlace) (io : FileIo) (fuel : Nat), io.Reads →
        ((signMain place fuel [0x41] io).1 = .ret 0 →
          (signMain place fuel [0x41] io).2 = header ++ ([0x41] ++ List.replicate pad 0)) ∧
        (io.Writes → [0x41].length < fuel → (signMain place fuel [0x41] io).1 = .ret 0) :=
  @signMain_image [0x41] (by decide)

end Ws63Flash
