import Ws63Flash.FileIo
import Ws63Flash.Lib.Fips180
import Ws63Flash.Sign
/-!
# SignMain — `ws63sign.c`

`main` of `ws63sign` copies its input behind a header that it does not know yet, and goes back to write the header
again.  The file it leaves is the image of `ws63sign.h` for the input, however `fread` cuts it (`ws63sign_file`).
-/
namespace Ws63Flash

open Octets Proc

/-- The loop of `main`; the state is the context and what is left of the input.  An error is what `main` returns. -/
def signLoop (fuel : Nat) (inf : List UInt8) : FileProc (Except Int Ws63SignCtx) :=
  Proc.loop (fun (s : Ws63SignCtx × List UInt8) => do
    let read_len ← fread (min 4096 s.2.length)
    if read_len > 0 then
      let buf := s.2.take read_len
      let ctx := ws63SignFeed s.1 buf
      let ret ← checkedFwrite buf
      if ret ≠ 0 then return .done (.error ret) else return .next (ctx, s.2.drop read_len)
    else return .done (.ok s.1)) fuel (ws63SignInit, inf)

/-- `main` up to its `fseek`. -/
def signBody (fuel : Nat) (sha256 : List UInt8 → List UInt8) (inf : List UInt8) : FileProc (Except Int Ws63SignCtx) := do
  let ret ← checkedFwrite ws63SignInit.buf
  if ret ≠ 0 then return .error ret
  else
    match ← signLoop fuel inf with
    | .error r => return .error r
    | .ok ctx  =>
      let (ctx, padding) := ws63SignFinalize sha256 ctx
      let ret ← checkedFwrite (List.replicate padding 0)
      if ret ≠ 0 then return .error ret else return .ok ctx

/-- A run of `main`: what it returns, and the file it leaves.  After the `fseek` the header is written over the start of
the file. -/
def ws63sign (fuel : Nat) (sha256 : List UInt8 → List UInt8) (inf : List UInt8) (io : FileIo) : Out Int × List UInt8 :=
  match signBody fuel sha256 inf io [] with
  | (.stop x, e)        => (.stop x, output e)
  | (.ret (.error r), e) => (.ret r, output e)
  | (.ret (.ok ctx), e)  =>
    let head := checkedFwrite ctx.buf io e
    (head.1, setRange (output e) 0 (output head.2))

/-! ## The bytes up to the `fseek` -/

/-- The context of a whole program, before it is finished. -/
def signFed (inf : List UInt8) : Ws63SignCtx := { ws63SignInit with fed := inf, len := inf.length }

theorem foldl_freads (inf : List UInt8) : (freads 4096 inf.length inf).foldl ws63SignFeed ws63SignInit = signFed inf := by
  rw [ws63SignFeed_foldl, freads_flatten (by decide) _ _ (Nat.le_refl _)]
  show ({ ws63SignInit with fed := [] ++ inf, len := 0 + inf.length } : Ws63SignCtx) = _
  rw [List.nil_append, Nat.zero_add]
  rfl

/-- The image that is signed in blocks of 4096 bytes is that of the whole program. -/
theorem signFile_eq (sha256 : List UInt8 → List UInt8) (inf : List UInt8) : signFile sha256 inf =
    ((ws63SignFinalize sha256 (signFed inf)).1, setRange (ws63SignInit.buf ++ inf ++
      List.replicate (ws63SignFinalize sha256 (signFed inf)).2 0) 0 (ws63SignFinalize sha256 (signFed inf)).1.buf) := by
  unfold signFile
  simp only [foldl_freads, freads_flatten (show 0 < 4096 by decide) _ _ (Nat.le_refl _)]

/-- What `checked_fwrite` has written when it lets its caller go on. -/
theorem checkedFwrite_wrote (bs : List UInt8) (io : FileIo) (l : List FileEv) :
    Sat (checkedFwrite bs) io l (fun o e => ∃ r, o = .ret r ∧ (r = 0 → output e = bs)) := by
  apply Sat.bind_val (fwrite_sat bs io l)
  rintro k e ⟨hk, he⟩
  split
  · exact Sat.pure ⟨1, rfl, fun h => absurd h (by decide)⟩
  · rename_i hall
    refine Sat.pure ⟨0, rfl, fun _ => ?_⟩
    rw [List.append_nil, he, Classical.not_not.1 hall]
    exact List.take_length

/-- **The loop** has fed the context what it has copied: together with what is left, the input. -/
theorem signLoop_wrote (fuel : Nat) (inf : List UInt8) {io : FileIo} (hr : io.Reads) (l : List FileEv) :
    Sat (signLoop fuel inf) io l (fun o e => ∀ ctx, o = .ret (.ok ctx) → ctx = signFed inf ∧ output e = inf) := by
  refine Sat.loop (fun s e => s.1 = signFed (output e) ∧ output e ++ s.2 = inf) ?_ (fun s e _ ctx ho => by cases ho) fuel _
    ⟨rfl, rfl⟩
  rintro ⟨ctx, f⟩ e ⟨hctx, hrest⟩
  dsimp only at hctx hrest ⊢
  have hread : Sat (fread (min 4096 f.length)) io (l ++ e) (fun o e' => ∃ k, o = .ret k ∧
      (k ≤ f.length ∧ (k = 0 → f = []) ∧ output e' = [])) := by
    refine ⟨_, rfl, Nat.le_trans (io.fread_le _ _) (Nat.min_le_right _ _), fun h0 => ?_, rfl⟩
    by_contra hne
    have hpos := hr (l ++ e) (min 4096 f.length) (by have := List.length_pos_iff.2 hne; omega)
    exact absurd h0 (Nat.pos_iff_ne_zero.1 hpos)
  apply Sat.bind_val hread
  rintro k e₁ ⟨hk, hzero, he₁⟩
  split
  · apply Sat.bind_val (checkedFwrite_wrote _ io _)
    rintro r e₂ hwrote
    split
    · exact Sat.pure (fun ctx' ho => by cases ho)
    · rename_i hret
      have hout : output (e ++ (e₁ ++ (e₂ ++ []))) = output e ++ f.take k := by
        rw [List.append_nil, output_append, output_append, he₁, List.nil_append, hwrote (Classical.not_not.1 hret)]
      refine Sat.pure ⟨?_, ?_⟩
      · dsimp only
        rw [hout, hctx]
        simp only [ws63SignFeed, signFed, List.length_append]
      · rw [hout, List.append_assoc, List.take_append_drop, hrest]
  · rename_i hk0
    refine Sat.pure (fun ctx' ho => ?_)
    cases ho
    rw [hzero (by omega), List.append_nil] at hrest
    rw [List.append_nil, output_append, he₁, List.append_nil, hrest]
    exact ⟨hctx.trans (by rw [hrest]), rfl⟩

theorem signLoop_total {fuel : Nat} {inf : List UInt8} (hf : inf.length < fuel) {io : FileIo} (hw : io.Writes)
    (l : List FileEv) : Sat (signLoop fuel inf) io l (fun o _ => ∃ ctx, o = .ret (.ok ctx)) := by
  refine Sat.loop_total (fun _ _ => True) (fun s => s.2.length) ?_ fuel (ws63SignInit, inf) hf trivial
  rintro ⟨ctx, f⟩ e _
  dsimp only
  apply Sat.bind_val (fread_sat _ io _)
  rintro k e₁ ⟨hk, _⟩
  split
  · apply Sat.bind_val (checkedFwrite_whole hw _ _)
    rintro _ e₂ rfl
    rw [if_neg (fun h => h rfl)]
    refine Sat.pure ⟨trivial, ?_⟩
    dsimp only
    rw [List.length_drop]
    omega
  · exact Sat.pure ⟨ctx, rfl⟩

/-- **The bytes before the `fseek`**: a header yet without its fields, the input, and the padding. -/
theorem signBody_wrote (fuel : Nat) (sha256 : List UInt8 → List UInt8) (inf : List UInt8) {io : FileIo} (hr : io.Reads)
    (l : List FileEv) : Sat (signBody fuel sha256 inf) io l (fun o e => ∀ ctx, o = .ret (.ok ctx) →
      ctx = (ws63SignFinalize sha256 (signFed inf)).1 ∧
      output e = ws63SignInit.buf ++ inf ++ List.replicate (ws63SignFinalize sha256 (signFed inf)).2 0) := by
  apply Sat.bind_val (checkedFwrite_wrote _ io l)
  intro r e₁ h₁
  split
  · exact Sat.pure (fun ctx ho => by cases ho)
  rename_i hr₁
  refine Sat.bind (signLoop_wrote fuel inf hr _) ?_ (fun x e _ ctx ho => by cases ho)
  intro res e₂ h₂
  cases res with
  | error r' => exact Sat.pure (fun ctx ho => by cases ho)
  | ok ctx =>
    obtain ⟨rfl, hin⟩ := h₂ ctx rfl
    dsimp only
    apply Sat.bind_val (checkedFwrite_wrote _ io _)
    intro r₃ e₃ h₃
    split
    · exact Sat.pure (fun ctx ho => by cases ho)
    rename_i hr₃
    refine Sat.pure (fun ctx ho => ?_)
    cases ho
    refine ⟨rfl, ?_⟩
    rw [List.append_nil, output_append, output_append, h₁ (Classical.not_not.1 hr₁), hin, h₃ (Classical.not_not.1 hr₃),
      List.append_assoc]

theorem signBody_total {fuel : Nat} (sha256 : List UInt8 → List UInt8) {inf : List UInt8} (hf : inf.length < fuel)
    {io : FileIo} (hw : io.Writes) (l : List FileEv) :
    Sat (signBody fuel sha256 inf) io l (fun o _ => ∃ ctx, o = .ret (.ok ctx)) := by
  apply Sat.bind_val (checkedFwrite_whole hw _ l)
  rintro _ e₁ rfl
  rw [if_neg (fun h => h rfl)]
  have hloop : Sat (signLoop fuel inf) io (l ++ e₁) (fun o _ => ∃ res, o = .ret res ∧ ∃ ctx, res = .ok ctx) :=
    (signLoop_total hf hw _).mono (fun o _ ⟨ctx, ho⟩ => ⟨.ok ctx, ho, ctx, rfl⟩)
  apply Sat.bind_val hloop
  rintro _ e₂ ⟨ctx, rfl⟩
  dsimp only
  apply Sat.bind_val (checkedFwrite_whole hw _ _)
  rintro _ e₃ rfl
  rw [if_neg (fun h => h rfl)]
  exact Sat.pure ⟨_, rfl⟩

theorem signLoop_error (fuel : Nat) (inf : List UInt8) :
    Returns (signLoop fuel inf) (fun res => ∀ r, res = .error r → r ≠ 0) := by
  refine Returns.loop (fun s => ?_) fuel _
  refine (Returns.any _).bind (fun k _ => ?_)
  split
  · refine (Returns.any _).bind (fun ret _ => ?_)
    split
    · rename_i hret
      exact Returns.pure (fun r hr => by cases hr; exact hret)
    · exact Returns.pure trivial
  · exact Returns.pure (fun r hr => by cases hr)

/-- `main` returns something other than 0 when it leaves early. -/
theorem signBody_error (fuel : Nat) (sha256 : List UInt8 → List UInt8) (inf : List UInt8) :
    Returns (signBody fuel sha256 inf) (fun res => ∀ r, res = .error r → r ≠ 0) := by
  have hcheck : ∀ {ret : Int}, ret ≠ 0 → Returns (Pure.pure (.error ret) : FileProc (Except Int Ws63SignCtx))
      (fun res => ∀ r, res = .error r → r ≠ 0) := fun hret => Returns.pure (fun r hr => by cases hr; exact hret)
  refine (Returns.any _).bind (fun ret _ => ?_)
  split
  · rename_i hret
    exact hcheck hret
  refine (signLoop_error fuel inf).bind (fun res hres => ?_)
  cases res with
  | error r => exact Returns.pure (fun r' hr => by cases hr; exact hres r rfl)
  | ok ctx =>
    refine (Returns.any _).bind (fun ret _ => ?_)
    split
    · rename_i hret
      exact hcheck hret
    · exact Returns.pure (fun r hr => by cases hr)

/-! ## The file -/

/-- The program and its padding: what `code_len` counts and `code_hash` is the hash of. -/
def signBytes (inf : List UInt8) : List UInt8 := inf ++ List.replicate ((inf.length + 15) / 16 * 16 - inf.length) 0

theorem signBytes_length (inf : List UInt8) : (signBytes inf).length = (inf.length + 15) / 16 * 16 := by
  rw [signBytes, List.length_append, List.length_replicate]
  omega

/-- A run of `main` that returns 0 leaves the image, and one in which every write is whole returns 0. -/
theorem ws63sign_image (fuel : Nat) (inf : List UInt8) {io : FileIo} (hr : io.Reads) :
    ((ws63sign fuel sha256 inf io).1 = .ret 0 → (ws63sign fuel sha256 inf io).2 = (signFile sha256 inf).2) ∧
      (io.Writes → inf.length < fuel → (ws63sign fuel sha256 inf io).1 = .ret 0) := by
  have hwrote := signBody_wrote fuel sha256 inf hr []
  have herror := signBody_error fuel sha256 inf io []
  have htotal := fun (hw : io.Writes) (hf : inf.length < fuel) => signBody_total sha256 hf hw []
  unfold Sat at hwrote herror htotal
  unfold ws63sign
  rcases hbody : signBody fuel sha256 inf io [] with ⟨res | x, e⟩
  · rw [hbody] at hwrote herror htotal
    cases res with
    | error r =>
      refine ⟨fun h0 => absurd (Out.ret.inj h0) (herror _ rfl r rfl), fun hw hf => ?_⟩
      obtain ⟨ctx, hctx⟩ := htotal hw hf
      cases hctx
    | ok ctx =>
      obtain ⟨rfl, hout⟩ := hwrote ctx rfl
      have hhead := checkedFwrite_wrote (ws63SignFinalize sha256 (signFed inf)).1.buf io e
      refine ⟨fun h0 => ?_, fun hw _ => ?_⟩
      · obtain ⟨r, hr, hw⟩ := hhead
        have hr0 : r = 0 := Out.ret.inj (hr.symm.trans h0)
        dsimp only at hout ⊢
        rw [hw hr0, hout, signFile_eq]
      · obtain ⟨_, hret, rfl⟩ := checkedFwrite_whole hw (ws63SignFinalize sha256 (signFed inf)).1.buf e
        exact hret
  · rw [hbody] at htotal
    constructor
    · intro h0
      cases h0
    · intro hw hf
      obtain ⟨ctx, hctx⟩ := htotal hw hf
      cases hctx

/-- The header of the image of `inf`. -/
def signHead (sha256 : List UInt8 → List UInt8) (inf : List UInt8) : List UInt8 :=
  (ws63SignFinalize sha256 (signFed inf)).1.buf

section

variable {sha256 : List UInt8 → List UInt8} (hsha : ∀ m, (sha256 m).length = 32)
include hsha

theorem signHead_fields (inf : List UInt8) : (signHead sha256 inf).length = signBufLen ∧
    slice (signHead sha256 inf) (0x100 + 36) 4 = le32 (UInt32.ofNat (signBytes inf).length) ∧
    slice (signHead sha256 inf) (0x100 + 40) 32 = sha256 (signBytes inf) := by
  have hinit : ws63SignInit.buf.length = 0x300 := ws63SignInit_buf_length
  have hhash : (setRange ws63SignInit.buf (0x100 + 40) (sha256 (signBytes inf))).length = 0x300 := by
    rw [setRange_length (by rw [hinit, hsha]; decide), hinit]
  have hbuf : signHead sha256 inf = setRange (setRange ws63SignInit.buf (0x100 + 40) (sha256 (signBytes inf))) (0x100 + 36)
      (le32 (UInt32.ofNat (signBytes inf).length)) := by
    rw [signBytes_length]
    rfl
  rw [hbuf]
  refine ⟨?_, ?_, ?_⟩
  · rw [setRange_length (by rw [hhash, le32_length]; decide), hhash]
    rfl
  · exact slice_setRange _ (by rw [hhash]; decide) (le32_length _)
  · rw [slice_setRange_after _ _ (by rw [hhash]; decide) (by rw [le32_length])]
    exact slice_setRange _ (by rw [hinit]; decide) (hsha _)

/-- The image: the header, and what it describes. -/
theorem signFile_bytes (inf : List UInt8) : (signFile sha256 inf).2 = signHead sha256 inf ++ signBytes inf := by
  have hlen : (signHead sha256 inf).length = ws63SignInit.buf.length := by
    rw [(signHead_fields hsha inf).1, ws63SignInit_buf_length]
  have hset := setRange_append (a := []) (i := 0) (signBytes inf) rfl hlen
  rw [List.nil_append, List.nil_append] at hset
  rw [signFile_eq, List.append_assoc]
  exact hset

/-- `header` is one for the bytes `body` after it. -/
structure Describes (sha256 : List UInt8 → List UInt8) (header body : List UInt8) : Prop where
  size : header.length = 0x300
  codeLen : (ofLe32 (slice header (0x100 + 36) 4)).toNat = body.length
  codeHash : slice header (0x100 + 40) 32 = sha256 body

/-- **The file `ws63sign` writes**: a header, the input, and zero bytes up to a multiple of 16, which the header
describes, however the input is cut into reads. -/
theorem ws63sign_file {inf : List UInt8} (hlen : (inf.length + 15) / 16 * 16 < 2 ^ 32) :
    ∃ header pad, pad < 16 ∧ 16 ∣ inf.length + pad ∧ Describes sha256 header (inf ++ List.replicate pad 0) ∧
      ∀ (io : FileIo) (fuel : Nat), io.Reads →
        ((ws63sign fuel sha256 inf io).1 = .ret 0 →
          (ws63sign fuel sha256 inf io).2 = header ++ (inf ++ List.replicate pad 0)) ∧
        (io.Writes → inf.length < fuel → (ws63sign fuel sha256 inf io).1 = .ret 0) := by
  obtain ⟨hsize, hcode, hhash⟩ := signHead_fields hsha inf
  refine ⟨signHead sha256 inf, (inf.length + 15) / 16 * 16 - inf.length, by omega, ⟨(inf.length + 15) / 16, by omega⟩,
    ⟨hsize, ?_, hhash⟩, fun io fuel hr => ?_⟩
  · rw [hcode, ofLe32_le32, signBytes_length, UInt32.toNat_ofNat', Nat.mod_eq_of_lt hlen]
    exact (signBytes_length inf).symm
  · obtain ⟨hfile, htotal⟩ := @ws63sign_image sha256 fuel inf _ hr
    rw [signFile_bytes hsha] at hfile
    exact ⟨hfile, htotal⟩

end

/-- SHA-256, and a program of 17 bytes. -/
theorem ws63sign_file_sample : ∃ header pad, pad < 16 ∧ 16 ∣ (List.replicate 17 (0x41 : UInt8)).length + pad ∧
    Describes Fips180.sha256 header (List.replicate 17 0x41 ++ List.replicate pad 0) ∧
      ∀ (io : FileIo) (fuel : Nat), io.Reads →
        ((ws63sign fuel Fips180.sha256 (List.replicate 17 0x41) io).1 = .ret 0 →
          (ws63sign fuel Fips180.sha256 (List.replicate 17 0x41) io).2
            = header ++ (List.replicate 17 0x41 ++ List.replicate pad 0)) ∧
        (io.Writes → (List.replicate 17 (0x41 : UInt8)).length < fuel →
          (ws63sign fuel Fips180.sha256 (List.replicate 17 0x41) io).1 = .ret 0) :=
  @ws63sign_file Fips180.sha256 Fips180.sha256_length (List.replicate 17 0x41) (by decide)

end Ws63Flash
