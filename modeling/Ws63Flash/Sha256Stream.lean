import Ws63Flash.Sha256Block
/-!
# Sha256Stream — `sha256_process_bytes` and `sha256_finish_ctx`

A context holds a text: its complete blocks but perhaps the last are in the state and counted, and the rest is in the
buffer (`Holds`).  Each phase of `sha256_process_bytes` keeps that, whatever the input's address; and finishing it is
padding the text (`sha256ConcludeCtx_digest`).
-/
namespace Ws63Flash

open Octets Absorb Fips180

/-- The bytes counted, as the two words of `total`. -/
def Sha256Ctx.count (ctx : Sha256Ctx) : Nat := ctx.total0.toNat + 2 ^ 32 * ctx.total1.toNat

/-- The complete blocks of `text` up to `rest` are in the state, and counted. -/
def Sha256Ctx.Absorbed (ctx : Sha256Ctx) (text rest : List UInt8) : Prop :=
  ∃ k, Fed 64 blockPass initState text k ctx.state rest ∧ ctx.count = 64 * k % 2 ^ 64

/-- `ctx` has been given `text` but for `more`. -/
structure Sha256Ctx.Holds (ctx : Sha256Ctx) (text more : List UInt8) : Prop where
  size : ctx.buffer.length = 128
  used : ctx.buflen ≤ 64
  absorbed : ctx.Absorbed text (ctx.buffer.take ctx.buflen ++ more)

/-! ## `sha256_process_block` -/

/-- The double word increment. -/
theorem sha256ProcessBlock_count (bs : List UInt8) (ctx : Sha256Ctx) :
    (sha256ProcessBlock bs ctx).count = (ctx.count + bs.length) % 2 ^ 64 := by
  have h0 : ctx.total0.toNat < 2 ^ 32 := ctx.total0.toNat_lt
  have h1 : ctx.total1.toNat < 2 ^ 32 := ctx.total1.toNat_lt
  simp only [Sha256Ctx.count, sha256ProcessBlock, UInt32.toNat_add, UInt32.toNat_ofNat', UInt32.lt_iff_toNat_lt]
  by_cases hc : (ctx.total0.toNat + bs.length % 2 ^ 32) % 2 ^ 32 < bs.length % 2 ^ 32
  · rw [if_pos hc]
    omega
  · rw [if_neg hc]
    omega

theorem sha256ProcessBlock_state {bs : List UInt8} {j : Nat} (h : bs.length = 64 * j) (ctx : Sha256Ctx) :
    (sha256ProcessBlock bs ctx).state = absorb 64 blockPass j ctx.state bs := by
  have hpasses : (bs.length / 4 + 15) / 16 = j := by omega
  rw [← hpasses]
  rfl

theorem Sha256Ctx.Absorbed.process {ctx : Sha256Ctx} {text bs more : List UInt8} (h : ctx.Absorbed text (bs ++ more))
    (hbs : 64 ∣ bs.length) : (sha256ProcessBlock bs ctx).Absorbed text more := by
  obtain ⟨k, hfed, hcount⟩ := h
  obtain ⟨j, hj⟩ := hbs
  have hstep := hfed.blocks (j := j) (by rw [List.length_append]; omega)
  rw [absorb_append 64 blockPass j _ more (by rw [hj]), List.drop_left' hj] at hstep
  refine ⟨k + j, ?_, ?_⟩
  · rw [sha256ProcessBlock_state hj]
    exact hstep
  · rw [sha256ProcessBlock_count, hcount, hj]
    omega

theorem Sha256Ctx.Absorbed.append {ctx : Sha256Ctx} {text rest : List UInt8} (h : ctx.Absorbed text rest)
    (bs : List UInt8) : ctx.Absorbed (text ++ bs) (rest ++ bs) := by
  obtain ⟨k, hfed, hcount⟩ := h
  exact ⟨k, hfed.append bs, hcount⟩

theorem sha256InitCtx_holds (fill : Vector UInt8 128) : (sha256InitCtx fill).Holds [] [] where
  size := by simp [sha256InitCtx]
  used := Nat.zero_le _
  absorbed := ⟨0, Fed.nil, rfl⟩

/-! ## `sha256_process_bytes` -/

/-- What a buffer holds after bytes were put behind those in use. -/
theorem take_setRange {buf src : List UInt8} {i n : Nat} (hi : i ≤ buf.length) (hn : i + src.length = n) :
    (setRange buf i src).take n = buf.take i ++ src := by
  have hlen : (buf.take i ++ src).length = n := by
    rw [List.length_append, List.length_take]
    omega
  rw [setRange, List.take_left' hlen]

/-- A move of bytes to the front. -/
theorem take_setRange_slice {buf : List UInt8} {off n : Nat} (h : off + n ≤ buf.length) :
    (setRange buf 0 (slice buf off n)).take n = slice buf off n := by
  rw [take_setRange (Nat.zero_le _) (by rw [slice_length h, Nat.zero_add]), List.take_zero, List.nil_append]

/-- What is left behind the complete blocks, moved to the front. -/
theorem Sha256Ctx.Absorbed.shift {ctx : Sha256Ctx} {text more : List UInt8} {n : Nat}
    (hn : n ≤ ctx.buffer.length) (h : ctx.Absorbed text (ctx.buffer.take n ++ more)) :
    (sha256ProcessBlock (ctx.buffer.take (n / 64 * 64)) ctx).Absorbed text
      ((setRange ctx.buffer 0 (slice ctx.buffer (n / 64 * 64) (n % 64))).take (n % 64) ++ more) := by
  have hsplit : ctx.buffer.take n = ctx.buffer.take (n / 64 * 64) ++ slice ctx.buffer (n / 64 * 64) (n % 64) := by
    rw [slice, ← List.take_add, Nat.mul_comm (n / 64), Nat.div_add_mod]
  have hblocks : 64 ∣ (ctx.buffer.take (n / 64 * 64)).length := by
    rw [List.length_take, Nat.min_eq_left (by omega)]
    exact Nat.dvd_mul_left 64 _
  rw [take_setRange_slice (by omega)]
  rw [hsplit, List.append_assoc] at h
  exact h.process hblocks

theorem fillBuffer_holds {ctx : Sha256Ctx} {text bs : List UInt8} (h : ctx.Holds text bs) :
    (fillBuffer bs ctx).1.Holds text (bs.drop (fillBuffer bs ctx).2) ∧
      (bs.drop (fillBuffer bs ctx).2 ≠ [] → (fillBuffer bs ctx).1.buflen = 0) := by
  obtain ⟨hsize, hused, habs⟩ := h
  unfold fillBuffer
  by_cases h0 : ctx.buflen = 0
  · rw [if_neg (not_not.2 h0)]
    exact ⟨⟨hsize, hused, habs⟩, fun _ => h0⟩
  rw [if_pos h0]
  extract_lets left_over add ctx₁ done buflen
  have hadd : add ≤ bs.length ∧ left_over + add ≤ 128 ∧ (add < bs.length → left_over + add = 128) := by
    have hle : left_over ≤ 64 := hused
    simp only [add]
    split <;> omega
  obtain ⟨hle, h128, hmore⟩ := hadd
  have htake : (bs.take add).length = add := by rw [List.length_take, Nat.min_eq_left hle]
  have hsize₁ : ctx₁.buffer.length = 128 := by
    rw [← hsize]
    exact setRange_length (by rw [htake, hsize]; exact h128)
  have habs₁ : ctx₁.Absorbed text (ctx₁.buffer.take (left_over + add) ++ bs.drop add) := by
    have htaken : ctx₁.buffer.take (left_over + add) = ctx.buffer.take left_over ++ bs.take add :=
      take_setRange (by omega) (by rw [htake])
    rw [htaken, List.append_assoc, List.take_append_drop]
    exact habs
  have hall : bs.drop add ≠ [] → left_over + add = 128 := fun hne => hmore (by
    have := List.length_pos_iff.2 hne
    rw [List.length_drop] at this
    omega)
  by_cases h64 : left_over + add > 64
  · rw [if_pos h64]
    refine ⟨⟨?_, Nat.le_of_lt (Nat.mod_lt _ (by decide)), habs₁.shift (by rw [hsize₁]; exact h128)⟩, fun hne => ?_⟩
    · refine (setRange_length (show 0 + (slice ctx₁.buffer _ ((left_over + add) % 64)).length ≤ _ from ?_)).trans hsize₁
      rw [slice_length (by rw [hsize₁]; omega), hsize₁]
      omega
    · show (left_over + add) % 64 = 0
      rw [hall hne]
  · rw [if_neg h64]
    exact ⟨⟨hsize₁, Nat.le_of_not_lt h64, habs₁⟩, fun hne => by have := hall hne; omega⟩

theorem copiedBlocks_holds : ∀ (fuel : Nat) {ctx : Sha256Ctx} {text bs : List UInt8}, ctx.Holds text bs → ctx.buflen = 0 →
    bs.length ≤ fuel → (copiedBlocks fuel bs ctx).1.Holds text (copiedBlocks fuel bs ctx).2 ∧
      (copiedBlocks fuel bs ctx).1.buflen = 0 ∧ (copiedBlocks fuel bs ctx).2.length ≤ 64
  | 0, ctx, text, bs, h, h0, hf        => ⟨h, h0, Nat.le_trans hf (Nat.zero_le _)⟩
  | fuel + 1, ctx, text, bs, h, h0, hf => by
    rw [copiedBlocks]
    by_cases h64 : bs.length > 64
    · rw [if_pos h64]
      have htake : (bs.take 64).length = 64 := by rw [List.length_take]; omega
      have habs := h.absorbed
      rw [h0, List.take_zero, List.nil_append, ← List.take_append_drop 64 bs] at habs
      refine copiedBlocks_holds fuel ⟨?_, ?_, ?_⟩ h0 (by rw [List.length_drop]; omega)
      · exact (setRange_length (by rw [htake, h.size]; decide)).trans h.size
      · exact h.used
      · have hnext := Sha256Ctx.Absorbed.process habs (by rw [htake])
        show Sha256Ctx.Absorbed _ _ ((setRange ctx.buffer 0 (bs.take 64)).take ctx.buflen ++ bs.drop 64)
        rw [h0, List.take_zero, List.nil_append]
        exact hnext
    · rw [if_neg h64]
      exact ⟨h, h0, Nat.le_of_not_lt h64⟩

theorem wholeBlocks_holds (unaligned : Bool) {ctx : Sha256Ctx} {text bs : List UInt8} (h : ctx.Holds text bs)
    (h0 : bs ≠ [] → ctx.buflen = 0) :
    (wholeBlocks unaligned bs ctx).1.Holds text (wholeBlocks unaligned bs ctx).2 ∧
      ((wholeBlocks unaligned bs ctx).2 ≠ [] → (wholeBlocks unaligned bs ctx).1.buflen = 0) ∧
      (wholeBlocks unaligned bs ctx).2.length ≤ 64 := by
  unfold wholeBlocks
  by_cases h64 : bs.length ≥ 64
  · have hzero : ctx.buflen = 0 := h0 (List.length_pos_iff.1 (by omega))
    rw [if_pos h64]
    cases unaligned with
    | true =>
      obtain ⟨hholds, hlen, hle⟩ := copiedBlocks_holds bs.length h hzero (Nat.le_refl _)
      exact ⟨hholds, fun _ => hlen, hle⟩
    | false =>
      have habs := h.absorbed
      rw [hzero, List.take_zero, List.nil_append, ← List.take_append_drop (bs.length / 64 * 64) bs] at habs
      have hblocks : 64 ∣ (bs.take (bs.length / 64 * 64)).length := by
        rw [List.length_take, Nat.min_eq_left (by omega)]
        exact Nat.dvd_mul_left 64 _
      refine ⟨⟨h.size, h.used, ?_⟩, fun _ => hzero, ?_⟩
      · show Sha256Ctx.Absorbed _ _ (ctx.buffer.take ctx.buflen ++ bs.drop (bs.length / 64 * 64))
        rw [hzero, List.take_zero, List.nil_append]
        exact habs.process hblocks
      · show (bs.drop (bs.length / 64 * 64)).length ≤ 64
        rw [List.length_drop]
        omega
  · rw [if_neg h64]
    exact ⟨h, h0, Nat.le_of_not_ge h64⟩

theorem keepRest_holds {ctx : Sha256Ctx} {text bs : List UInt8} (h : ctx.Holds text bs) (h0 : bs ≠ [] → ctx.buflen = 0)
    (hle : bs.length ≤ 64) : (keepRest bs ctx).Holds text [] := by
  unfold keepRest
  by_cases hpos : bs.length > 0
  · have hzero := h0 (List.length_pos_iff.1 hpos)
    have habs := h.absorbed
    rw [if_pos hpos]
    extract_lets left_over ctx₁ left_over₁ ctx₂ left_over₂
    have hlen : left_over₁ = bs.length := by
      show ctx.buflen + bs.length = bs.length
      omega
    have hsize₁ : ctx₁.buffer.length = 128 := (setRange_length (by rw [h.size]; omega)).trans h.size
    have habs₁ : ctx₁.Absorbed text (ctx₁.buffer.take left_over₁ ++ []) := by
      have htaken : ctx₁.buffer.take left_over₁ = ctx.buffer.take ctx.buflen ++ bs :=
        take_setRange (by rw [h.size]; omega) rfl
      rw [htaken, List.append_nil]
      exact habs
    by_cases h64 : left_over₁ ≥ 64
    · rw [if_pos h64]
      have hfull : left_over₁ = 64 := by omega
      have hnone : left_over₂ = 0 := by
        show left_over₁ - 64 = 0
        omega
      have hshift := habs₁.shift (by omega)
      rw [hfull] at hshift
      refine ⟨?_, by show left_over₂ ≤ 64; omega, ?_⟩
      · refine (setRange_length ?_).trans hsize₁
        rw [hnone, slice, List.take_zero, List.length_nil]
        exact Nat.zero_le _
      · show Sha256Ctx.Absorbed _ _ ((setRange ctx₂.buffer 0 (slice ctx₂.buffer 64 left_over₂)).take left_over₂ ++ [])
        rw [hnone]
        exact hshift
    · rw [if_neg h64]
      exact ⟨hsize₁, Nat.le_of_lt (Nat.lt_of_not_ge h64), habs₁⟩
  · rw [if_neg hpos]
    have hnil : bs = [] := List.length_eq_zero_iff.1 (Nat.eq_zero_of_not_pos hpos)
    rw [← hnil]
    exact h

/-- **Any input is appended to the text.** -/
theorem sha256ProcessBytes_holds (strictAlign : Bool) {ctx : Sha256Ctx} {text : List UInt8} (h : ctx.Holds text [])
    (input : Input) : (sha256ProcessBytes strictAlign ctx input).Holds (text ++ input.bytes) [] := by
  have hmore : ctx.Holds (text ++ input.bytes) input.bytes := by
    have habs := h.absorbed
    rw [List.append_nil] at habs
    exact ⟨h.size, h.used, habs.append input.bytes⟩
  obtain ⟨hfill, hfill0⟩ := fillBuffer_holds hmore
  obtain ⟨hwhole, hwhole0, hle⟩ := wholeBlocks_holds
    (strictAlign && decide ((input.addr + (fillBuffer input.bytes ctx).2) % 4 ≠ 0)) hfill hfill0
  exact keepRest_holds hwhole hwhole0 hle

theorem foldl_sha256ProcessBytes (strictAlign : Bool) : ∀ (inputs : List Input) {ctx : Sha256Ctx} {text : List UInt8},
    ctx.Holds text [] → (inputs.foldl (sha256ProcessBytes strictAlign) ctx).Holds (text ++ inputs.flatMap Input.bytes) []
  | [], ctx, text, h              => by rw [List.flatMap_nil, List.append_nil]; exact h
  | input :: inputs, ctx, text, h => by
    rw [List.foldl_cons, List.flatMap_cons, ← List.append_assoc]
    exact foldl_sha256ProcessBytes strictAlign inputs (sha256ProcessBytes_holds strictAlign h input)

/-! ## `sha256_finish_ctx` -/

theorem le32_SWAP (x : UInt32) : le32 (SWAP x) = be32 x := by
  rw [SWAP, le32_ofLe32 (by rw [List.length_reverse, le32_length])]
  rfl

theorem sha256ReadCtx_digest (ctx : Sha256Ctx) : sha256ReadCtx ctx = digest (view 0 ctx.state) := by
  simp only [sha256ReadCtx, le32_SWAP]
  rfl

/-- Two words stored at the end of a block, and bytes up to them. -/
theorem take_setRanges {buf u v w : List UInt8} {b n : Nat} (hu : u.length = 4) (hv : v.length = 4) (hw : b + w.length = n)
    (hn : n + 8 ≤ buf.length) :
    (setRange (setRange (setRange buf n u) (n + 4) v) b w).take (n + 8) = buf.take b ++ w ++ (u ++ v) := by
  have hbuf : (setRange (setRange buf n u) (n + 4) v).take (n + 8) = buf.take n ++ u ++ v := by
    have hlen : (setRange buf n u).length = buf.length := setRange_length (by omega)
    rw [take_setRange (by omega) (by omega), take_setRange (by omega) (by omega)]
  have hlen : n + 8 ≤ (setRange (setRange buf n u) (n + 4) v).length := by
    have := congrArg List.length hbuf
    simp only [List.length_take, List.length_append] at this
    omega
  generalize setRange (setRange buf n u) (n + 4) v = buf' at hbuf hlen ⊢
  have hhead : buf'.take b = buf.take b := by
    have := congrArg (List.take b) hbuf
    rwa [List.take_take, Nat.min_eq_left (by omega), List.append_assoc,
      List.take_append_of_le_length (by rw [List.length_take]; omega), List.take_take, Nat.min_eq_left (by omega)] at this
  have htail : slice buf' n 8 = u ++ v := by
    rw [slice_eq_drop_take, hbuf, List.append_assoc, List.drop_left' (by rw [List.length_take]; omega)]
  have hpart : (buf'.take b ++ w).length = n := by
    rw [List.length_append, List.length_take]
    omega
  rw [setRange, hw, ← hpart, List.take_length_add_append, hpart, hhead]
  exact congrArg _ htail

/-- The two words of the length in bits, as one of 64. -/
theorem be32_bits {t0 t1 : UInt32} {len : Nat} (h : t0.toNat + 2 ^ 32 * t1.toNat = len % 2 ^ 64) :
    be32 ((t1 <<< 3) ||| (t0 >>> 29)) ++ be32 (t0 <<< 3) = (leBytes 8 (8 * len)).reverse := by
  have h0 : t0.toNat < 2 ^ 32 := t0.toNat_lt
  have h1 : t1.toNat < 2 ^ 32 := t1.toNat_lt
  have hlow : (t0 <<< 3).toNat = t0.toNat * 8 % 2 ^ 32 := by
    rw [UInt32.toNat_shiftLeft, Nat.shiftLeft_eq]
    rfl
  have hhigh : ((t1 <<< 3) ||| (t0 >>> 29)).toNat = 2 ^ 3 * (t1.toNat % 2 ^ 29) + t0.toNat / 2 ^ 29 := by
    rw [Nat.two_pow_add_eq_or_of_lt (by omega), UInt32.toNat_or, UInt32.toNat_shiftLeft, UInt32.toNat_shiftRight]
    show t1.toNat <<< 3 % 2 ^ 32 ||| t0.toNat >>> 29 = _
    rw [Nat.shiftLeft_eq, Nat.shiftRight_eq_div_pow]
    congr 1
    omega
  rw [show (8 : Nat) = 4 + 4 from rfl, leBytes_add, List.reverse_append, be32, be32, le32, le32, hlow, hhigh]
  congr 2
  · refine leBytes_congr ?_
    show _ % 2 ^ 32 = _ / 2 ^ 32 % 2 ^ 32
    omega
  · refine leBytes_congr ?_
    show _ % 2 ^ 32 = _ % 2 ^ 32
    omega

theorem fillbuf_take {n : Nat} (h0 : 0 < n) (hn : n ≤ 64) : fillbuf.take n = 0x80 :: List.replicate (n - 1) 0 := by
  obtain ⟨m, rfl⟩ := Nat.exists_eq_add_of_lt h0
  rw [Nat.zero_add, fillbuf, List.take_succ_cons, List.take_replicate, Nat.add_sub_cancel, Nat.min_eq_left (by omega)]

/-- The count takes the bytes in the buffer. -/
theorem count_carry {t0 t1 : UInt32} {b c : Nat} (hb : b < 2 ^ 32) (h : t0.toNat + 2 ^ 32 * t1.toNat = c % 2 ^ 64) :
    (t0 + UInt32.ofNat b).toNat + 2 ^ 32 * (if (t0 + UInt32.ofNat b).toNat < b then t1 + 1 else t1).toNat =
      (c + b) % 2 ^ 64 := by
  have h0 : t0.toNat < 2 ^ 32 := t0.toNat_lt
  have h1 : t1.toNat < 2 ^ 32 := t1.toNat_lt
  have hlow : (t0 + UInt32.ofNat b).toNat = (t0.toNat + b) % 2 ^ 32 := by
    rw [UInt32.toNat_add, UInt32.toNat_ofNat', Nat.mod_eq_of_lt hb]
  have hnext : (t1 + 1).toNat = (t1.toNat + 1) % 2 ^ 32 := UInt32.toNat_add t1 1
  rw [hlow]
  by_cases hc : (t0.toNat + b) % 2 ^ 32 < b
  · rw [if_pos hc, hnext]
    omega
  · rw [if_neg hc]
    omega

/-- The last bytes: those in use, and the padding of the text. -/
theorem conclude_bytes {ctx : Sha256Ctx} {len b n k : Nat} {t0 t1 : UInt32} (hsize : ctx.buffer.length = 128)
    (hb : ctx.buflen = b) (hlen : 64 * k + b = len) (hn : n = if b < 56 then 56 else 120) (hb' : b ≤ 64)
    (ht : t0.toNat + 2 ^ 32 * t1.toNat = len % 2 ^ 64) :
    (setRange (setUint32 (setUint32 ctx.buffer n (SWAP ((t1 <<< 3) ||| (t0 >>> 29)))) (n + 4) (SWAP (t0 <<< 3))) b
      (fillbuf.take (n - b))).take (n + 8) = ctx.buffer.take b ++ padding len := by
  have hfill : fillbuf.take (n - b) = 0x80 :: List.replicate ((119 - len % 64) % 64) 0 := by
    have hzeros : n - b - 1 = (119 - len % 64) % 64 := by split at hn <;> omega
    rw [fillbuf_take (by split at hn <;> omega) (by split at hn <;> omega), hzeros]
  have hlast : b + (fillbuf.take (n - b)).length = n := by
    rw [hfill, List.length_cons, List.length_replicate]
    split at hn <;> omega
  rw [setUint32, setUint32, take_setRanges (by simp) (by simp) hlast (by split at hn <;> omega), le32_SWAP, le32_SWAP,
    be32_bits ht, hfill, padding, List.append_assoc]
  rfl

/-- **Finishing a context is padding its text.** -/
theorem sha256ConcludeCtx_state {ctx : Sha256Ctx} {text : List UInt8} (h : ctx.Holds text []) :
    ∃ k, (text ++ padding text.length).length = 64 * k ∧
      (sha256ConcludeCtx ctx).state = absorb 64 blockPass k initState (text ++ padding text.length) := by
  obtain ⟨k, hfed, hcount⟩ := h.absorbed
  rw [List.append_nil] at hfed
  have hused := h.used
  have hlen := hfed.length
  rw [List.length_take, h.size, Nat.min_eq_left (by omega)] at hlen
  unfold sha256ConcludeCtx
  extract_lets bytes size total0 total1 buffer₁ buffer₂ buffer₃
  have ht : total0.toNat + 2 ^ 32 * total1.toNat = text.length % 2 ^ 64 := by
    rw [← hlen]
    exact count_carry (by omega) hcount
  obtain ⟨n, hn⟩ : ∃ n, n = if bytes < 56 then 56 else 120 := ⟨_, rfl⟩
  have hat : 4 * (size - 2) = n ∧ 4 * (size - 1) = n + 4 ∧ (size - 2) * 4 = n ∧ size * 4 = n + 8 ∧ 64 ∣ n + 8 := by
    have hsz : size = if bytes < 56 then 16 else 32 := rfl
    split at hn <;> rename_i hlt
    · rw [if_pos hlt] at hsz
      omega
    · rw [if_neg hlt] at hsz
      omega
  obtain ⟨h2, h1, h2', hall, j, hj⟩ := hat
  have hlast : buffer₃.take (size * 4) = ctx.buffer.take bytes ++ padding text.length := by
    simp only [buffer₃, buffer₂, buffer₁, h2, h1, h2', hall]
    exact conclude_bytes h.size rfl hlen hn hused ht
  have hlong : (ctx.buffer.take bytes ++ padding text.length).length = 64 * j := by
    rw [List.length_append, List.length_take, h.size, padding_length, ← hj]
    have hbytes : bytes = ctx.buflen := rfl
    split at hn <;> omega
  have hstep := (hfed.append (padding text.length)).blocks (j := j) (Nat.le_of_eq hlong.symm)
  rw [← hlong, List.drop_length] at hstep
  obtain ⟨hwhole, htext⟩ := hstep.whole
  refine ⟨k + j, htext, ?_⟩
  rw [← hwhole, hlast]
  exact sha256ProcessBlock_state hlong _

theorem absorb_view {k : Nat} {bs : List UInt8} (h : bs.length = 64 * k) :
    view 0 (absorb 64 blockPass k initState bs) = absorb 64 (compress k256) k h256 bs := by
  rw [map_absorb (view 0) (P := fun s => s.length = 8) (fun s b _ => blockPass_length s b)
    (fun s b hs hb => blockPass_compress hs hb) k initState bs rfl (Nat.le_of_eq h.symm), initState_view]

theorem Sha256Ctx.Holds.finish {ctx : Sha256Ctx} {text : List UInt8} (h : ctx.Holds text []) :
    sha256FinishCtx ctx = sha256 text := by
  obtain ⟨k, hlen, hstate⟩ := sha256ConcludeCtx_state h
  have hdiv : (text ++ padding text.length).length / 64 = k := by omega
  rw [sha256FinishCtx, sha256ReadCtx_digest, hstate, absorb_view hlen, sha256, hashFrom, hdiv]

/-- **The digest of what was fed**, in any number of inputs, at any addresses. -/
theorem sha256_inputs (strictAlign : Bool) (fill : Vector UInt8 128) (inputs : List Input) :
    sha256FinishCtx (inputs.foldl (sha256ProcessBytes strictAlign) (sha256InitCtx fill)) =
      sha256 (inputs.flatMap Input.bytes) :=
  (foldl_sha256ProcessBytes strictAlign inputs (sha256InitCtx_holds fill)).finish

end Ws63Flash
