import Ws63Flash.AckRun
import Ws63Flash.BinAddr
/-!
# FileInfo — what block 0 tells the receiver

`strncpy` and `snprintf` share the 128 bytes of block 0, and neither is checked: a name and a length that need more are
sent all the same, cut somewhere.  The receiver can split the payload at its NULs exactly when both fit
(`ymodemXfer_info_iff`).
-/
namespace Ws63Flash

open Octets Proc Language

/-! ## The first bytes of a transfer -/

/-- What begins with `u`, as far as it goes. -/
def begins (u : List UInt8) : Language UInt8 := {w | u <+: w}

theorem begins_nonempty (u : List UInt8) : ∃ w, w ∈ begins u := ⟨u, List.prefix_rfl⟩

theorem mem_prefixes_begins {u w : List UInt8} (h : w ∈ prefixes (begins u)) : w <+: u ∨ u <+: w := by
  obtain ⟨x, hx, hw⟩ := h
  exact List.prefix_or_prefix_of_prefix hw hx

/-- One block at least, and then anything. -/
theorem plus_mul_begins {u w : List UInt8} (h : w ∈ plus (word u) * begins []) : w ∈ begins u := by
  obtain ⟨x, hx, y, _, rfl⟩ := Language.mem_mul.1 h
  obtain ⟨k, hk, rfl⟩ := mem_plus_word.1 hx
  obtain ⟨n, rfl⟩ := Nat.exists_eq_add_of_le' hk
  rw [List.replicate_succ, List.flatten_cons, List.append_assoc]
  exact List.prefix_append _ _

theorem emits_begins_nil (m : Tty Int) (good : Int → Prop) : Emits Ev.sent m good (begins []) :=
  fun _ _ => ⟨fun _ _ _ => List.nil_prefix, prefixes_of_mem List.nil_prefix⟩

/-- **A transfer begins with block 0**, and has sent all of it when it succeeds. -/
theorem ymodemXfer_begins (fuel len : Nat) (f : List UInt8) (fn : CStr) :
    Emits Ev.sent (ymodemXfer fuel f fn len) (fun r => r = EXIT_SUCCESS) (begins (blk0 fn len)) := by
  have hbad : ∀ r : Int, r < 0 → Refuses Ev.sent (Pure.pure r : Tty Int) (fun r => r = EXIT_SUCCESS) := by
    rintro r hr
    refine Refuses.pure ?_
    rintro rfl
    exact absurd hr (by decide)
  refine called_emits (Emits.silent_bind (sent_unseen.waitC_silent fuel) (fun ret => ?_) (begins_nonempty _))
  split
  · rename_i hr
    exact (hbad ret hr).emits (begins_nonempty _)
  · refine Emits.mono (L := plus (word (blk0 fn len)) * begins []) ?_ (fun w hw => plus_mul_begins hw)
    refine (ymodemBlkTimedXmit_emits fuel _).bind (fun r hr => ?_) (fun r hr => ?_) (begins_nonempty [])
    · rw [if_neg hr]
      exact emits_begins_nil _ _
    · rw [if_pos (Classical.not_not.1 hr)]
      exact hbad r (Classical.not_not.1 hr)

/-! ## The payload -/

theorem blk0_length (fn : CStr) (len : Nat) : (blk0 fn len).length = 133 := by
  obtain ⟨p, hp, heq⟩ := blk0_shape fn len
  rw [heq, sohBlk, List.length_append, List.length_append, hp, be16_length]
  rfl

/-- Block 0 is in what a run has sent, once that is long enough. -/
theorem begins_of_length {fn : CStr} {len : Nat} {w : List UInt8} (hw : w ∈ prefixes (begins (blk0 fn len)))
    (hlen : 133 ≤ w.length) : blk0 fn len <+: w := by
  rcases mem_prefixes_begins hw with hpart | hall
  · have heq : w = blk0 fn len := hpart.eq_of_length_le (by rw [blk0_length]; exact hlen)
    rw [heq]
  · exact hall

theorem slice_begins {fn : CStr} {len : Nat} {w : List UInt8} (hw : blk0 fn len <+: w) :
    slice w 3 128 = slice (blk0 fn len) 3 128 := by
  obtain ⟨rest, rfl⟩ := hw
  exact slice_append_left (by rw [blk0_length]; omega)

theorem slice_blk0 {fn : CStr} {len : Nat} (hfit : FitsBlk0 fn len) : slice (blk0 fn len) 3 128 = fileInfo fn len := by
  rw [blk0_eq hfit]
  exact slice_append_mid _ rfl (fileInfo_length hfit)

/-- The name, a NUL, the length as text, a NUL, and zero bytes. -/
def IsInfo (fn : CStr) (len : Nat) (p : List UInt8) : Prop :=
  ∃ n, p = fn.bytes ++ [0] ++ lenText len ++ [0] ++ List.replicate n 0

theorem fileInfo_isInfo {fn : CStr} {len : Nat} (hfit : FitsBlk0 fn len) : IsInfo fn len (fileInfo fn len) := by
  unfold FitsBlk0 CStr.strlen at hfit
  refine ⟨128 - (fn.bytes ++ [0] ++ lenText len).length - 1, ?_⟩
  have hlen : (fn.bytes ++ [0] ++ lenText len).length = fn.bytes.length + 1 + (lenText len).length := by
    rw [List.length_append, List.length_append]
    rfl
  rw [fileInfo, padTo, hlen, List.append_assoc _ [0] (List.replicate _ _), zero_append]
  congr 2
  omega

/-- Only what fits is 128 bytes long. -/
theorem IsInfo.fits {fn : CStr} {len : Nat} {p : List UInt8} (h : IsInfo fn len p) (hp : p.length = 128) :
    FitsBlk0 fn len := by
  obtain ⟨n, rfl⟩ := h
  simp only [List.length_append, List.length_cons, List.length_nil, List.length_replicate] at hp
  unfold FitsBlk0 CStr.strlen
  omega

/-- A receiver takes the bytes up to the first NUL, and those from there up to the second. -/
def splitInfo (p : List UInt8) : List UInt8 × List UInt8 :=
  let fn := p.takeWhile (fun b => b ≠ 0)
  (fn, (p.drop (fn.length + 1)).takeWhile (fun b => b ≠ 0))

/-- **The two parts are the name and the length.** -/
theorem IsInfo.split {fn : CStr} {len : Nat} {p : List UInt8} (h : IsInfo fn len p) :
    (splitInfo p).1 = fn.bytes ∧ (splitInfo p).2 = lenText len := by
  obtain ⟨n, rfl⟩ := h
  have hfirst : (fn.bytes ++ [0] ++ lenText len ++ [0] ++ List.replicate n 0).takeWhile (fun b => b ≠ 0) = fn.bytes := by
    simp only [List.append_assoc, List.cons_append, List.nil_append]
    exact takeWhile_nul fn.noNul _
  have hdrop : (fn.bytes ++ [0] ++ lenText len ++ [0] ++ List.replicate n 0).drop (fn.bytes.length + 1)
      = lenText len ++ 0 :: List.replicate n 0 := by
    rw [List.append_assoc, List.append_assoc]
    exact List.drop_left' (by simp)
  unfold splitInfo
  rw [hfirst]
  refine ⟨rfl, ?_⟩
  show List.takeWhile _ (List.drop _ _) = _
  rw [hdrop]
  exact takeWhile_nul (addrText_noNul true len) _

/-! ## What is sent -/

/-- Every run of `ymodem_xfer` for `fn` and `len` that sends block 0 sends them in it, as the receiver reads it. -/
def InfoSent (fn : CStr) (len : Nat) : Prop :=
  ∀ (fuel : Nat) (f : List UInt8) (d : Device) (l : List Ev), 133 ≤ (written (ymodemXfer fuel f fn len d l).2).length →
    let p := slice (written (ymodemXfer fuel f fn len d l).2) 3 128
    IsInfo fn len p ∧ (splitInfo p).1 = fn.bytes ∧ HexNumber (splitInfo p).2 len

/-- A run that succeeds. -/
theorem ymodemXfer_succeeds (fn : CStr) (len : Nat) :
    ∃ fuel f, (ymodemXfer fuel f fn len ackDevice []).1 = .ret EXIT_SUCCESS := by
  refine ⟨totalBlk len + 2, List.replicate len 0, ?_⟩
  have hack := ymodemXfer_ack (List.replicate len 0) fn (Nat.le_refl (totalBlk len + 2)) (l := []) rfl
  obtain ⟨r, hr, hret⟩ := hack
  rw [hr, hret, if_pos (fullBlks_of_le (by rw [List.length_replicate]))]

theorem InfoSent.fits {fn : CStr} {len : Nat} (h : InfoSent fn len) : FitsBlk0 fn len := by
  obtain ⟨fuel, f, hret⟩ := ymodemXfer_succeeds fn len
  have hblk : blk0 fn len <+: written (ymodemXfer fuel f fn len ackDevice []).2 :=
    (ymodemXfer_begins fuel len f fn ackDevice []).1 _ hret rfl
  have hlen := hblk.length_le
  rw [blk0_length] at hlen
  exact (h fuel f ackDevice [] hlen).1.fits (slice_length (by omega))

/-- **When the receiver learns the name and the length**: when both fit block 0. -/
theorem ymodemXfer_info_iff (fn : CStr) (len : Nat) :
    InfoSent fn len ↔ fn.strlen + 1 + (lenText len).length + 1 ≤ 128 := by
  constructor
  · exact InfoSent.fits
  · intro hfit fuel f d l hlen
    have hblk := begins_of_length (ymodemXfer_begins fuel len f fn d l).2 hlen
    dsimp only
    rw [slice_begins hblk, slice_blk0 hfit]
    have hinfo := fileInfo_isInfo hfit
    obtain ⟨hname, htext⟩ := hinfo.split
    refine ⟨hinfo, hname, ?_⟩
    rw [htext]
    exact hexNumber_addrText true len

/-- A name of 124 bytes. -/
def fileName124 : CStr := ⟨List.replicate 124 0x61, fun h => absurd (List.eq_of_mem_replicate h) (by decide)⟩

/-- **A name of 124 bytes** leaves no room for the length 1: the receiver reads `0x`. -/
theorem ymodemXfer_info_cut : ¬ InfoSent fileName124 1 ∧
    (splitInfo (slice (blk0 fileName124 1) 3 128)).2 = [0x30, 0x78] := by
  refine ⟨fun h => absurd h.fits (by decide +kernel), ?_⟩
  decide +kernel

end Ws63Flash
