import Ws63Flash.CrcDetect
import Ws63Flash.StopWait
import Ws63Flash.XferOwn
/-!
# NoisyLine — bits altered on the line

On the line of `Receiver` the damage to a block shows.  Here the line alters bits of a block, and the receiver makes of
it what it makes of any block.  Up to three bits of the payload and its check bytes, or bits of theirs in a row of
sixteen, and any bits that leave the block's number and its complement apart, leave no valid block (`Altered.bad`).
So a transfer over such a line goes into no state that it could not go into over the other (`ymodemXfer_noisy`).
-/
namespace Ws63Flash

open Octets Units Proc Coupling Language
open scoped Computability

/-! ## The checksum of a text and its checksum -/

theorem be16_eq (x : UInt16) : be16 x = [(x >>> 8).toUInt8, x.toUInt8] := by
  have hhigh : UInt8.ofNat (x.toNat / 256) = (x >>> 8).toUInt8 := by
    apply UInt8.toNat_inj.1
    rw [UInt8.toNat_ofNat', UInt16.toNat_toUInt8, UInt16.toNat_shiftRight, Nat.shiftRight_eq_div_pow]
    rfl
  have hlow : UInt8.ofNat x.toNat = x.toUInt8 := rfl
  rw [be16, leBytes, leBytes, leBytes, hhigh, hlow]
  rfl

theorem crc16Step_upper (crc : UInt16) : crc16Step crc (crc >>> 8).toUInt8 = crc <<< 8 := by
  rw [crc16Step, UInt8.xor_self]
  exact UInt16.xor_zero

theorem shift_upper (x : UInt16) : ((x <<< 8) >>> 8).toUInt8 = x.toUInt8 := by
  apply UInt8.toNat_inj.1
  have hx := x.toNat_lt
  rw [UInt16.toNat_toUInt8, UInt16.toNat_toUInt8, UInt16.toNat_shiftRight, UInt16.toNat_shiftLeft,
    Nat.shiftRight_eq_div_pow, Nat.shiftLeft_eq]
  show x.toNat * 256 % 65536 / 256 % 256 = x.toNat % 256
  omega

theorem shift_twice (x : UInt16) : (x <<< 8) <<< 8 = 0 := by
  apply UInt16.toNat_inj.1
  rw [UInt16.toNat_shiftLeft, UInt16.toNat_shiftLeft, Nat.shiftLeft_eq, Nat.shiftLeft_eq]
  show x.toNat * 256 % 65536 * 256 % 65536 = 0
  omega

/-- **A text followed by its checksum has the checksum 0.** -/
theorem crc16Xmodem_residue (p : List UInt8) : crc16Xmodem (p ++ be16 (crc16Xmodem p)) = 0 := by
  have happ : ∀ q, crc16Xmodem (p ++ q) = q.foldl crc16Step (crc16Xmodem p) := fun q => List.foldl_append
  have hlow : crc16Step (crc16Xmodem p <<< 8) (crc16Xmodem p).toUInt8 = (crc16Xmodem p <<< 8) <<< 8 := by
    have h := crc16Step_upper (crc16Xmodem p <<< 8)
    rwa [shift_upper] at h
  rw [happ, be16_eq, List.foldl_cons, List.foldl_cons, List.foldl_nil, crc16Step_upper, hlow, shift_twice]

/-! ## Altered units -/

/-- What the line may make of a unit. -/
inductive Altered (o : BitOrder) : List UInt8 → List UInt8 → Prop where
  /-- The number and its complement are left apart. -/
  | number {u u' : List UInt8} (h : u.length = u'.length) (hm : ∀ k ∈ altered o u u', 8 ≤ k) {j : Nat} (hj : j < 8)
    (hne : ¬ (8 + j ∈ altered o u u' ↔ 16 + j ∈ altered o u u')) : Altered o u u'
  | text {u u' : List UInt8} (h : u.length = u'.length) (hm : ∀ k ∈ altered o u u', 24 ≤ k) (hne : altered o u u' ≠ [])
    (hfew : Few (altered o u u')) : Altered o u u'
  /-- EOT comes as another byte, that no block starts with. -/
  | eot {b : UInt8} (h : blkSize [b] = 0) : Altered o [EOT] [b]

/-- A block that starts with `mark`. -/
def markedBlk (mark seq : UInt8) (p : List UInt8) : List UInt8 :=
  [mark, seq, 0xff - seq] ++ p ++ be16 (crc16Xmodem p)

/-- The units that `ymodem_xfer` sends. -/
def validBlk : Language UInt8 :=
  {u | u = [EOT] ∨ ∃ mark seq p, (mark = SOH ∧ p.length = 128 ∨ mark = STX ∧ p.length = 1024) ∧ u = markedBlk mark seq p}

theorem markedBlk_length (mark seq : UInt8) (p : List UInt8) : (markedBlk mark seq p).length = p.length + 5 := by
  rw [markedBlk, List.length_append, List.length_append, be16_length, List.length_cons, List.length_cons,
    List.length_singleton]
  omega

theorem validBlk_selfDelimiting {u : List UInt8} (h : u ∈ validBlk) : SelfDelimiting blkSize u := by
  rcases h with rfl | ⟨mark, seq, p, ⟨rfl, hp⟩ | ⟨rfl, hp⟩, rfl⟩
  · exact eot_selfDelimiting
  · exact sohBlk_selfDelimiting hp
  · exact stxBlk_selfDelimiting hp

theorem complement_xor (a b : UInt8) : (0xff - a) ^^^ (0xff - b) = a ^^^ b := by
  have hall : ∀ a : UInt8, 0xff - a = 0xff ^^^ a := by
    have hfin : ∀ i : Fin 256, 0xff - UInt8.ofFin i = 0xff ^^^ UInt8.ofFin i := by decide +kernel
    exact fun a => hfin a.toFin
  rw [hall a, hall b, UInt8.xor_comm 0xff a, UInt8.xor_assoc, ← UInt8.xor_assoc 0xff, UInt8.xor_self, UInt8.zero_xor]

section

variable {o : BitOrder} {m m' seq seq' : UInt8} {p p' : List UInt8}

/-- Two numbers with their complements differ alike in both. -/
theorem number_alike (h : p.length = p'.length) {j : Nat} (hj : j < 8) :
    8 + j ∈ altered o (markedBlk m seq p) (markedBlk m' seq' p') ↔
      16 + j ∈ altered o (markedBlk m seq p) (markedBlk m' seq' p') := by
  have hlen : (markedBlk m seq p).length = (markedBlk m' seq' p').length := by
    rw [markedBlk_length, markedBlk_length, h]
  have hdiff : diff (markedBlk m seq p) (markedBlk m' seq' p')
      = (m ^^^ m') :: (seq ^^^ seq') :: (seq ^^^ seq') :: diff (p ++ be16 (crc16Xmodem p)) (p' ++ be16 (crc16Xmodem p')) := by
    have hcons : ∀ (m s : UInt8) (p : List UInt8),
        markedBlk m s p = m :: s :: (0xff - s) :: (p ++ be16 (crc16Xmodem p)) := fun m s p => List.append_assoc _ _ _
    rw [hcons, hcons, diff, List.zipWith_cons_cons, List.zipWith_cons_cons, List.zipWith_cons_cons, complement_xor, diff]
  rw [mem_altered hlen, mem_altered hlen, hdiff, show 8 + j = 8 * 1 + j from rfl, show 16 + j = 8 * 2 + j from rfl,
    getElem?_fileBits _ _ _ _ hj, getElem?_fileBits _ _ _ _ hj]
  rfl

theorem markedBlk_slice : slice (markedBlk m seq p) 3 (p.length + 2) = p ++ be16 (crc16Xmodem p) := by
  have h := slice_append_mid (a := [m, seq, 0xff - seq]) (b := p ++ be16 (crc16Xmodem p)) (i := 3) (n := p.length + 2) []
    rfl (by rw [List.length_append, be16_length])
  rwa [List.append_nil, ← List.append_assoc] at h

/-- Two blocks that differ behind their numbers differ in more than a few bits. -/
theorem text_apart (h : p.length = p'.length) (hp : p.length ≤ 1024)
    (hm : ∀ k ∈ altered o (markedBlk m seq p) (markedBlk m' seq' p'), 24 ≤ k)
    (hne : altered o (markedBlk m seq p) (markedBlk m' seq' p') ≠ []) :
    ¬ Few (altered o (markedBlk m seq p) (markedBlk m' seq' p')) := by
  intro hfew
  have hlen : (markedBlk m seq p).length = (markedBlk m' seq' p').length := by
    rw [markedBlk_length, markedBlk_length, h]
  have hcome : slice (markedBlk m' seq' p') 3 (p.length + 2) = p' ++ be16 (crc16Xmodem p') := by
    rw [h]
    exact markedBlk_slice
  have hfew' := Few.slice hlen 3 (p.length + 2) hfew
  obtain ⟨k, hk⟩ := List.exists_mem_of_ne_nil _ hne
  have hlow := hm k hk
  have hhigh := List.mem_range.1 (List.mem_filter.1 hk).1
  rw [markedBlk_length] at hhigh
  have hin : k - 24 ∈ altered o (slice (markedBlk m seq p) 3 (p.length + 2))
      (slice (markedBlk m' seq' p') 3 (p.length + 2)) := by
    refine (mem_altered_slice hlen).2 ⟨by omega, ?_⟩
    rwa [show 8 * 3 + (k - 24) = k by omega]
  rw [markedBlk_slice, hcome] at hfew' hin
  refine crc16Xmodem_detects o ?_ ?_ (List.ne_nil_of_mem hin) hfew' (by rw [crc16Xmodem_residue, crc16Xmodem_residue])
  · rw [List.length_append, List.length_append, be16_length, be16_length, h]
  · rw [List.length_append, be16_length]
    omega

end

/-- An altered unit is as long as it was. -/
theorem Altered.length {o : BitOrder} {u u' : List UInt8} (h : Altered o u u') : u.length = u'.length := by
  cases h with
  | number h _ _ _ => exact h
  | text h _ _ _   => exact h
  | eot _          => rfl

/-- EOT has neither a number nor a text. -/
theorem Altered.of_eot {o : BitOrder} {u' : List UInt8} (h : Altered o [EOT] u') : ∃ b, u' = [b] ∧ blkSize [b] = 0 := by
  have hlow : ∀ k ∈ altered o [EOT] u', k < 8 := fun k hk => List.mem_range.1 (List.mem_filter.1 hk).1
  cases h with
  | number _ hm _ hne =>
    have hnone : ∀ k, k ∉ altered o [EOT] u' := fun k hk => absurd (hm k hk) (Nat.not_le_of_lt (hlow k hk))
    exact absurd ⟨fun h => absurd h (hnone _), fun h => absurd h (hnone _)⟩ hne
  | text _ hm hne _ =>
    obtain ⟨k, hk⟩ := List.exists_mem_of_ne_nil _ hne
    have := hm k hk
    have := hlow k hk
    omega
  | eot h => exact ⟨_, rfl, h⟩

/-- **An altered unit is no block**, and no EOT. -/
theorem Altered.bad {o : BitOrder} {u u' : List UInt8} (h : Altered o u u') (hu : u ∈ validBlk) :
    (∀ seq, ¬ Carries u' seq) ∧ u' ≠ [EOT] := by
  have hlen := h.length
  rcases hu with rfl | ⟨mark, seq, p, hp, rfl⟩
  · obtain ⟨b, rfl, hb⟩ := h.of_eot
    refine ⟨fun seq hc => ?_, fun he => ?_⟩
    · obtain ⟨mark, p, _, he⟩ := hc
      exact nomatch (List.cons.inj he).2
    · obtain ⟨rfl, _⟩ := List.cons.inj he
      exact absurd hb (by decide)
  · rw [markedBlk_length] at hlen
    refine ⟨fun seq' hc => ?_, fun he => ?_⟩
    · obtain ⟨mark', p', _, rfl⟩ := hc
      rw [← markedBlk] at h hlen
      rw [markedBlk_length] at hlen
      have hpp : p.length = p'.length := by omega
      have hle : p.length ≤ 1024 := by
        rcases hp with ⟨_, hp⟩ | ⟨_, hp⟩ <;> omega
      cases h with
      | number _ _ hj hne  => exact hne (number_alike hpp hj)
      | text _ hm hne hfew => exact text_apart hpp hle hm hne hfew
    · rw [he, List.length_singleton] at hlen
      omega

/-! ## Every unit can be altered -/

theorem fileBits_zeros (o : BitOrder) : ∀ n, fileBits o (List.replicate n 0) = List.replicate (8 * n) false
  | 0     => rfl
  | n + 1 => by
    have hzero : o.bits 0 = List.replicate 8 false := by cases o <;> decide
    rw [List.replicate_succ, fileBits_cons, fileBits_zeros o n, hzero, List.replicate_append_replicate]
    congr 1
    omega

theorem diff_self (f : List UInt8) : diff f f = List.replicate f.length 0 := by
  rw [diff, List.zipWith_self]
  exact List.map_eq_replicate_iff.2 (fun b _ => UInt8.xor_self)

/-- The altered bits of one byte. -/
theorem altered_byte (o : BitOrder) (pre post : List UInt8) (b x : UInt8) (hx : true ∈ o.bits x) :
    (∀ k ∈ altered o (pre ++ b :: post) (pre ++ (b ^^^ x) :: post), 8 * pre.length ≤ k ∧ k < 8 * pre.length + 8) ∧
      altered o (pre ++ b :: post) (pre ++ (b ^^^ x) :: post) ≠ [] := by
  have hlen : (pre ++ b :: post).length = (pre ++ (b ^^^ x) :: post).length := by simp
  have hbits : fileBits o (diff (pre ++ b :: post) (pre ++ (b ^^^ x) :: post))
      = List.replicate (8 * pre.length) false ++ (o.bits x ++ List.replicate (8 * post.length) false) := by
    have hxor : b ^^^ (b ^^^ x) = x := by rw [← UInt8.xor_assoc, UInt8.xor_self, UInt8.zero_xor]
    have happ : diff (pre ++ b :: post) (pre ++ (b ^^^ x) :: post) = diff pre pre ++ x :: diff post post := by
      rw [diff, List.zipWith_append rfl, List.zipWith_cons_cons, hxor]
      rfl
    rw [happ, diff_self, diff_self, fileBits, List.flatMap_append, List.flatMap_cons]
    exact congrArg₂ _ (fileBits_zeros o _) (congrArg _ (fileBits_zeros o _))
  constructor
  · intro k hk
    have hset := (mem_altered hlen).1 hk
    rw [hbits] at hset
    rcases Nat.lt_or_ge k (8 * pre.length) with hlt | hge
    · rw [List.getElem?_append_left (by rw [List.length_replicate]; exact hlt), List.getElem?_replicate, if_pos hlt] at hset
      cases hset
    · refine ⟨hge, Nat.lt_of_not_le (fun hle => ?_)⟩
      rw [List.getElem?_append_right (by rw [List.length_replicate]; exact hge), List.length_replicate,
        List.getElem?_append_right (by rw [BitOrder.bits_length]; omega), List.getElem?_replicate] at hset
      split at hset
      · cases hset
      · cases hset
  · obtain ⟨j, hj⟩ := List.getElem?_of_mem hx
    have hj8 : j < (o.bits x).length := (List.getElem?_eq_some_iff.1 hj).1
    refine List.ne_nil_of_mem (a := 8 * pre.length + j) ((mem_altered hlen).2 ?_)
    rw [hbits, List.getElem?_append_right (by rw [List.length_replicate]; omega), List.length_replicate,
      Nat.add_sub_cancel_left, List.getElem?_append_left hj8, hj]

/-- A bit of the payload's first byte is altered, or EOT comes as 0. -/
theorem exists_altered (o : BitOrder) {u : List UInt8} (hu : u ∈ validBlk) : ∃ u', Altered o u u' := by
  rcases hu with rfl | ⟨mark, seq, p, hp, rfl⟩
  · exact ⟨[0], .eot rfl⟩
  · cases p with
    | nil => rcases hp with ⟨_, hp⟩ | ⟨_, hp⟩ <;> cases hp
    | cons b p =>
      have hx : true ∈ o.bits 0x80 := by cases o <;> decide
      obtain ⟨hrow, hne⟩ := altered_byte o [mark, seq, 0xff - seq] (p ++ be16 (crc16Xmodem (b :: p))) b 0x80 hx
      exact ⟨_, .text (by simp [markedBlk]) (fun k hk => (hrow k hk).1) hne
        (Or.inl ⟨24, fun k hk => ⟨(hrow k hk).1, Nat.lt_of_lt_of_le (hrow k hk).2 (show 32 ≤ 24 + 16 by decide)⟩⟩)⟩

/-! ## The line -/

/-- What the receiver makes of an altered unit. -/
theorem Altered.takes {o : BitOrder} {u u' ans : List UInt8} {r r' : Rx} (h : Altered o u u') (hu : u ∈ validBlk)
    (ht : r.Takes u' r' ans) : r' = r ∧ ans = [NAK] := by
  obtain ⟨hno, hne⟩ := h.bad hu
  cases ht with
  | store hc       => exact absurd hc (hno _)
  | again hc _     => exact absurd hc (hno _)
  | eot            => exact absurd rfl hne
  | bad _ _        => exact ⟨rfl, rfl⟩
  | other hc _ _ _ => exact absurd hc (hno _)

/-- What happens without the sender: the line may alter a unit, and the receiver takes what comes. -/
inductive Sys.Noisy (o : BitOrder) : Sys → Sys → Prop where
  | deliver {u fwd bwd ans : List UInt8} {r r' : Rx} (hu : SelfDelimiting blkSize u) (h : r.Takes u r' ans) :
    Noisy o ⟨u ++ fwd, bwd, r⟩ ⟨fwd, bwd ++ ans, r'⟩
  | noise {u u' fwd bwd ans : List UInt8} {r r' : Rx} (hu : SelfDelimiting blkSize u) (ha : Altered o u u')
    (h : r.Takes u' r' ans) : Noisy o ⟨u ++ fwd, bwd, r⟩ ⟨fwd, bwd ++ ans, r'⟩
  | stray {fwd a c : List UInt8} {r : Rx} (b : UInt8) (hA : b ≠ ACK) (hN : b ≠ NAK) :
    Noisy o ⟨fwd, a ++ c, r⟩ ⟨fwd, a ++ b :: c, r⟩

/-- The states in which the noisy line and the receiver may be once the sender has gone through the events `e`. -/
def ReachesNoisy (o : BitOrder) (e : List Ev) (s : Sys) : Prop := Coupled (Sys.Noisy o) Sys.Sees Sys.start e s

/-- A unit at the front of valid ones, the last of them perhaps cut short, is the first of them. -/
theorem front_validBlk {u rest : List UInt8} (hu : SelfDelimiting blkSize u) (h : u ++ rest ∈ prefixes validBlk∗) :
    u ∈ validBlk ∧ rest ∈ prefixes validBlk∗ := by
  obtain ⟨w, hw, y, hy⟩ := h
  obtain ⟨us, rfl, hus⟩ := mem_kstar.1 hw
  rw [List.append_assoc] at hy
  obtain ⟨us', rfl, hrest⟩ := front_unit hu (fun v hv => validBlk_selfDelimiting (hus v hv)) hy
  exact ⟨hus u List.mem_cons_self,
    us'.flatten, join_mem_kstar (fun v hv => hus v (List.mem_cons_of_mem _ hv)), y, hrest⟩

theorem Sys.Noisy.step {o : BitOrder} {s t : Sys} (h : Sys.Noisy o s t) {w : List UInt8}
    (hs : s.fwd ++ w ∈ prefixes validBlk∗) : Sys.Step s t ∧ t.fwd ++ w ∈ prefixes validBlk∗ := by
  cases h with
  | deliver hu ht =>
    rw [List.append_assoc] at hs
    exact ⟨.deliver hu ht, (front_validBlk hu hs).2⟩
  | noise hu ha ht =>
    rw [List.append_assoc] at hs
    obtain ⟨hv, hrest⟩ := front_validBlk hu hs
    obtain ⟨rfl, rfl⟩ := ha.takes hv ht
    exact ⟨.damage hu, hrest⟩
  | stray b hA hN => exact ⟨.stray b hA hN, hs⟩

theorem Sys.Step.noisy (o : BitOrder) {s t : Sys} (h : Sys.Step s t) {w : List UInt8}
    (hs : s.fwd ++ w ∈ prefixes validBlk∗) : Sys.Noisy o s t ∧ t.fwd ++ w ∈ prefixes validBlk∗ := by
  cases h with
  | deliver hu ht =>
    rw [List.append_assoc] at hs
    exact ⟨.deliver hu ht, (front_validBlk hu hs).2⟩
  | damage hu =>
    rw [List.append_assoc] at hs
    obtain ⟨hv, hrest⟩ := front_validBlk hu hs
    obtain ⟨u', ha⟩ := exists_altered o hv
    obtain ⟨hno, hne⟩ := ha.bad hv
    exact ⟨.noise hu ha (.bad hno hne), hrest⟩
  | stray b hA hN => exact ⟨.stray b hA hN, hs⟩

theorem validBlk_event {x : Ev} {e : List Ev} {s t : Sys} (hx : Sys.Sees x s t)
    (hs : s.fwd ++ written (x :: e) ∈ prefixes validBlk∗) : t.fwd ++ written e ∈ prefixes validBlk∗ := by
  cases hx with
  | mk =>
    rw [written_cons, ← List.append_assoc] at hs
    exact hs

/-- With a sender of valid blocks, a line that alters bits and one that shows its damage go the same ways. -/
theorem reachesNoisy_iff (o : BitOrder) {e : List Ev} {s : Sys} (hw : written e ∈ prefixes validBlk∗) :
    ReachesNoisy o e s ↔ Reaches e s :=
  ⟨fun h => Coupled.refine (fun e s => s.fwd ++ written e ∈ prefixes validBlk∗) (fun _ _ _ hst hs => hst.step hs)
      (fun _ _ _ _ hx hs => validBlk_event hx hs) h hw,
    fun h => Coupled.refine (fun e s => s.fwd ++ written e ∈ prefixes validBlk∗) (fun _ _ _ hst hs => hst.noisy o hs)
      (fun _ _ _ _ hx hs => validBlk_event hx hs) h hw⟩

theorem ymodemXfer_emits_valid (fuel len : Nat) (f : List UInt8) (fn : CStr) :
    Emits Ev.sent (ymodemXfer fuel f fn len) (fun r => ¬ r < 0) validBlk∗ := by
  refine ymodemXfer_emits_in ?_ ?_ (Or.inl rfl) fuel len f fn
  · exact fun seq p hp => Or.inr ⟨SOH, seq, p, Or.inl ⟨rfl, hp⟩, rfl⟩
  · exact fun seq p hp => Or.inr ⟨STX, seq, p, Or.inr ⟨rfl, hp⟩, rfl⟩

/-- **A transfer over a line that alters bits**, whatever comes back on it: it and its receiver go into the states into
which they may go when every damage shows, and into no other. -/
theorem ymodemXfer_noisy (o : BitOrder) (d : Device) (l : List Ev) (fuel len : Nat) (f : List UInt8) (fn : CStr) (s : Sys) :
    ReachesNoisy o (ymodemXfer fuel f fn len d l).2 s ↔ Reaches (ymodemXfer fuel f fn len d l).2 s :=
  reachesNoisy_iff o (ymodemXfer_emits_valid fuel len f fn d l).2

/-! ## The file -/

/-- What the receiver makes of the data blocks it has stored: a file of `len` bytes. -/
def Rx.file (r : Rx) (len : Nat) : List UInt8 := (r.data.flatMap (fun b => slice b 3 1024)).take len

theorem payloads_file (f : List UInt8) {len : Nat} (hmax : len ≤ xferMax) :
    (payloads (f.take len) (totalBlk len)).take len = padTo len (f.take len) := by
  have hlen : (f.take len).length ≤ len := by
    rw [List.length_take]
    exact Nat.min_le_left _ _
  have hmul : len ≤ 1024 * totalBlk len := totalBlk_mul hmax
  rw [payloads_eq (Nat.le_trans hlen hmul), padTo, padTo, List.take_append, List.take_of_length_le hlen,
    List.take_replicate]
  congr 2
  omega

/-- **The file arrives** over a line that alters bits: when the transfer succeeds and no wait before the last data
block's ended on its timeout, the receiver has the `len` bytes, zeros standing for those that the stream did not have. -/
theorem ymodemXfer_noisy_file (o : BitOrder) (d : Device) (l : List Ev) (fuel len : Nat) (f : List UInt8) (fn : CStr)
    (e : List Ev) (hlen : len ≤ 2 ^ 41 - 2048) (hrun : ymodemXfer fuel f fn len d l = (.ret EXIT_SUCCESS, e))
    (ht : Timely ((len + 1023) / 1024) e) (s : Sys) (hs : ReachesNoisy o e s) :
    s.rx.file len = padTo len (f.take len) := by
  rw [← totalBlk_eq hlen] at ht
  have hemits := (ymodemXfer_emits_valid fuel len f fn d l).2
  have hlog := ymodemXfer_log fuel len f fn d l
  unfold Sat at hlog
  rw [hrun] at hemits hlog
  obtain ⟨e₁, e₂, e₃, rfl, hto, heot, hend⟩ := hlog rfl
  have hreach := (reachesNoisy_iff o hemits).1 hs
  rw [List.append_assoc, List.append_assoc] at hreach ht
  obtain ⟨m, h1, h2⟩ := hreach.split
  obtain ⟨hcopies, hrx⟩ := hto.last ht.left h1
  have hdata := Sys.Tail.run (blkAt_selfDelimiting fn len _ _) (takes_blkAt_again fn len _ _) (hcopies.tail hrx heot hend) h2
  rw [Rx.file, hdata, awaiting_data]
  exact payloads_file f hlen

/-- Once `n` ACKs have been taken the waits may end on their timeouts. -/
theorem Timely.of_acked {n : Nat} {a b : List Ev} (ha : (EAGAIN.code : Int) ∉ waits a) (hn : n ≤ acked a) :
    Timely n (a ++ b) := by
  intro e₁ t e₂ he
  have hsplit : a ++ b = (e₁ ++ [.time t]) ++ (.ret .ymodemWaitAck EAGAIN.code :: e₂) := by
    rw [he, List.append_assoc]
    rfl
  have htime : acked [.time t] = 0 := rfl
  rcases List.append_eq_append_iff.1 hsplit with ⟨c, hc, _⟩ | ⟨c, hc, hd⟩
  · have hcount := congrArg acked hc
    rw [acked_append, acked_append, htime] at hcount
    omega
  · cases c with
    | nil =>
      have hcount := congrArg acked hc
      rw [List.append_nil, acked_append, htime] at hcount
      omega
    | cons x c =>
      obtain ⟨rfl, _⟩ := List.cons.inj hd
      rw [hc, waits_append] at ha
      exact absurd (List.mem_append_right _ List.mem_cons_self) ha

/-- A session of one byte in which EOT is altered on its way, and sent again on the NAK. -/
def resentLog : List Ev :=
  oneByteLog (sentOnce 0 (blkAt oneByte 1 [0x41] 0)) (sentOnce 0 (blkAt oneByte 1 [0x41] 1)) (eotTwice 0)
    (sentOnce 0 blkEnd)

theorem ymodemXfer_noisy_file_sample : ∃ s, ReachesNoisy .msbFirst resentLog s ∧ s.rx.file 1 = [0x41] := by
  have hrun := oneByteLog_run (sentOnce_plays 0 (blkAt_ne_nil _ _ _ 0) 0) (sentOnce_plays 0 (blkAt_ne_nil _ _ _ 1) 0)
    (eotTwice_plays 0 0) (sentOnce_plays 0 blkEnd_selfDelimiting.1 0)
  have h₀ : Sys.start.Goes (sentOnce 0 (blkAt oneByte 1 [0x41] 0)) ⟨[], [], Rx.awaiting oneByte 1 [0x41] 1⟩ :=
    sentOnce_goes (write_taken (blkAt_selfDelimiting _ _ _ 0) (takes_blkAt _ _ _ 0)) 0
  have h₁ : Sys.Goes ⟨[], [], Rx.awaiting oneByte 1 [0x41] 1⟩ (sentOnce 0 (blkAt oneByte 1 [0x41] 1))
      ⟨[], [], Rx.awaiting oneByte 1 [0x41] 2⟩ :=
    sentOnce_goes (write_taken (blkAt_selfDelimiting _ _ _ 1) (takes_blkAt _ _ _ 1)) 0
  have h₂ : Sys.Goes ⟨[], [], Rx.awaiting oneByte 1 [0x41] 2⟩ (eotTwice 0)
      ⟨[], [], ⟨0, (Rx.awaiting oneByte 1 [0x41] 2).stored⟩⟩ :=
    ((write_damaged eot_selfDelimiting).trans (nakWait_goes 0)).trans (eotOnce_goes 0)
  have hend : (⟨0, (Rx.awaiting oneByte 1 [0x41] 2).stored⟩ : Rx).Takes blkEnd _ [ACK] :=
    .store (blkEnd_eq ▸ sohBlk_carries 0 _)
  have h₃ : Sys.Goes ⟨[], [], ⟨0, (Rx.awaiting oneByte 1 [0x41] 2).stored⟩⟩ (sentOnce 0 blkEnd) ⟨[], [], _⟩ :=
    sentOnce_goes (write_taken blkEnd_selfDelimiting hend) 0
  have hreach := oneByteLog_reaches rfl (h₀.trans (h₁.trans (h₂.trans h₃)))
  have hemits := (ymodemXfer_emits_valid 2 1 [0x41] oneByte (replay resentLog) []).2
  have hlog : ymodemXfer 2 [0x41] oneByte 1 (replay resentLog) [] = (.ret EXIT_SUCCESS, resentLog) := hrun
  rw [hlog] at hemits
  have hnoisy := (reachesNoisy_iff .msbFirst hemits).2 hreach
  have htimely : Timely ((1 + 1023) / 1024) resentLog := by
    refine Timely.of_acked (a := [.time 0, .read (.data [C])] ++ (sentOnce 0 (blkAt oneByte 1 [0x41] 0) ++
      sentOnce 0 (blkAt oneByte 1 [0x41] 1))) (b := eotTwice 0 ++ sentOnce 0 blkEnd ++ [.ret .ymodemXfer EXIT_SUCCESS])
      ?_ ?_ <;> decide
  exact ⟨_, hnoisy, ymodemXfer_noisy_file .msbFirst (replay resentLog) [] 2 1 [0x41] oneByte resentLog (by decide) hlog
    htimely _ hnoisy⟩

end Ws63Flash
