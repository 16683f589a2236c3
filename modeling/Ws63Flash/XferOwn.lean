import Ws63Flash.AckRun
import Ws63Flash.Replay
/-!
# XferOwn — is what was transferred the file's own?

`ymodem_xfer` looks for a shortage before every block but the last, which it fills up with zero bytes, and it sends no
block at all for a length whose blocks an `int` does not count (`ymodemXfer_own_iff`).
-/
namespace Ws63Flash

open Octets Proc

/-- The payloads of the data blocks up to `n`. -/
def payloads (data : List UInt8) (n : Nat) : List UInt8 := (dataBlksTo data n).flatMap (fun b => slice b 3 1024)

theorem payloads_eq {data : List UInt8} {n : Nat} (h : data.length ≤ 1024 * n) :
    payloads data n = padTo (1024 * n) data := by
  rw [payloads, dataBlksTo, List.flatMap_map, ← flatMap_chunks 1024 n data h]
  congr 1
  funext i
  exact slice_append_mid _ rfl (chunk_length data i)

/-- Whenever a transfer of `len` bytes succeeds, the stream had them, and they are the first `len` bytes of the payloads
that were acknowledged. -/
def XfersOwn (f : List UInt8) (fn : CStr) (len : Nat) : Prop :=
  ∀ (d : Device) (l : List Ev) (fuel : Nat), (ymodemXfer fuel f fn len d l).1 = .ret EXIT_SUCCESS →
    len ≤ f.length ∧ (∃ e, e <+: (ymodemXfer fuel f fn len d l).2 ∧ AckedTo fn len (f.take len) (totalBlk len) e) ∧
      (payloads (f.take len) (totalBlk len)).take len = f.take len

theorem xferData_full (fuel len : Nat) (f : List UInt8) :
    Returns (xferData fuel len f) (fun r => r = 0 → FullBlks f len) := by
  intro d l
  rw [xferData_eq]
  refine Sat.loop (fun s _ => ∃ i, i ≤ totalBlk len ∧ s.1 = i + 1 ∧ (i < totalBlk len → s.2 = f.drop (1024 * i)) ∧
    ∀ j, j < totalBlk len → j ≤ i → 1024 * j ≤ f.length) ?_ (fun _ _ _ _ hb => nomatch hb) fuel (1, f)
    ⟨0, Nat.zero_le _, rfl, fun _ => rfl, fun j _ hj => by omega⟩
  rintro ⟨n, f'⟩ e ⟨i, hi, rfl, hf', hfull⟩
  dsimp only at hf' ⊢
  by_cases hlt : i + 1 < totalBlk len + 1
  · rw [if_pos hlt, hf' (by omega)]
    generalize hrlen : (if i + 1 = totalBlk len then lastBlk len else 1024) = rlen
    by_cases hshort : i + 1 < totalBlk len ∧ ((f.drop (1024 * i)).take rlen).length < 1024
    · rw [if_pos hshort]
      refine Sat.pure (fun r hr h0 => ?_)
      cases hr
      exact absurd h0 (by decide)
    · rw [if_neg hshort]
      refine Sat.bind (Q := fun _ _ => True) trivial (fun ret e' _ => ?_) (fun _ _ _ b hb => nomatch hb)
      by_cases hret : ret < 0
      · rw [if_pos hret]
        refine Sat.pure (fun r hr h0 => ?_)
        cases hr
        exact absurd h0 (Int.ne_of_lt hret)
      · rw [if_neg hret]
        refine Sat.pure ⟨i + 1, by omega, rfl, fun hn => ?_, fun j hj hji => ?_⟩
        · rw [← hrlen, if_neg (Nat.ne_of_lt hn), List.drop_drop, Nat.mul_add_one]
        · rcases Nat.lt_or_eq_of_le hji with hlt | rfl
          · exact hfull j hj (by omega)
          · rw [← hrlen, if_neg (Nat.ne_of_lt hj), List.length_take, List.length_drop] at hshort
            omega
  · rw [if_neg hlt]
    refine Sat.pure (fun r _ _ => ?_)
    unfold FullBlks
    rcases Nat.eq_zero_or_pos (totalBlk len) with h0 | hpos
    · rw [h0]
      exact Nat.zero_le _
    · exact hfull _ (by omega) (by omega)

/-- **A transfer that succeeds** had every block but the last in full. -/
theorem ymodemXfer_full (fuel : Nat) (f : List UInt8) (fn : CStr) (len : Nat) :
    Returns (ymodemXfer fuel f fn len) (fun r => r = EXIT_SUCCESS → FullBlks f len) := by
  have hneg : ∀ {r : Int}, r < 0 → Returns (pure r : Tty Int) (fun r => r = EXIT_SUCCESS → FullBlks f len) := fun hr =>
    Returns.pure (fun h => absurd h (Int.ne_of_lt hr))
  refine Returns.bind (P := fun r => r = EXIT_SUCCESS → FullBlks f len) ?_ (fun r hr =>
    (Returns.any _).bind (fun _ _ => Returns.pure hr))
  refine (Returns.any _).bind (fun r _ => ?_)
  by_cases hr : r < 0
  · rw [if_pos hr]
    exact hneg hr
  rw [if_neg hr]
  refine (Returns.any _).bind (fun r _ => ?_)
  by_cases hr : r < 0
  · rw [if_pos hr]
    exact hneg hr
  rw [if_neg hr]
  refine (xferData_full fuel len f).bind (fun r hfull => ?_)
  by_cases hr : r ≠ 0
  · rw [if_pos hr]
    exact Returns.pure (fun h => absurd h hr)
  rw [if_neg hr]
  have hok : ∀ r : Int, Returns (pure r : Tty Int) (fun r => r = EXIT_SUCCESS → FullBlks f len) := fun r =>
    Returns.pure (fun _ => hfull (Classical.not_not.1 hr))
  refine (Returns.any _).bind (fun r _ => ?_)
  by_cases hr : r < 0
  · rw [if_pos hr]
    exact hok r
  rw [if_neg hr]
  refine (Returns.any _).bind (fun r _ => ?_)
  by_cases hr : r < 0
  · rw [if_pos hr]
    exact hok r
  rw [if_neg hr]
  exact hok EXIT_SUCCESS

/-- A transfer whose full blocks are there can succeed. -/
theorem XfersOwn.own {f : List UInt8} {fn : CStr} {len : Nat} (h : XfersOwn f fn len) (hfull : FullBlks f len) :
    len ≤ f.length ∧ (payloads (f.take len) (totalBlk len)).take len = f.take len := by
  obtain ⟨r, hret, hr⟩ := ymodemXfer_ack f fn (Nat.le_refl (totalBlk len + 2)) (l := []) rfl
  rw [hr, if_pos hfull] at hret
  exact ⟨(h ackDevice [] _ hret).1, (h ackDevice [] _ hret).2.2⟩

/-- A length whose blocks an `int` does not count is sent without any. -/
theorem XfersOwn.le_xferMax {f : List UInt8} {fn : CStr} {len : Nat} (h : XfersOwn f fn len) : len ≤ xferMax := by
  by_contra hmax
  have hnone := totalBlk_past (Nat.lt_of_not_le hmax)
  have hfull : FullBlks f len := by
    unfold FullBlks
    rw [hnone]
    exact Nat.zero_le _
  obtain ⟨hlen, hown⟩ := h.own hfull
  have hsent : (payloads (f.take len) (totalBlk len)).take len = [] := by
    rw [hnone]
    exact List.take_nil
  have htake : (f.take len).length = len := List.length_take_of_le hlen
  rw [← hown, hsent] at htake
  exact hmax (by rw [← htake]; exact Nat.zero_le _)

/-- **When a transfer that succeeds has sent the file's own bytes**: when an `int` counts its blocks, and the file has as
many bytes as it says, or ends before the last block. -/
theorem ymodemXfer_own_iff (f : List UInt8) (fn : CStr) (len : Nat) :
    XfersOwn f fn len ↔ len ≤ 2 ^ 41 - 2048 ∧ (FullBlks f len → len ≤ f.length) := by
  constructor
  · intro h
    exact ⟨h.le_xferMax, fun hfull => (h.own hfull).1⟩
  · rintro ⟨hmax, h⟩ d l fuel hret
    have hlen : len ≤ f.length := h (ymodemXfer_full fuel f fn len d l _ hret rfl)
    obtain ⟨e₁, e₂, e₃, he, hack, _, _⟩ := ymodemXfer_log fuel len f fn d l hret
    refine ⟨hlen, ⟨e₁, ?_, hack⟩, ?_⟩
    · rw [he, List.append_assoc, List.append_assoc]
      exact List.prefix_append _ _
    · have htake : (f.take len).length = len := List.length_take_of_le hlen
      have hblks : len ≤ 1024 * totalBlk len := totalBlk_mul hmax
      rw [payloads_eq (by omega)]
      have hpad := take_padTo (n := 1024 * totalBlk len) (f.take len)
      rwa [htake] at hpad

/-- **A stream that lacks its only byte** is transferred with success. -/
theorem ymodemXfer_empty : ¬ XfersOwn [] progName 1 := by
  intro h
  have hle := (h.own (Nat.le_refl 0)).1
  cases hle

end Ws63Flash
