import Ws63Flash.Lib.Coupling
import Ws63Flash.YmodemBlocks
/-!
# Receiver — a YMODEM-CRC receiver at the other end of the line

The receiver keeps the number of the block it waits for and the blocks it has stored.  It stores and acknowledges a
valid block with that number, acknowledges a repeat of the block before it, and acknowledges EOT; a block whose check
bytes are wrong is answered with NAK.  Two queues lie between it and the sender, and the bytes in them take any time:
on the way to the receiver a block may be damaged, which shows, and stray bytes other than ACK and NAK may join the
answers on their way back.
-/
namespace Ws63Flash

open Octets Units Coupling

/-- `u` is a block with the number `seq` and the right check bytes. -/
def Carries (u : List UInt8) (seq : UInt8) : Prop :=
  ∃ mark p, (mark = SOH ∨ mark = STX) ∧ u = [mark, seq, 0xff - seq] ++ p ++ be16 (crc16Xmodem p)

structure Rx where
  next : UInt8
  stored : List (List UInt8)

/-- The data blocks stored. -/
def Rx.data (r : Rx) : List (List UInt8) := r.stored.filter (fun u => u.head? = some STX)

/-- What the receiver makes of a block or EOT that reaches it as it was sent, and what it answers.  After EOT it waits
for the block 0 of a next file. -/
inductive Rx.Takes : Rx → List UInt8 → Rx → List UInt8 → Prop where
  | store {r : Rx} {u : List UInt8} (h : Carries u r.next) : Takes r u ⟨r.next + 1, r.stored ++ [u]⟩ [ACK]
  | again {r : Rx} {u : List UInt8} {seq : UInt8} (h : Carries u seq) (hr : seq + 1 = r.next) : Takes r u r [ACK]
  | eot {r : Rx} : Takes r [EOT] ⟨0, r.stored⟩ [ACK]
  | bad {r : Rx} {u : List UInt8} (h : ∀ seq, ¬ Carries u seq) (he : u ≠ [EOT]) : Takes r u r [NAK]
  | other {r : Rx} {u ans : List UInt8} {seq : UInt8} (h : Carries u seq) (hn : seq ≠ r.next) (hr : seq + 1 ≠ r.next)
    (ha : ACK ∉ ans) : Takes r u r ans

/-- The line and the receiver: the bytes on their way there, the bytes on their way back. -/
structure Sys where
  fwd : List UInt8
  bwd : List UInt8
  rx : Rx

def Sys.start : Sys := ⟨[], [], ⟨0, []⟩⟩

/-- What happens without the sender. -/
inductive Sys.Step : Sys → Sys → Prop where
  | deliver {u fwd bwd ans : List UInt8} {r r' : Rx} (hu : SelfDelimiting blkSize u) (h : r.Takes u r' ans) :
    Step ⟨u ++ fwd, bwd, r⟩ ⟨fwd, bwd ++ ans, r'⟩
  | damage {u fwd bwd : List UInt8} {r : Rx} (hu : SelfDelimiting blkSize u) :
    Step ⟨u ++ fwd, bwd, r⟩ ⟨fwd, bwd ++ [NAK], r⟩
  | stray {fwd a c : List UInt8} {r : Rx} (b : UInt8) (hA : b ≠ ACK) (hN : b ≠ NAK) :
    Step ⟨fwd, a ++ c, r⟩ ⟨fwd, a ++ b :: c, r⟩

/-- What an event of the sender is on the line: the bytes it writes join the queue, those it reads leave the other. -/
inductive Sys.Sees : Ev → Sys → Sys → Prop where
  | mk {x : Ev} {fwd bwd : List UInt8} {r : Rx} : Sees x ⟨fwd, x.got ++ bwd, r⟩ ⟨fwd ++ x.sent, bwd, r⟩

/-- The line and the receiver may go from `s` to `t` while the sender goes through the events `e`. -/
abbrev Sys.Goes (s : Sys) (e : List Ev) (t : Sys) : Prop := Coupled Sys.Step Sys.Sees s e t

/-- The states in which the line and the receiver may be once the sender has gone through the events `e`. -/
def Reaches (e : List Ev) (s : Sys) : Prop := Sys.start.Goes e s

/-! ## What the receiver does with the blocks of a session -/

theorem Carries.seq {u : List UInt8} {seq : UInt8} (h : Carries u seq) : u.getD 1 0 = seq := by
  obtain ⟨mark, p, _, rfl⟩ := h
  rfl

theorem Carries.unique {u : List UInt8} {seq seq' : UInt8} (h : Carries u seq) (h' : Carries u seq') : seq = seq' := by
  rw [← h.seq, h'.seq]

theorem Carries.ne_eot {u : List UInt8} {seq : UInt8} (h : Carries u seq) : u ≠ [EOT] := by
  obtain ⟨mark, p, _, rfl⟩ := h
  intro he
  exact nomatch (List.cons.inj he).2

theorem sohBlk_carries (seq : UInt8) (p : List UInt8) : Carries (sohBlk seq p) seq := ⟨SOH, p, Or.inl rfl, rfl⟩

theorem stxBlk_carries (seq : UInt8) (p : List UInt8) : Carries (stxBlk seq p) seq := ⟨STX, p, Or.inr rfl, rfl⟩

theorem ne_succ (x : UInt8) : x ≠ x + 1 := by
  intro h
  have hlt := x.toNat_lt
  have hsucc : x.toNat = (x.toNat + 1) % 256 := congrArg UInt8.toNat h
  omega

/-- An acknowledged unit leaves no choice. -/
theorem Rx.Takes.det {r r₁ r₂ : Rx} {u ans : List UInt8} (h : r.Takes u r₁ [ACK]) (h' : r.Takes u r₂ ans) :
    r₂ = r₁ ∧ ans = [ACK] := by
  cases h with
  | store h =>
    cases h' with
    | store _ => exact ⟨rfl, rfl⟩
    | again h₂ hr => exact absurd (h₂.unique h ▸ hr) (ne_succ _).symm
    | eot => exact absurd rfl h.ne_eot
    | bad hb _ => exact absurd h (hb _)
    | other h₂ hn _ _ => exact absurd (h₂.unique h) hn
  | again h hr =>
    cases h' with
    | store h₂ => exact absurd (h.unique h₂ ▸ hr) (ne_succ _).symm
    | again _ _ => exact ⟨rfl, rfl⟩
    | eot => exact absurd rfl h.ne_eot
    | bad hb _ => exact absurd h (hb _)
    | other h₂ _ hr₂ _ => exact absurd (h₂.unique h ▸ hr) hr₂
  | eot =>
    cases h' with
    | store h₂ => exact absurd rfl h₂.ne_eot
    | again h₂ _ => exact absurd rfl h₂.ne_eot
    | eot => exact ⟨rfl, rfl⟩
    | bad _ he => exact absurd rfl he
    | other h₂ _ _ _ => exact absurd rfl h₂.ne_eot
  | other _ _ _ ha => exact absurd (List.mem_singleton.2 rfl) ha

/-- Only a data block changes the data stored. -/
theorem Rx.Takes.data {r r' : Rx} {u ans : List UInt8} (h : r.Takes u r' ans) (hu : u.head? ≠ some STX) :
    r'.data = r.data := by
  cases h with
  | store _ =>
    rw [Rx.data, List.filter_append, List.filter_cons_of_neg (by simpa using hu)]
    exact List.append_nil _
  | again _ _ => rfl
  | eot => rfl
  | bad _ _ => rfl
  | other _ _ _ _ => rfl

/-! ## Answers -/

/-- The answers among the bytes. -/
def answers (bs : List UInt8) : List UInt8 := bs.filter (fun b => b = ACK ∨ b = NAK)

@[simp] theorem answers_nil : answers [] = [] := rfl

@[simp] theorem answers_append (a b : List UInt8) : answers (a ++ b) = answers a ++ answers b :=
  List.filter_append a b

@[simp] theorem answers_ack : answers [ACK] = [ACK] := rfl

@[simp] theorem answers_nak : answers [NAK] = [NAK] := rfl

theorem answers_stray (a c : List UInt8) {b : UInt8} (hA : b ≠ ACK) (hN : b ≠ NAK) :
    answers (a ++ b :: c) = answers (a ++ c) := by
  rw [answers, answers, List.filter_append, List.filter_append,
    List.filter_cons_of_neg (by simpa using And.intro hA hN)]

end Ws63Flash
