import Ws63Flash.Lib.Emits
/-!
# Tty — the serial line, as the program sees it

Everything the program learns of the device comes from `read`, `write` and `time`, so a device is what answers these
three from the events so far: it may delay, split, drop or invent bytes, and its clock may run at any rate.  A read
returns at most what was asked for (nothing, when `VTIME` runs out); a write fails or takes at least one byte.
-/
namespace Ws63Flash

def EXIT_SUCCESS : Int := 0
def EXIT_FAILURE : Int := 1

/-- A value of `errno` after a failed call. -/
structure Errno where
  code : Nat
  pos : 0 < code
deriving DecidableEq

def EAGAIN : Errno := ⟨11, by decide⟩
def ETIMEDOUT : Errno := ⟨110, by decide⟩

/-- `-errno`, what a failing function returns. -/
def Errno.neg (e : Errno) : Int := -(e.code : Int)

theorem Errno.neg_lt (e : Errno) : e.neg < 0 := by
  have := e.pos
  unfold Errno.neg
  omega

inductive ReadRes where
  | data (bs : List UInt8)
  | fail (e : Errno)
deriving DecidableEq

inductive WriteRes where
  | wrote (k : Nat)
  | fail (e : Errno)
deriving DecidableEq

/-- The functions whose return the trace records. -/
inductive Callee where
  | ymodemWaitAck
  | ymodemXfer
  | uartReadUntilMagic
deriving DecidableEq

/-- An event of a run: a system call with its answer, a switch of the line speed, or the return of a function. -/
inductive Ev where
  | read (r : ReadRes)
  | write (bs : List UInt8)
  | writeFail (e : Errno)
  | time (t : Int)
  | uartOpen (baud : Nat)
  | ret (f : Callee) (r : Int)
deriving DecidableEq

structure Device where
  read : List Ev → Nat → ReadRes
  write : List Ev → List UInt8 → WriteRes
  time : List Ev → Int
  read_le : ∀ l n bs, read l n = .data bs → bs.length ≤ n
  write_le : ∀ l bs k, write l bs = .wrote k → bs ≠ [] → 0 < k ∧ k ≤ bs.length

abbrev Tty (α : Type) : Type := Proc Device Ev α

def Ev.sent : Ev → List UInt8
  | .write bs => bs
  | _         => []

def Ev.got : Ev → List UInt8
  | .read (.data bs) => bs
  | _                => []

/-- The bytes a run has written to the tty. -/
abbrev written (e : List Ev) : List UInt8 := Proc.outputOf Ev.sent e

/-- The bytes a run has read from the tty. -/
abbrev received (e : List Ev) : List UInt8 := Proc.outputOf Ev.got e

@[simp] theorem written_nil : written [] = [] := rfl
@[simp] theorem received_nil : received [] = [] := rfl

@[simp] theorem written_append (e e' : List Ev) : written (e ++ e') = written e ++ written e' :=
  Proc.outputOf_append _ e e'

@[simp] theorem received_append (e e' : List Ev) : received (e ++ e') = received e ++ received e' :=
  Proc.outputOf_append _ e e'

@[simp] theorem written_cons (x : Ev) (e : List Ev) : written (x :: e) = x.sent ++ written e := List.flatMap_cons

@[simp] theorem received_cons (x : Ev) (e : List Ev) : received (x :: e) = x.got ++ received e := List.flatMap_cons

def Ev.isRead : Ev → Bool
  | .read _ => true
  | _       => false

/-- The reads of a run, those that got nothing included. -/
def nreads (e : List Ev) : Nat := e.countP Ev.isRead

@[simp] theorem nreads_nil : nreads [] = 0 := rfl

@[simp] theorem nreads_append (e e' : List Ev) : nreads (e ++ e') = nreads e + nreads e' := List.countP_append

@[simp] theorem nreads_cons (x : Ev) (e : List Ev) : nreads (x :: e) = nreads e + if x.isRead then 1 else 0 :=
  List.countP_cons

/-! ## System calls -/

def read (n : Nat) : Tty ReadRes := Proc.act fun d l => (.read (d.read l n), d.read l n)

def write (bs : List UInt8) : Tty WriteRes := Proc.act fun d l =>
  match d.write l bs with
  | .wrote k => (.write (bs.take k), .wrote k)
  | .fail e  => (.writeFail e, .fail e)

def time : Tty Int := Proc.act fun d l => (.time (d.time l), d.time l)

/-- `uart_open` on the open tty.  No caller looks at its result; after a failed one the reads and writes that follow
fail, which is among the things a device may do. -/
def uartOpen (baud : Nat) : Tty Unit := Proc.act fun _ _ => (.uartOpen baud, ())

def mark (f : Callee) (r : Int) : Tty Unit := Proc.act fun _ _ => (.ret f r, ())

/-- The call of a function whose return the trace records. -/
def called (f : Callee) (m : Tty Int) : Tty Int := do
  let r ← m
  mark f r
  return r

/-- `while (written < len)`: the loop of `ymodem_blk_xmit` and of `ws63_send_cmddef`. -/
def writeAll (fuel : Nat) (buf : List UInt8) : Tty Int :=
  Proc.loop (fun written => do
    if written < buf.length then
      match ← write (buf.drop written) with
      | .fail e  => return .done e.neg
      | .wrote k => return .next (written + k)
    else return .done 0) fuel 0

/-! ## What the system calls put out -/

open Proc Language

@[simp] theorem sent_read (r : ReadRes) : (Ev.read r).sent = [] := rfl
@[simp] theorem sent_write (bs : List UInt8) : (Ev.write bs).sent = bs := rfl
@[simp] theorem sent_writeFail (e : Errno) : (Ev.writeFail e).sent = [] := rfl
@[simp] theorem sent_time (t : Int) : (Ev.time t).sent = [] := rfl
@[simp] theorem sent_uartOpen (b : Nat) : (Ev.uartOpen b).sent = [] := rfl
@[simp] theorem sent_ret (f : Callee) (r : Int) : (Ev.ret f r).sent = [] := rfl

/-- `obs` sees nothing of a read nor of the clock. -/
structure Unheard {β : Type} (obs : Ev → List β) : Prop where
  read : ∀ r, obs (.read r) = []
  time : ∀ t, obs (.time t) = []

/-- Nor of the line speed, nor of the return of a function that only reads. -/
structure Unseen {β : Type} (obs : Ev → List β) : Prop extends Unheard obs where
  uartOpen : ∀ b, obs (.uartOpen b) = []
  ret : ∀ f r, f ≠ .ymodemXfer → obs (.ret f r) = []

section

variable {β : Type} {obs : Ev → List β}

theorem Unheard.read_silent (h : Unheard obs) (n : Nat) : Silent obs (Ws63Flash.read n) :=
  Silent.act (fun _ _ => h.read _)

theorem Unheard.time_silent (h : Unheard obs) : Silent obs Ws63Flash.time := Silent.act (fun _ _ => h.time _)

theorem Unseen.uartOpen_silent (h : Unseen obs) (b : Nat) : Silent obs (Ws63Flash.uartOpen b) :=
  Silent.act (fun _ _ => h.uartOpen b)

theorem Unseen.mark_silent (h : Unseen obs) {f : Callee} (hf : f ≠ .ymodemXfer) (r : Int) : Silent obs (mark f r) :=
  Silent.act (fun _ _ => h.ret f r hf)

/-- `obs` sees nothing of a write, done or failed. -/
structure Unwritten (obs : Ev → List β) : Prop where
  write : ∀ bs, obs (.write bs) = []
  writeFail : ∀ e, obs (.writeFail e) = []

theorem Unwritten.write_silent (h : Unwritten obs) (bs : List UInt8) : Silent obs (Ws63Flash.write bs) :=
  Silent.act (fun d l => by
    cases d.write l bs with
    | wrote k => exact h.write _
    | fail e  => exact h.writeFail e)

theorem Unwritten.writeAll_silent (h : Unwritten obs) (fuel : Nat) (buf : List UInt8) :
    Silent obs (writeAll fuel buf) := by
  refine Silent.loop (fun n => ?_) fuel 0
  split
  · refine (h.write_silent _).bind (fun r => ?_)
    cases r <;> exact Silent.pure _
  · exact Silent.pure _

end

theorem sent_unseen : Unseen Ev.sent where
  read := fun _ => rfl
  time := fun _ => rfl
  uartOpen := fun _ => rfl
  ret := fun _ _ _ => rfl

theorem mark_silent (f : Callee) (r : Int) : Silent Ev.sent (mark f r) := Silent.act (fun _ _ => rfl)

theorem read_sat (n : Nat) (d : Device) (l : List Ev) :
    Sat (read n) d l (fun o e => ∃ r, o = .ret r ∧ r = d.read l n ∧ e = [.read r]) := ⟨_, rfl, rfl, rfl⟩

theorem time_sat (d : Device) (l : List Ev) :
    Sat time d l (fun o e => ∃ t, o = .ret t ∧ t = d.time l ∧ e = [.time t]) := ⟨_, rfl, rfl, rfl⟩

theorem mark_sat (f : Callee) (r : Int) (d : Device) (l : List Ev) :
    Sat (mark f r) d l (fun o e => ∃ u, o = .ret u ∧ e = [.ret f r]) := ⟨(), rfl, rfl⟩

theorem called_sat {f : Callee} {m : Tty Int} {d : Device} {l : List Ev} {Q : Out Int → List Ev → Prop}
    (h : Sat m d l (fun o e => match o with
      | .ret r  => Q (.ret r) (e ++ [.ret f r])
      | .stop x => Q (.stop x) e)) : Sat (called f m) d l Q :=
  Sat.bind h (fun _ _ he => he) (fun _ _ he => he)

theorem write_sat (bs : List UInt8) (hbs : bs ≠ []) (d : Device) (l : List Ev) :
    Sat (write bs) d l (fun o e => (∃ k, 0 < k ∧ k ≤ bs.length ∧ o = .ret (.wrote k) ∧ e = [.write (bs.take k)]) ∨
      (∃ x, o = .ret (.fail x) ∧ e = [.writeFail x])) := by
  unfold Sat write act
  dsimp only
  cases h : d.write l bs with
  | wrote k =>
    obtain ⟨h0, h1⟩ := d.write_le l bs k h hbs
    exact Or.inl ⟨k, h0, h1, rfl, rfl⟩
  | fail x => exact Or.inr ⟨x, rfl, rfl⟩

/-- **Short writes add up**: the loop writes a prefix of the buffer, and all of it when it returns 0. -/
theorem writeAll_sat (fuel : Nat) (buf : List UInt8) (d : Device) (l : List Ev) :
    Sat (writeAll fuel buf) d l (fun o e => (∀ r, o = .ret r → (r = 0 ∧ written e = buf) ∨ r < 0) ∧
      written e <+: buf ∧ received e = [] ∧ ∀ x, o = .stop x → x = .pending) := by
  refine Sat.loop (fun n e => n ≤ buf.length ∧ written e = buf.take n ∧ received e = []) ?_ ?_ fuel 0
    ⟨Nat.zero_le _, rfl, rfl⟩
  · rintro n e ⟨hn, hw, hr⟩
    split
    · rename_i hlt
      have hne : buf.drop n ≠ [] := List.ne_nil_of_length_pos (by rw [List.length_drop]; omega)
      refine Sat.bind (write_sat _ hne d (l ++ e)) ?_ ?_
      · rintro a e' (⟨k, h0, hk, ha, rfl⟩ | ⟨x, ha, rfl⟩) <;> cases ha
        · refine Sat.pure ⟨?_, ?_, ?_⟩
          · rw [List.length_drop] at hk; omega
          · rw [List.append_nil, written_append, hw, List.take_add]
            simp
          · rw [List.append_nil, received_append, hr]; rfl
        · refine Sat.pure ⟨fun r hr' => ?_, ?_, ?_, fun x hx => (nomatch hx)⟩
          · cases hr'; exact Or.inr x.neg_lt
          · rw [List.append_nil, written_append, hw]
            exact (List.append_nil _).symm ▸ List.take_prefix n buf
          · rw [List.append_nil, received_append, hr]; rfl
      · rintro x e' (⟨k, _, _, ha, _⟩ | ⟨x', ha, _⟩) <;> cases ha
    · rename_i hge
      have hall : buf.take n = buf := List.take_of_length_le (by omega)
      refine Sat.pure ⟨fun r hr' => ?_, ?_, ?_, fun x hx => (nomatch hx)⟩
      · cases hr'
        exact Or.inl ⟨rfl, by rw [List.append_nil, hw, hall]⟩
      · rw [List.append_nil, hw, hall]
      · rw [List.append_nil, hr]
  · rintro n e ⟨_, hw, hr⟩
    refine ⟨fun r hr' => (nomatch hr'), ?_, hr, fun x hx => by cases hx; rfl⟩
    rw [hw]
    exact List.take_prefix n buf

/-- No write fails; each takes at least one byte. -/
def Device.Accepts (d : Device) : Prop := ∀ l bs, ∃ k, d.write l bs = .wrote k

/-- **Short writes end**: on a device that accepts them the whole buffer is written. -/
theorem writeAll_accepts {d : Device} (h : d.Accepts) {fuel : Nat} {buf : List UInt8} (hf : buf.length < fuel)
    (l : List Ev) : Sat (writeAll fuel buf) d l (fun o e => o = .ret 0 ∧ written e = buf ∧ nreads e = 0) := by
  refine Sat.loop_total (fun n e => n ≤ buf.length ∧ written e = buf.take n ∧ nreads e = 0) (fun n => buf.length - n)
    ?_ fuel 0 hf ⟨Nat.zero_le _, rfl, rfl⟩
  rintro n e ⟨hn, hw, hr⟩
  split
  · rename_i hlt
    have hne : buf.drop n ≠ [] := List.ne_nil_of_length_pos (by rw [List.length_drop]; omega)
    obtain ⟨k, hk⟩ := h (l ++ e) (buf.drop n)
    obtain ⟨hk0, hk1⟩ := d.write_le _ _ k hk hne
    rw [List.length_drop] at hk1
    have hrun : Sat (write (buf.drop n)) d (l ++ e)
        (fun o e => ∃ r, o = .ret r ∧ r = .wrote k ∧ e = [.write ((buf.drop n).take k)]) := by
      refine ⟨.wrote k, ?_⟩
      simp only [write, act, hk]
      exact ⟨trivial, trivial, trivial⟩
    apply Sat.bind_val hrun
    rintro _ _ ⟨rfl, rfl⟩
    refine Sat.pure ⟨⟨by omega, ?_, by simp [hr, Ev.isRead]⟩, by omega⟩
    rw [List.append_nil, written_append, hw, List.take_add]
    simp
  · rename_i hge
    refine Sat.pure ⟨rfl, ?_, by rw [List.append_nil, hr]⟩
    rw [List.append_nil, hw, List.take_of_length_le (by omega)]

theorem writeAll_emits (fuel : Nat) (buf : List UInt8) :
    Emits Ev.sent (writeAll fuel buf) (fun r => ¬ r < 0) (word buf) := by
  intro d l
  refine (writeAll_sat fuel buf d l).mono (fun o e ⟨h1, h2, _, _⟩ => ⟨fun a ha hg => ?_, mem_prefixes_word.2 h2⟩)
  rcases h1 a ha with h | h
  · exact h.2
  · exact absurd h hg

theorem called_emits {f : Callee} {m : Tty Int} {good : Int → Prop} {L : Language UInt8}
    (h : Emits Ev.sent m good L) : Emits Ev.sent (called f m) good L := by
  refine h.then_silent (fun r _ => (mark_silent f r).bind (fun _ => Silent.pure r)) (fun r hr d l => ?_)
  refine Sat.bind (mark_silent f r d l) (fun a e he => ?_) (fun x e he => ?_)
  · exact Sat.pure ⟨by rw [List.append_nil]; exact he, fun b hb => by cases hb; exact hr⟩
  · exact ⟨he, fun a ha => (nomatch ha)⟩

/-- A line may take every write whole, and answer a read by a part of what it has. -/
theorem wrote_whole {bs : List UInt8} {k : Nat} (h : WriteRes.wrote bs.length = .wrote k) (hne : bs ≠ []) :
    0 < k ∧ k ≤ bs.length := by
  cases h
  exact ⟨List.length_pos_iff.2 hne, Nat.le_refl _⟩

theorem read_part {bs bs' : List UInt8} {n : Nat} (h : ReadRes.data (bs.take n) = .data bs') : bs'.length ≤ n := by
  cases h
  rw [List.length_take]
  exact Nat.min_le_left _ _

/-! ## A line that plays a script -/

/-- It answers the reads by `script`, in order and then with silence; its clock stands still. -/
def scriptDevice (script : List (List UInt8)) : Device where
  read := fun l n => .data ((script.getD (nreads l) []).take n)
  write := fun _ bs => .wrote bs.length
  time := fun _ => 0
  read_le := fun _ _ _ => read_part
  write_le := fun _ _ _ => wrote_whole

theorem scriptDevice_accepts (script : List (List UInt8)) : (scriptDevice script).Accepts := fun _ bs => ⟨bs.length, rfl⟩

end Ws63Flash
