import Ws63Flash.Lib.Emits
import Ws63Flash.Lib.Octets
/-!
# FileIo — `fread`, `fwrite` and `copy_part`

A process on files reads from the bytes it is given and writes to one output.  Its environment says how much each call
moves: a read of bytes that are there, or a write, may move any part of them, nothing included.
-/
namespace Ws63Flash

open Proc Language

inductive FileEv where
  | fread (k : Nat)
  | fwrite (bs : List UInt8)

structure FileIo where
  fread : List FileEv → Nat → Nat
  fwrite : List FileEv → Nat → Nat
  fread_le : ∀ l n, fread l n ≤ n
  fwrite_le : ∀ l n, fwrite l n ≤ n

abbrev FileProc (α : Type) : Type := Proc FileIo FileEv α

/-- The bytes an event has put into the output. -/
def FileEv.out : FileEv → List UInt8
  | .fread _   => []
  | .fwrite bs => bs

/-- What a run has put into the output: the last flush, which comes after it, is in `ws63fwpkgMain`. -/
abbrev output (e : List FileEv) : List UInt8 := outputOf FileEv.out e

@[simp] theorem output_append (e e' : List FileEv) : output (e ++ e') = output e ++ output e' := outputOf_append _ e e'

/-- How many of the `n` bytes asked for, all of them there, are read. -/
def fread (n : Nat) : FileProc Nat := Proc.act fun io l => (.fread (io.fread l n), io.fread l n)

/-- How many bytes of `bs` are written. -/
def fwrite (bs : List UInt8) : FileProc Nat := Proc.act fun io l =>
  (.fwrite (bs.take (io.fwrite l bs.length)), io.fwrite l bs.length)

/-- `checked_fwrite`: 0, or what its caller returns. -/
def checkedFwrite (bs : List UInt8) : FileProc Int := do
  let k ← fwrite bs
  if k ≠ bs.length then return 1 else return 0

/-- The state is what follows the position of `fin`, and `remaining`. -/
def copyPart (fuel : Nat) (fin : List UInt8) (start : Nat) (length : Int) : FileProc Int :=
  Proc.loop (fun (s : List UInt8 × Int) => do
    if s.2 > 0 then
      let chunk_size := if s.2 > 0x1000 then 0x1000 else s.2.toNat
      let bytes_read ← fread (min chunk_size s.1.length)
      if bytes_read = 0 then
        -- `feof`: nothing was left to read
        if s.1 = [] then return .done 0 else return .done 1
      else
        let bytes_written ← fwrite (s.1.take bytes_read)
        if bytes_written ≠ bytes_read then return .done 1
        else return .next (s.1.drop bytes_read, s.2 - bytes_read)
    else return .done 0) fuel (fin.drop start, length)

/-- No read fails, or ends the input before its end. -/
def FileIo.Reads (io : FileIo) : Prop := ∀ l n, 0 < n → 0 < io.fread l n

/-- Every write is whole. -/
def FileIo.Writes (io : FileIo) : Prop := ∀ l n, io.fwrite l n = n

/-- The files read and write whole. -/
def goodIo : FileIo := ⟨fun _ n => n, fun _ n => n, fun _ _ => Nat.le_refl _, fun _ _ => Nat.le_refl _⟩

/-! ## What is put out -/

theorem fread_sat (n : Nat) (io : FileIo) (l : List FileEv) :
    Sat (fread n) io l (fun o e => ∃ k, o = .ret k ∧ k ≤ n ∧ output e = []) :=
  ⟨_, rfl, io.fread_le l n, rfl⟩

theorem fwrite_sat (bs : List UInt8) (io : FileIo) (l : List FileEv) :
    Sat (fwrite bs) io l (fun o e => ∃ k, o = .ret k ∧ k ≤ bs.length ∧ output e = bs.take k) :=
  ⟨_, rfl, io.fwrite_le l _, List.append_nil _⟩

theorem checkedFwrite_emits (bs : List UInt8) : Emits FileEv.out (checkedFwrite bs) (fun r => r = 0) (word bs) := by
  intro io l
  apply Sat.bind_val (fwrite_sat bs io l)
  rintro k e ⟨hk, he⟩
  split
  · refine Sat.pure ⟨fun a ha h0 => ?_, ?_⟩
    · cases ha
      exact nomatch h0
    · rw [List.append_nil, mem_prefixes_word]
      rw [show outputOf FileEv.out e = _ from he]
      exact List.take_prefix k bs
  · rename_i hall
    have hw : output e = bs := by
      rw [he, Classical.not_not.1 hall]
      exact List.take_length
    refine Sat.pure ⟨fun _ _ _ => ?_, prefixes_of_mem ?_⟩ <;> rw [List.append_nil] <;> exact hw

/-- **Copying a part**: 0 means that all of it is in the output, as far as the file has it. -/
theorem copyPart_emits (fuel : Nat) (fin : List UInt8) (start : Nat) (length : Int) :
    Emits FileEv.out (copyPart fuel fin start length) (fun r => r = 0)
      (word ((fin.drop start).take length.toNat)) := by
  intro io l
  -- what is in the output, and what remains of the part
  refine Sat.loop (fun s e => output e ++ s.1.take s.2.toNat = (fin.drop start).take length.toNat) ?_ ?_ fuel
    (fin.drop start, length) rfl
  · rintro ⟨f, rem⟩ e hinv
    dsimp only at hinv ⊢
    have hpre : ∀ w, w <+: f.take rem.toNat → output e ++ w <+: (fin.drop start).take length.toNat := fun w hw => by
      rw [← hinv]
      exact (List.prefix_append_right_inj _).2 hw
    split
    · rename_i hrem
      generalize hchunk : (if rem > 0x1000 then 0x1000 else rem.toNat) = chunk
      have hle : chunk ≤ rem.toNat := by
        rw [← hchunk]
        split <;> omega
      apply Sat.bind_val (fread_sat _ io _)
      rintro k e₁ ⟨hk, he₁⟩
      split
      · rename_i hzero
        have hout : output (e ++ (e₁ ++ [])) = output e := by
          rw [List.append_nil, output_append, he₁, List.append_nil]
        split
        · rename_i hnil
          subst hnil
          rw [List.take_nil, List.append_nil] at hinv
          refine Sat.pure ⟨fun _ _ _ => ?_, prefixes_of_mem ?_⟩ <;> exact hout.trans hinv
        · refine Sat.pure ⟨fun a ha h0 => by cases ha; exact (nomatch h0), mem_prefixes_word.2 ?_⟩
          rw [show outputOf FileEv.out _ = output e from hout]
          have := hpre [] List.nil_prefix
          rwa [List.append_nil] at this
      · have hkf : k ≤ f.length := by omega
        have hkr : k ≤ rem.toNat := by omega
        apply Sat.bind_val (fwrite_sat _ io _)
        rintro k' e₂ ⟨hk', he₂⟩
        rw [List.length_take, Nat.min_eq_left hkf] at hk'
        have hout : output (e ++ (e₁ ++ (e₂ ++ []))) = output e ++ f.take k' := by
          rw [List.append_nil, output_append, output_append, he₁, List.nil_append, he₂, List.take_take,
            Nat.min_eq_left hk']
        have hsplit : f.take rem.toNat = f.take k' ++ (f.drop k').take (rem.toNat - k') := by
          rw [← List.take_add]
          congr 1
          omega
        split
        · refine Sat.pure ⟨fun a ha h0 => by cases ha; exact (nomatch h0), mem_prefixes_word.2 ?_⟩
          rw [show outputOf FileEv.out _ = _ from hout]
          exact hpre _ (hsplit ▸ List.prefix_append _ _)
        · rename_i hall
          have hkk : k' = k := Classical.not_not.1 hall
          subst hkk
          apply Sat.pure
          show output _ ++ (f.drop k').take (rem - k').toNat = _
          have hrest : (rem - k' : Int).toNat = rem.toNat - k' := by omega
          rw [hout, hrest, List.append_assoc, ← hsplit, hinv]
    · rename_i hrem
      have hzero : rem.toNat = 0 := by omega
      rw [hzero, List.take_zero, List.append_nil] at hinv
      refine Sat.pure ⟨fun _ _ _ => ?_, prefixes_of_mem ?_⟩ <;> rw [List.append_nil] <;> exact hinv
  · rintro ⟨f, rem⟩ e hinv
    refine ⟨fun a ha => (nomatch ha), mem_prefixes_word.2 ?_⟩
    rw [← hinv]
    exact List.prefix_append _ _

/-! ## Where it stops -/

theorem checkedFwrite_never (x : Halt) (bs : List UInt8) : Never x (checkedFwrite bs) := by
  refine (Never.act _).bind (fun k => ?_)
  split <;> exact Never.pure _

theorem copyPart_never {x : Halt} (hx : x ≠ .pending) (fuel : Nat) (fin : List UInt8) (start : Nat) (length : Int) :
    Never x (copyPart fuel fin start length) := by
  refine Never.loop hx (fun s => ?_) fuel _
  split
  · dsimp only
    refine (Never.act _).bind (fun k => ?_)
    split
    · split <;> exact Never.pure _
    · refine (Never.act _).bind (fun k' => ?_)
      split <;> exact Never.pure _
  · exact Never.pure _

theorem checkedFwrite_whole {io : FileIo} (hw : io.Writes) (bs : List UInt8) (l : List FileEv) :
    Sat (checkedFwrite bs) io l (fun o _ => ∃ r, o = .ret r ∧ r = 0) := by
  have hall : Sat (fwrite bs) io l (fun o _ => ∃ k, o = .ret k ∧ k = bs.length) := ⟨_, rfl, hw _ _⟩
  apply Sat.bind_val hall
  rintro _ _ rfl
  rw [if_neg (fun h => h rfl)]
  exact Sat.pure ⟨0, rfl, rfl⟩

/-- **Copying returns 0** however the reads cut the part, and also when the file ends before it. -/
theorem copyPart_whole {io : FileIo} (hr : io.Reads) (hw : io.Writes) {fuel : Nat} {fin : List UInt8} {start : Nat}
    {length : Int} (hf : length.toNat < fuel) (l : List FileEv) :
    Sat (copyPart fuel fin start length) io l (fun o _ => ∃ r, o = .ret r ∧ r = 0) := by
  refine Sat.loop_total (fun _ _ => True) (fun s => s.2.toNat) ?_ fuel (fin.drop start, length) hf trivial
  rintro ⟨f, rem⟩ e _
  dsimp only
  split
  · rename_i hrem
    generalize hchunk : (if rem > 0x1000 then 0x1000 else rem.toNat) = chunk
    have hpos : 0 < chunk := by
      rw [← hchunk]
      split <;> omega
    have hread : Sat (fread (min chunk f.length)) io (l ++ e)
        (fun o _ => ∃ k, o = .ret k ∧ k ≤ f.length ∧ (k = 0 → f = [])) := by
      refine ⟨_, rfl, Nat.le_trans (io.fread_le _ _) (Nat.min_le_right _ _), fun h0 => ?_⟩
      by_contra hne
      have hlen := List.length_pos_iff.2 hne
      exact absurd h0 (Nat.pos_iff_ne_zero.1 (hr (l ++ e) (min chunk f.length) (by omega)))
    apply Sat.bind_val hread
    rintro k e₁ ⟨hk, hzero⟩
    split
    · rename_i h0
      rw [if_pos (hzero h0)]
      exact Sat.pure ⟨0, rfl, rfl⟩
    · rename_i hk0
      have hwrite : Sat (fwrite (f.take k)) io (l ++ e ++ e₁) (fun o _ => ∃ k', o = .ret k' ∧ k' = k) := by
        refine ⟨_, rfl, (hw _ _).trans ?_⟩
        rw [List.length_take, Nat.min_eq_left hk]
      apply Sat.bind_val hwrite
      rintro _ e₂ rfl
      rw [if_neg (fun h => h rfl)]
      exact Sat.pure ⟨trivial, by dsimp only; omega⟩
  · exact Sat.pure ⟨0, rfl, rfl⟩

theorem goodIo_reads : goodIo.Reads := fun _ _ hn => hn

theorem goodIo_writes : goodIo.Writes := fun _ _ => rfl

end Ws63Flash
