import Ws63Flash.FlashWrite
import Ws63Flash.SignDigest
/-!
# ProgWrite — `--write-program` and `--write` of the signed file

`verb_write_prog` signs the program itself and carries its own loaderboot.  With the loaderboot and the file `ws63sign`
makes of the program as files, `--write` has the same plan, and so the same run (`writeProg_write_same`); also with the
SHA-256 of their own library (`writeProg_write_digest`).
-/
namespace Ws63Flash

open Octets Proc

/-- `path` leads to a file of this name that holds `f`. -/
structure FileAt (h : Host) (path : CStr) (name f : List UInt8) : Prop where
  leads : Leads path name
  noAt : 0x40 ∉ path.bytes
  stat : h.stat path = .ok f.length
  fopen : h.fopen path = .ok f

/-- `ws63sign` has made `s` of `bin`. -/
def Signed (sha256 : List UInt8 → List UInt8) (bin s : List UInt8) : Prop :=
  ∃ (io : FileIo) (fuel : Nat), io.Reads ∧ ws63sign fuel sha256 bin io = (.ret 0, s)

/-- `--write-program TTY PROG`. -/
def progArgs (tty prog : CStr) (baud : UInt32) (late : Bool) : Args := ⟨[tty, prog], baud, late⟩

/-- `--write TTY LOADERBOOT SIGNED@0x230000`. -/
def signedArgs (tty loaderboot signed : CStr) (mark : Bool) (baud : UInt32) (late : Bool) : Args :=
  ⟨[tty, loaderboot, atAddr signed mark 0x230000], baud, late⟩

section

variable {h : Host} {bin s : List UInt8} {tty prog loaderboot signed : CStr} {mark late : Bool} {baud : UInt32}

theorem Signed.eq (hs : Signed h.sha256 bin s) : (signFile h.sha256 bin).2 = s := by
  obtain ⟨io, fuel, hr, hrun⟩ := hs
  have himage := (@ws63sign_image h.sha256 fuel bin _ hr).1
  rw [hrun] at himage
  exact (himage rfl).symm

/-- What `verb_write_prog` declares is what it sends. -/
theorem Signed.length (hs : Signed h.sha256 bin s) : (signFile h.sha256 bin).1.len + signBufLen = s.length := by
  rw [← hs.eq, signFile_length h.sha256_length]

theorem Signed.progJob (hs : Signed h.sha256 bin s) : progJob h bin =
    ⟨downloadCmd 0x230000 (UInt32.ofNat s.length) (erasSize s.length), some ⟨.ok s, progName, s.length⟩⟩ := by
  unfold Ws63Flash.progJob
  simp only [hs.length, hs.eq]

theorem Signed.planWriteProg (hs : Signed h.sha256 bin s) (hprog : h.fopen prog = .ok bin) (htmp : h.tmpfile = true) :
    planWriteProg h (progArgs tty prog baud late) = .ret (.ok ⟨builtinPart h, true,
      [⟨downloadCmd 0x230000 (UInt32.ofNat s.length) (erasSize s.length), some ⟨.ok s, progName, s.length⟩⟩]⟩) := by
  have hpath : (progArgs tty prog baud late).args[1]? = some prog := rfl
  unfold Ws63Flash.planWriteProg
  rw [hpath]
  dsimp only
  rw [hprog]
  dsimp only
  rw [if_neg (fun hn => hn htmp), hs.progJob]

theorem FileAt.writePart {path name : CStr} {f : List UInt8} (hf : FileAt h path name.bytes f) (addr : Nat) :
    writePart h ⟨basenameCut path, f.length, addr⟩ = ⟨.ok f, name, f.length⟩ := by
  unfold Ws63Flash.writePart
  simp only [hf.leads.basenameCut, hf.fopen]
  rw [show Ws63Flash.basename path = name from CStr.ext hf.leads.basename]

theorem FileAt.planWrite (hl : FileAt h loaderboot loaderbootName.bytes h.loaderboot)
    (hs : FileAt h signed progName.bytes s) : planWrite h (signedArgs tty loaderboot signed mark baud late) =
      .ret (.ok ⟨builtinPart h, true,
        [⟨downloadCmd 0x230000 (UInt32.ofNat s.length) (erasSize s.length), some ⟨.ok s, progName, s.length⟩⟩]⟩) := by
  have hparse : parseWobjs h ((signedArgs tty loaderboot signed mark baud late).args.drop 1)
      = .ok [⟨loaderboot, h.loaderboot.length, 0⟩, ⟨signed, s.length, 0x230000⟩] := by
    show parseWobjs h [loaderboot, atAddr signed mark 0x230000] = _
    rw [parseWobjs, parseWobj_bare hl.noAt hl.stat, List.mapM_cons,
      parseWobj_atAddr false mark hs.noAt hs.stat (by decide)]
    rfl
  have haddr : UInt32.ofNat 0x230000 = 0x230000 := rfl
  unfold Ws63Flash.planWrite
  rw [hparse]
  simp only [List.map_cons, List.map_nil, writeJob, hl.writePart, hs.writePart, haddr]
  rfl

theorem main_writeProg_eq (hs : Signed h.sha256 bin s) (hprog : h.fopen prog = .ok bin) (htmp : h.tmpfile = true)
    (hl : FileAt h loaderboot loaderbootName.bytes h.loaderboot) (hf : FileAt h signed progName.bytes s) (fuel : Nat) :
    main fuel h .writeProg (progArgs tty prog baud late)
      = main fuel h .write (signedArgs tty loaderboot signed mark baud late) := by
  have hprogram : parseOpt .writeProg (progArgs tty prog baud late).args.length = true :=
    show parseOpt .writeProg 2 = true by decide
  have hwrite : parseOpt .write (signedArgs tty loaderboot signed mark baud late).args.length = true :=
    show parseOpt .write 3 = true by decide
  have hrun : verbRun fuel h (progArgs tty prog baud late) .writeProg
      = verbRun fuel h (signedArgs tty loaderboot signed mark baud late) .write := by
    rw [verbRun_eq, verbRun_eq]
    unfold planOf
    dsimp only
    rw [hs.planWriteProg hprog htmp, hl.planWrite hf]
    exact runPlan_args fuel _ _ _ _ _
  unfold main
  rw [hprogram, hwrite, hrun]

/-- **`--write-program` is `--write` of the built-in loaderboot and of the signed file**: in every environment the same
run; and what it flashes, declares and erases is the signed file. -/
theorem writeProg_write_same (hprog : h.fopen prog = .ok bin) (htmp : h.tmpfile = true)
    (hl : FileAt h loaderboot loaderbootName.bytes h.loaderboot) (hs : Signed h.sha256 bin s)
    (hf : FileAt h signed progName.bytes s) (hlen : (bin.length + 15) / 16 * 16 < 2 ^ 32 - 0x300) :
    (∀ (d : Device) (fuel : Nat), main fuel h .writeProg (progArgs tty prog baud late) d []
      = main fuel h .write (signedArgs tty loaderboot signed mark baud late) d []) ∧
    ∃ len : UInt32, len.toNat = s.length ∧ planWriteProg h (progArgs tty prog baud late) = .ret (.ok ⟨builtinPart h, true,
      [⟨downloadCmd 0x230000 len (erasSize s.length), some ⟨.ok s, progName, s.length⟩⟩]⟩) := by
  refine ⟨fun d fuel => ?_, UInt32.ofNat s.length, ?_, hs.planWriteProg hprog htmp⟩
  · rw [main_writeProg_eq hs hprog htmp hl hf]
  · have hsize : s.length = (bin.length + 15) / 16 * 16 + 0x300 := by
      rw [← hs.length, signFile_eq]
      rfl
    rw [UInt32.toNat_ofNat', Nat.mod_eq_of_lt (by omega)]

/-- **With the hash of their library** the two programs make the same image, wherever each has its arrays, and the runs that
flash it are the same. -/
theorem writeProg_write_digest (hsha : h.sha256 = Fips180.sha256) (hprog : h.fopen prog = .ok bin) (htmp : h.tmpfile = true)
    (hl : FileAt h loaderboot loaderbootName.bytes h.loaderboot) {place : SignPlace} {io : FileIo} {n : Nat} (hr : io.Reads)
    (hs : signMain place n bin io = (.ret 0, s)) (hf : FileAt h signed progName.bytes s) :
    (∀ place', (digestFile place' bin).2 = s) ∧ ∀ (d : Device) (fuel : Nat),
      main fuel h .writeProg (progArgs tty prog baud late) d []
        = main fuel h .write (signedArgs tty loaderboot signed mark baud late) d [] := by
  have hsigned : Signed h.sha256 bin s := ⟨io, n, hr, by rw [hsha, ← signMain_eq place, hs]⟩
  refine ⟨fun place' => ?_, fun d fuel => by rw [main_writeProg_eq hsigned hprog htmp hl hf]⟩
  rw [(digestFile_eq place' bin).2, ← hsha, hsigned.eq]

end

/-! ## A program of one byte -/

/-- The loaderboot `L`, and SHA-256. -/
noncomputable def digestHost (table : List (CStr × List UInt8)) : Host :=
  { hostWith table with
    loaderboot := [0x4c]
    sha256 := Fips180.sha256
    sha256_length := Fips180.sha256_length }

/-- The program `p`, the loaderboot, and the signed program. -/
noncomputable def progTable : List (CStr × List UInt8) :=
  [(fileP, [0x41]), (loaderbootName, [0x4c]), (progName, (signFile Fips180.sha256 [0x41]).2)]

theorem progTable_signed : Signed (digestHost progTable).sha256 [0x41] (signFile Fips180.sha256 [0x41]).2 := by
  have himage := @ws63sign_image Fips180.sha256 2 [0x41] _ goodIo_reads
  have hret := himage.2 goodIo_writes (by decide)
  exact ⟨goodIo, 2, goodIo_reads, Prod.ext hret (himage.1 hret)⟩

theorem name_leads {name : CStr} (hslash : 0x2f ∉ name.bytes) (hne : name.bytes ≠ []) : Leads name name.bytes :=
  ⟨⟨[], rfl, Or.inl rfl⟩, hslash, hne⟩

theorem writeProg_write_same_sample :
    (∀ (d : Device) (fuel : Nat), main fuel (digestHost progTable) .writeProg (progArgs ttyT fileP 115200 false) d []
      = main fuel (digestHost progTable) .write (signedArgs ttyT loaderbootName progName true 115200 false) d []) ∧
    ∃ len : UInt32, len.toNat = (signFile Fips180.sha256 [0x41]).2.length ∧
      planWriteProg (digestHost progTable) (progArgs ttyT fileP 115200 false) = .ret (.ok
        ⟨builtinPart (digestHost progTable), true,
          [⟨downloadCmd 0x230000 len (erasSize (signFile Fips180.sha256 [0x41]).2.length),
            some ⟨.ok (signFile Fips180.sha256 [0x41]).2, progName, (signFile Fips180.sha256 [0x41]).2.length⟩⟩]⟩) :=
  @writeProg_write_same (digestHost progTable) [0x41] _ _ _ _ _ _ _ _ rfl rfl
    ⟨name_leads (by decide) (by decide), by decide, rfl, rfl⟩ progTable_signed
    ⟨name_leads (by decide) (by decide), by decide, rfl, rfl⟩ (by decide)

end Ws63Flash
