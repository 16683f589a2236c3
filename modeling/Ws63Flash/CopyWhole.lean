import Ws63Flash.InjectSize
/-!
# CopyWhole — what `copy_part` says of a file that ends early

An end of the file leaves the loop of `copy_part` and the function returns 0, like a part that was copied whole: its
callers cannot tell them apart (`copyPart_returns_zero`).  `--inject` has stored the sizes of the files by then, as `stat`
gave them, and the offsets of the package's records, moved: `recordsCopied_iff` says when these stay within what is copied.
-/
namespace Ws63Flash

open Octets Proc

/-! ## `copy_part` -/

/-- `copy_part` returns 0 exactly when the file holds the part, and has then put the part out. -/
def CopiesWhole (fin : List UInt8) (start length : Nat) : Prop :=
  ∀ io : FileIo, io.Reads → io.Writes → ∀ l, ∃ n, ∀ fuel ≥ n, ∃ r, (copyPart fuel fin start length io l).1 = .ret r ∧
    (r = 0 ↔ start + length ≤ fin.length) ∧
    (r = 0 → output (copyPart fuel fin start length io l).2 = slice fin start length)

/-- **Without an error it returns 0**, and as much of the part is put out as the file holds. -/
theorem copyPart_returns_zero {io : FileIo} (hr : io.Reads) (hw : io.Writes) (fin : List UInt8) (start : Nat)
    {length fuel : Nat} (hf : length < fuel) (l : List FileEv) : (copyPart fuel fin start length io l).1 = .ret 0 ∧
      output (copyPart fuel fin start length io l).2 = slice fin start length := by
  have hwhole : Sat (copyPart fuel fin start length) io l (fun o _ => ∃ r, o = .ret r ∧ r = 0) := copyPart_whole hr hw hf l
  obtain ⟨_, hret, rfl⟩ := hwhole
  exact ⟨hret, (copyPart_emits fuel fin start length io l).1 0 hret rfl⟩

theorem copiesWhole_iff (fin : List UInt8) (start length : Nat) :
    CopiesWhole fin start length ↔ start + length ≤ fin.length := by
  constructor
  · intro hcopies
    obtain ⟨n, hn⟩ := hcopies goodIo goodIo_reads goodIo_writes []
    obtain ⟨r, hret, hwhole, _⟩ := hn (max n (length + 1)) (Nat.le_max_left _ _)
    have hzero := (copyPart_returns_zero goodIo_reads goodIo_writes fin start
      (Nat.lt_of_lt_of_le (Nat.lt_succ_self length) (Nat.le_max_right n _)) []).1
    exact hwhole.1 (Out.ret.inj (hret.symm.trans hzero))
  · intro hle io hr hw l
    refine ⟨length + 1, fun fuel hfuel => ?_⟩
    obtain ⟨hret, hout⟩ := copyPart_returns_zero hr hw fin start hfuel l
    exact ⟨0, hret, iff_of_true rfl hle, fun _ => hout⟩

/-! ## `--inject` -/

/-- `verb_inject` stays within its objects; and whenever it returns 0, each record of what it wrote points to bytes that are
there. -/
def RecordsCopied (h : Host) (args : List CStr) : Prop :=
  ∀ (io : FileIo) (stack : StackRecs) (fuel : Nat), (verbInject fuel h stack args io []).1 ≠ .stop .undefined ∧
    ((verbInject fuel h stack args io []).1 = .ret 0 →
      let out := output (verbInject fuel h stack args io []).2
      ∀ i < (FwpkgHeader.ofBytes out).cnt.toNat,
        (recordAt out i).offset.toNat + (recordAt out i).length.toNat ≤ out.length)

/-- The records of the package, moved, and those of the files, as 32 bits hold their places, stay within the output. -/
structure RecordsInside (h : Host) (infw : List UInt8) (bins : List FwpkgBinInfo) (wobjs : List Wobj) : Prop where
  olds : ∀ b ∈ bins, (b.offset.toNat + binInfoSize * wobjs.length) % 2 ^ 32 + b.length.toNat ≤ outSize h infw bins wobjs
  news : ∀ j w, wobjs[j]? = some w → (infw.length + binInfoSize * wobjs.length + storedSizes (wobjs.take j)) % 2 ^ 32 +
    w.length % 2 ^ 32 ≤ outSize h infw bins wobjs

section

variable {h : Host} {args : List CStr} {path : CStr} {wobjs : List Wobj} {infw : List UInt8} {header : FwpkgHeader}
  {bins : List FwpkgBinInfo}

/-- The records of a file, wherever on the stack: their places do not depend on it. -/
theorem newBins_inside {olds : List FwpkgBinInfo} (hle : wobjs.length ≤ olds.length) (o n : Nat) :
    (∀ r ∈ newBins olds wobjs o, r.offset.toNat + r.length.toNat ≤ n) ↔
      ∀ j w, wobjs[j]? = some w → (o + storedSizes (wobjs.take j)) % 2 ^ 32 + w.length % 2 ^ 32 ≤ n := by
  have hplace : ∀ (old : FwpkgBinInfo) (w : Wobj) (o' : Nat),
      (newBin old w o').offset.toNat + (newBin old w o').length.toNat = o' % 2 ^ 32 + w.length % 2 ^ 32 := fun old w o' =>
    congrArg₂ (· + ·) (UInt32.toNat_ofNat' ..) (UInt32.toNat_ofNat' ..)
  constructor
  · intro hall j w hw
    obtain ⟨old, _, hnew⟩ := newBins_getElem? olds wobjs o hle j w hw
    rw [← hplace old]
    exact hall _ (List.mem_of_getElem? hnew)
  · intro hall r hr
    obtain ⟨j, hj⟩ := List.mem_iff_getElem?.1 hr
    have hlt := (List.getElem?_eq_some_iff.1 hj).1
    rw [newBins_length olds wobjs o hle] at hlt
    have hw := List.getElem?_eq_getElem hlt
    obtain ⟨old, _, hnew⟩ := newBins_getElem? olds wobjs o hle j _ hw
    rw [hj] at hnew
    rw [Option.some.inj hnew, hplace]
    exact hall j _ hw

/-- **The table that is written** points inside the output exactly when these places do. -/
theorem tableWith_inside (hroom : bins.length + wobjs.length ≤ MAX_PARTITION_CNT) (stack : StackRecs) :
    (∀ r ∈ tableWith bins stack wobjs infw.length, r.offset.toNat + r.length.toNat ≤ outSize h infw bins wobjs) ↔
      RecordsInside h infw bins wobjs := by
  have hle : wobjs.length ≤ (stack.1.drop bins.length).length := by
    rw [List.length_drop, stack.2]
    omega
  have hshift : ∀ b : FwpkgBinInfo,
      (b.shift wobjs.length).offset.toNat = (b.offset.toNat + binInfoSize * wobjs.length) % 2 ^ 32 := fun b =>
    UInt32.toNat_ofNat' ..
  unfold tableWith
  rw [List.forall_mem_append, List.forall_mem_map, newBins_inside hle]
  constructor
  · rintro ⟨holds, hnews⟩
    refine ⟨fun b hb => ?_, hnews⟩
    rw [← hshift]
    exact holds b hb
  · rintro ⟨holds, hnews⟩
    refine ⟨fun b hb => ?_, hnews⟩
    rw [hshift]
    exact holds b hb

/-- **The output of a run that returns 0** holds what its records point to, when these stay within it. -/
theorem Injectable.copied_iff (hi : Injectable h args wobjs infw header bins) {io : FileIo} {stack : StackRecs} {fuel : Nat}
    (hret : (verbInject fuel h stack args io []).1 = .ret 0) :
    (let out := output (verbInject fuel h stack args io []).2
      ∀ i < (FwpkgHeader.ofBytes out).cnt.toNat,
        (recordAt out i).offset.toNat + (recordAt out i).length.toNat ≤ out.length) ↔ RecordsInside h infw bins wobjs := by
  have htable := (fwpkgReadBinInfos_eq_some.1 (hi.readBinInfos hret)).2
  rw [← tableWith_inside hi.room stack, htable, List.forall_mem_map]
  dsimp only
  rw [(hi.output_size hret).1]
  exact forall_congr' (fun i => imp_congr_left List.mem_range.symm)

/-- **When the records stay within what is copied**: when the arguments are refused, or the inputs are such that `--inject`
stays within its objects, and what the records say lies inside the output. -/
theorem recordsCopied_iff (hpath : args[0]? = some path) (hopen : h.fopen path = .ok infw)
    (hacc : Accepted infw header bins) :
    RecordsCopied h args ↔ ∀ wobjs, (args.drop 1).mapM (parseWobj h false) = .ok wobjs →
      Injectable h args wobjs infw header bins ∧ RecordsInside h infw bins wobjs :=
  verbInject_everyRun_iff hpath hopen hacc (fun _ hi _ _ _ hret => hi.copied_iff hret)

/-- **When an early end is reported**: to copy a part, only if the file holds it, so that there is none; to `--inject`, if
its records stay within what is copied. -/
theorem copyPart_reports_iff (hpath : args[0]? = some path) (hopen : h.fopen path = .ok infw)
    (hacc : Accepted infw header bins) :
    (∀ (fin : List UInt8) (start length : Nat), CopiesWhole fin start length ↔ start + length ≤ fin.length) ∧
      (RecordsCopied h args ↔ ∀ wobjs, (args.drop 1).mapM (parseWobj h false) = .ok wobjs →
        Injectable h args wobjs infw header bins ∧ RecordsInside h infw bins wobjs) :=
  ⟨copiesWhole_iff, recordsCopied_iff hpath hopen hacc⟩

end

theorem copyPart_reports_sample :
    CopiesWhole [0x41, 0x42] 1 1 ∧ RecordsCopied (hostWith (injectTable samplePkg)) injectArgs := by
  have hboth := @copyPart_reports_iff (hostWith (injectTable samplePkg)) injectArgs _ _ _ _ rfl rfl samplePkg_accepted
  refine ⟨(hboth.1 [0x41, 0x42] 1 1).2 (by decide), hboth.2.2 (fun wobjs hparsed => ?_)⟩
  rw [injectArgs_parsed] at hparsed
  cases hparsed
  refine ⟨inject_sample, by decide +kernel, fun j w hw => ?_⟩
  rcases j with _ | j
  · cases hw
    decide +kernel
  · cases hw

/-- `stat` says 4096 bytes, and the file `c` holds one: a file of `sysfs`, or one that was cut in between. -/
def shortHost : Host := { hostWith (injectTable samplePkg) with stat := fun _ => .ok 4096 }

/-- **A file that ends early** is reported by neither: a record of 4096 bytes stands for one. -/
theorem copyPart_early : ¬ CopiesWhole [0x41] 0 2 ∧ ¬ RecordsCopied shortHost injectArgs := by
  refine ⟨fun hcopies => absurd ((copiesWhole_iff [0x41] 0 2).1 hcopies) (by decide), fun hcopied => ?_⟩
  have hparsed : (injectArgs.drop 1).mapM (parseWobj shortHost false) = .ok [⟨fileC, 4096, 0⟩] := by
    show [atAddr _ false 0].mapM _ = _
    rw [List.mapM_cons, parseWobj_atAddr false false (by decide) rfl (by decide)]
    rfl
  have hinside := ((recordsCopied_iff (h := shortHost) rfl rfl samplePkg_accepted).1 hcopied _ hparsed).2
  exact absurd (hinside.news 0 _ rfl) (by decide +kernel)

end Ws63Flash
