import Ws63Flash.InjectAccepted
import Ws63Flash.Lib.Noted
/-!
# InjectBounds — the records that `verb_inject` uses

`verb_inject` with notes of the records that it writes in its buffer and of those that it reads from `bins`.  The
arguments, the package and the buffer have their limits each, the sum has none; and a first record is taken for
granted.  `verbInject_inRange_iff` says when every one of these records is there.
-/
namespace Ws63Flash

open Octets Proc Noted

/-- A record used: the record `i` of the buffer, written, or of `bins`, read. -/
inductive Touch where
  | buf (i : Nat)
  | bins (i : Nat)
deriving DecidableEq, Repr

/-- There is such a record, when the package has `cnt`. -/
def Touch.InRange (cnt : Nat) : Touch → Prop
  | .buf i  => i < MAX_PARTITION_CNT
  | .bins i => i < cnt

abbrev TouchProc (α : Type) : Type := Noted FileIo FileEv Touch α

/-! ## `verb_inject` with the notes -/

/-- The copy of the records into the buffer, and the loop that shifts them. -/
def copyTouches (n : Nat) : List Touch :=
  (List.range n).flatMap (fun i => [.bins i, .buf i]) ++ (List.range n).map .buf

/-- The buffer with the record `nb` at its count, which is then one more. -/
def InjectBuf.push (buf : InjectBuf) (nb : FwpkgBinInfo) : InjectBuf where
  head := { buf.head with cnt := buf.head.cnt + 1 }
  recs := buf.recs.set buf.head.cnt.toNat nb
  sized := by rw [List.length_set, buf.sized]

/-- `addBins`, noting each record before it is written. -/
def addBinsTouched : List Wobj → InjectBuf × Nat → TouchProc (InjectBuf × Nat)
  | [], s              => return s
  | w :: ws, (buf, outfwlen) => do
    note [.buf buf.head.cnt.toNat]
    if hroom : buf.head.cnt.toNat < MAX_PARTITION_CNT then
      let nb := newBin (buf.at buf.head.cnt.toNat hroom) w outfwlen
      addBinsTouched ws (buf.push nb, outfwlen + nb.length.toNat)
    else quiet (Proc.halt .undefined)

/-- `writeInjected`, noting the read of the first record. -/
def writeInjectedTouched (fuel : Nat) (h : Host) (infw : List UInt8) (bins : List FwpkgBinInfo) (wobjs : List Wobj)
    (buf : InjectBuf) : TouchProc Int := do
  let ret ← quiet (checkedFwrite buf.head.bytes)
  if ret ≠ 0 then return 1
  else
    let ret ← quiet (checkedFwrite ((buf.recs.take buf.head.cnt.toNat).flatMap FwpkgBinInfo.bytes))
    if ret ≠ 0 then return 1
    else
      let fb := buf.at 0 partition_pos
      let ret ← quiet (padGap fuel fb.offset.toNat (headerSize + binInfoSize * buf.head.cnt.toNat))
      if ret ≠ 0 then return 1
      else
        note [.bins 0]
        match bins with
        | []       => quiet (Proc.halt .undefined)
        | bin :: _ =>
          let ret ← quiet (copyPart fuel infw bin.offset.toNat ((infw.length : Int) - bin.offset.toNat))
          if ret ≠ 0 then return 1
          else quiet (copyFiles fuel h wobjs)

def verbInjectTouched (fuel : Nat) (h : Host) (stack : StackRecs) (args : List CStr) : TouchProc Int :=
  match (args.drop 1).mapM (parseWobj h false) with
  | .error r  => return r
  | .ok wobjs =>
    match args[0]? with
    | none      => quiet (Proc.halt .undefined)
    | some path =>
      match h.fopen path with
      | .error _ => return EXIT_FAILURE
      | .ok infw => do
        match ← quiet (Proc.lift (fwpkgReadHeader infw)) with
        | none        => return EXIT_FAILURE
        | some header =>
          match fwpkgReadBinInfos infw header with
          | none      => return EXIT_FAILURE
          | some bins => do
            note (copyTouches header.cnt.toNat)
            if hroom : bins.length ≤ MAX_PARTITION_CNT then
              let buf := shiftBins header bins wobjs.length stack hroom
              let (buf, _) ← addBinsTouched wobjs (buf, infw.length + binInfoSize * wobjs.length)
              writeInjectedTouched fuel h infw bins (cutNames wobjs) buf.sealed
            else quiet (Proc.halt .undefined)

/-! ## It is `verb_inject` -/

theorem addBinsTouched_erase : ∀ (ws : List Wobj) (s : InjectBuf × Nat),
    erase (addBinsTouched ws s) = Proc.lift (addBins ws s)
  | [], s              => rfl
  | w :: ws, (buf, o) => by
    rw [addBinsTouched, addBins, erase_bind, erase_note, pure_bind]
    by_cases hroom : buf.head.cnt.toNat < MAX_PARTITION_CNT
    · rw [dif_pos hroom, dif_pos hroom]
      exact addBinsTouched_erase ws _
    · rw [dif_neg hroom, dif_neg hroom]
      rfl

theorem writeInjectedTouched_erase (fuel : Nat) (h : Host) (infw : List UInt8) (bins : List FwpkgBinInfo)
    (wobjs : List Wobj) (buf : InjectBuf) :
    erase (writeInjectedTouched fuel h infw bins wobjs buf) = writeInjected fuel h infw bins wobjs buf := by
  unfold writeInjectedTouched writeInjected
  cases bins <;> simp only [erase_bind, erase_quiet, erase_ite, erase_pure, erase_note, pure_bind]

/-- **Without its notes** it is `verb_inject`. -/
theorem verbInjectTouched_erase (fuel : Nat) (h : Host) (stack : StackRecs) (args : List CStr) :
    erase (verbInjectTouched fuel h stack args) = verbInject fuel h stack args := by
  unfold verbInjectTouched verbInject
  cases (args.drop 1).mapM (parseWobj h false) with
  | error r  => rfl
  | ok wobjs =>
    cases args[0]? with
    | none      => rfl
    | some path =>
      cases hopen : h.fopen path with
      | error e => simp only [hopen]; rfl
      | ok infw =>
        simp only [hopen, erase_bind, erase_quiet]
        congr 1
        funext o
        cases o with
        | none        => rfl
        | some header =>
          cases hbins : fwpkgReadBinInfos infw header with
          | none      => simp only [hbins]; rfl
          | some bins =>
            simp only [hbins, erase_bind, erase_note, pure_bind]
            by_cases hroom : bins.length ≤ MAX_PARTITION_CNT
            · simp only [dif_pos hroom, erase_bind, addBinsTouched_erase, writeInjectedTouched_erase]
            · simp only [dif_neg hroom, erase_quiet]

/-! ## The records used -/

theorem InjectBuf.push_cnt (buf : InjectBuf) (nb : FwpkgBinInfo) (hroom : buf.head.cnt.toNat < MAX_PARTITION_CNT) :
    (buf.push nb).head.cnt.toNat = buf.head.cnt.toNat + 1 := cnt_succ hroom

/-- **The records of the files** are written one after the other from the count on, up to the first that is not there. -/
theorem addBinsTouched_notes (io : FileIo) : ∀ (ws : List Wobj) (buf : InjectBuf) (o : Nat) (l : List FileEv),
    buf.head.cnt.toNat ≤ MAX_PARTITION_CNT → notes (addBinsTouched ws (buf, o)) io l =
      (List.range' buf.head.cnt.toNat (min ws.length (MAX_PARTITION_CNT + 1 - buf.head.cnt.toNat))).map .buf
  | [], buf, o, l, hle      => by
    rw [List.length_nil, Nat.zero_min]
    rfl
  | w :: ws, buf, o, l, hle => by
    have hmin : min (w :: ws).length (MAX_PARTITION_CNT + 1 - buf.head.cnt.toNat)
        = min ws.length (MAX_PARTITION_CNT - buf.head.cnt.toNat) + 1 := by
      rw [List.length_cons]
      omega
    rw [hmin, List.range'_succ, List.map_cons, addBinsTouched, notes_note_bind]
    by_cases hroom : buf.head.cnt.toNat < MAX_PARTITION_CNT
    · have hnext := buf.push_cnt (newBin (buf.at buf.head.cnt.toNat hroom) w o) hroom
      rw [dif_pos hroom]
      dsimp only
      rw [addBinsTouched_notes io ws _ _ l (by omega), hnext, Nat.add_sub_add_right]
      rfl
    · have hfull : MAX_PARTITION_CNT - buf.head.cnt.toNat = 0 := by omega
      rw [dif_neg hroom, hfull, Nat.min_zero]
      rfl

theorem copyTouches_inRange {n : Nat} (hn : n ≤ MAX_PARTITION_CNT) : ∀ x ∈ copyTouches n, x.InRange n := by
  intro x hx
  rcases List.mem_append.1 hx with hx | hx
  · obtain ⟨i, hi, hx⟩ := List.mem_flatMap.1 hx
    have hlt := List.mem_range.1 hi
    rcases List.mem_pair.1 hx with rfl | rfl
    · exact hlt
    · exact Nat.lt_of_lt_of_le hlt hn
  · obtain ⟨i, hi, rfl⟩ := List.mem_map.1 hx
    exact Nat.lt_of_lt_of_le (List.mem_range.1 hi) hn

theorem addBinsTouched_inRange {ws : List Wobj} {buf : InjectBuf} (cnt o : Nat)
    (hle : buf.head.cnt.toNat + ws.length ≤ MAX_PARTITION_CNT) : All (Touch.InRange cnt) (addBinsTouched ws (buf, o)) := by
  intro io l x hx
  rw [addBinsTouched_notes io ws buf o l (by omega)] at hx
  obtain ⟨i, hi, rfl⟩ := List.mem_map.1 hx
  obtain ⟨_, hlt⟩ := List.mem_range'_1.1 hi
  show i < MAX_PARTITION_CNT
  omega

theorem all_check {P : Touch → Prop} (m : FileProc Int) {k : TouchProc Int} (hk : All P k) :
    All P (do let ret ← quiet m; if ret ≠ 0 then return 1 else k) := by
  exact (All.quiet m).bind (fun ret => All.ite (All.pure _) hk)

theorem writeInjectedTouched_inRange (fuel : Nat) (h : Host) (infw : List UInt8) (bins : List FwpkgBinInfo)
    (wobjs : List Wobj) (buf : InjectBuf) {cnt : Nat} (hcnt : 0 < cnt) :
    All (Touch.InRange cnt) (writeInjectedTouched fuel h infw bins wobjs buf) := by
  apply all_check
  apply all_check
  apply all_check
  refine (All.note (fun x hx => ?_)).bind (fun _ => ?_)
  · rw [List.mem_singleton.1 hx]
    exact hcnt
  · cases bins with
    | nil           => exact All.quiet _
    | cons bin bins => exact all_check _ (All.quiet _)

/-- What a run that goes well notes after a call. -/
theorem mem_notes_check {m : FileProc Int} {k : TouchProc Int} {io : FileIo} {l : List FileEv} {x : Touch}
    (hm : Sat m io l (fun o _ => ∃ r, o = .ret r ∧ r = 0)) (hk : ∀ l, x ∈ notes k io l) :
    x ∈ notes (do let ret ← quiet m; if ret ≠ 0 then return 1 else k) io l := by
  obtain ⟨r, hr, rfl⟩ := hm
  apply notes_bind_right (m := quiet m) hr
  rw [if_neg (fun h => h rfl)]
  exact hk _

/-- When no call fails, the first record is read. -/
theorem writeInjectedTouched_first {fuel : Nat} (h : Host) (infw : List UInt8) (bins : List FwpkgBinInfo)
    (wobjs : List Wobj) {buf : InjectBuf} (hend : buf.tableEnd < fuel) (l : List FileEv) :
    .bins 0 ∈ notes (writeInjectedTouched fuel h infw bins wobjs buf) goodIo l := by
  apply mem_notes_check (checkedFwrite_whole goodIo_writes _ _)
  intro l
  apply mem_notes_check (checkedFwrite_whole goodIo_writes _ _)
  intro l
  apply mem_notes_check (padGap_good hend _)
  intro l
  exact notes_bind_left _ List.mem_cons_self

section

variable {h : Host} {args : List CStr} {wobjs : List Wobj} {infw : List UInt8} {header : FwpkgHeader}
  {bins : List FwpkgBinInfo}

theorem Injects.touched (hi : Injects h args wobjs infw header bins) (fuel : Nat) (stack : StackRecs) :
    verbInjectTouched fuel h stack args = note (copyTouches header.cnt.toNat) >>= fun _ =>
      addBinsTouched wobjs (shiftBins header bins wobjs.length stack hi.room,
        infw.length + binInfoSize * wobjs.length) >>= fun s =>
          writeInjectedTouched fuel h infw bins (cutNames wobjs) s.1.sealed := by
  obtain ⟨path, hpath, hopen⟩ := hi.opened
  have hroom := hi.room
  unfold verbInjectTouched
  simp only [hi.parsed, hpath, hopen, hi.accepted.head]
  apply (quiet_pure_bind (some header) _).trans
  simp only [hi.accepted.infos, dif_pos hroom]

/-- Every record that `verb_inject` uses is there, in every run, for a package of `cnt` records. -/
def TouchesInRange (h : Host) (args : List CStr) (cnt : Nat) : Prop :=
  ∀ (fuel : Nat) (stack : StackRecs), All (Touch.InRange cnt) (verbInjectTouched fuel h stack args)

theorem Injects.inRange (hi : Injects h args wobjs infw header bins) (hpos : 0 < bins.length)
    (hle : bins.length + wobjs.length ≤ MAX_PARTITION_CNT) : TouchesInRange h args bins.length := by
  intro fuel stack
  have hroom := hi.room
  rw [hi.accepted.length_bins] at hpos hle hroom ⊢
  rw [hi.touched fuel stack]
  refine (All.note (copyTouches_inRange hroom)).bind (fun _ => ?_)
  refine (addBinsTouched_inRange _ _ hle).bind (fun s => ?_)
  exact writeInjectedTouched_inRange fuel h infw bins _ _ hpos

/-- **Too many records**: every run writes one after the last of the buffer. -/
theorem Injects.touches_past (hi : Injects h args wobjs infw header bins)
    (hlt : MAX_PARTITION_CNT < bins.length + wobjs.length) (fuel : Nat) (stack : StackRecs) (io : FileIo)
    (l : List FileEv) : .buf MAX_PARTITION_CNT ∈ notes (verbInjectTouched fuel h stack args) io l := by
  have hcnt := hi.accepted.length_bins
  have hroom := hi.room
  rw [hi.touched fuel stack, notes_note_bind]
  apply List.mem_append_right
  apply notes_bind_left
  rw [addBinsTouched_notes io wobjs _ _ l (by show header.cnt.toNat ≤ _; omega)]
  refine List.mem_map.2 ⟨MAX_PARTITION_CNT, List.mem_range'_1.2 ?_, rfl⟩
  show header.cnt.toNat ≤ _ ∧ _ < header.cnt.toNat + min _ (_ - header.cnt.toNat)
  omega

/-- **Room for the records**: some run reads the first of `bins`, whether there is one or not. -/
theorem Injects.touches_first (hi : Injects h args wobjs infw header bins)
    (hle : bins.length + wobjs.length ≤ MAX_PARTITION_CNT) (stack : StackRecs) (l : List FileEv) :
    ∃ fuel, .bins 0 ∈ notes (verbInjectTouched fuel h stack args) goodIo l := by
  obtain ⟨buf, o, hadd, _⟩ := addBins_ret wobjs (shiftBins header bins wobjs.length stack hi.room)
    (infw.length + binInfoSize * wobjs.length) _ rfl (by
      show header.cnt.toNat + _ ≤ _
      rw [← hi.accepted.length_bins]
      exact hle)
  refine ⟨buf.sealed.tableEnd + 1, ?_⟩
  rw [hi.touched _ stack, notes_note_bind]
  apply List.mem_append_right
  refine notes_bind_right (a := (buf, o)) ?_ (writeInjectedTouched_first h infw bins _ (Nat.lt_succ_self _) _)
  rw [addBinsTouched_erase, hadd]
  rfl

/-- **Otherwise not**: one run at least uses a record that is not there. -/
theorem Injects.not_inRange (hi : Injects h args wobjs infw header bins)
    (hbad : ¬ (0 < bins.length ∧ bins.length + wobjs.length ≤ MAX_PARTITION_CNT)) :
    ¬ TouchesInRange h args bins.length := by
  intro hall
  by_cases hle : bins.length + wobjs.length ≤ MAX_PARTITION_CNT
  · obtain ⟨fuel, hmem⟩ := hi.touches_first hle zeroStack []
    exact hbad ⟨hall fuel zeroStack goodIo [] _ hmem, hle⟩
  · have hmem := hi.touches_past (Nat.lt_of_not_le hle) 0 zeroStack goodIo []
    exact Nat.lt_irrefl _ (hall 0 zeroStack goodIo [] _ hmem)

end

/-- **When every record is there**: when the package has one, and the buffer has room for these and for those of the
files. -/
theorem verbInject_inRange_iff {h : Host} {args : List CStr} {path : CStr} {infw : List UInt8} {header : FwpkgHeader}
    {bins : List FwpkgBinInfo} (hpath : args[0]? = some path) (hopen : h.fopen path = .ok infw)
    (hacc : Accepted infw header bins) :
    TouchesInRange h args header.cnt.toNat ↔
      ∀ wobjs, (args.drop 1).mapM (parseWobj h false) = .ok wobjs →
        1 ≤ header.cnt.toNat ∧ header.cnt.toNat + (args.length - 1) ≤ MAX_PARTITION_CNT := by
  rw [← hacc.length_bins]
  cases hparse : (args.drop 1).mapM (parseWobj h false) with
  | error r =>
    have hrun : ∀ fuel stack, verbInjectTouched fuel h stack args = pure r := fun fuel stack => by
      unfold verbInjectTouched
      rw [hparse]
    refine ⟨fun _ _ hw => (nomatch hw), fun _ fuel stack => ?_⟩
    rw [hrun]
    exact All.pure r
  | ok wobjs =>
    have hi : Injects h args wobjs infw header bins := ⟨hparse, ⟨path, hpath, hopen⟩, hacc⟩
    have hlen := length_mapM_parseWobj hparse
    rw [List.length_drop] at hlen
    rw [← hlen]
    constructor
    · intro hall wobjs' hw
      by_cases hok : 0 < bins.length ∧ bins.length + wobjs.length ≤ MAX_PARTITION_CNT
      · exact hok
      · exact absurd hall (hi.not_inRange hok)
    · intro hok
      obtain ⟨hpos, hle⟩ := hok wobjs rfl
      exact hi.inRange hpos hle

theorem verbInject_inRange_sample : TouchesInRange (hostWith (injectTable samplePkg)) injectArgs 2 :=
  (verbInject_inRange_iff (h := hostWith (injectTable samplePkg)) rfl rfl samplePkg_accepted).2
    (fun _ _ => by decide)

/-- `--inject p`, and `c@0` fifteen times. -/
def fifteenArgs : List CStr := fileP :: List.replicate 15 (atAddr fileC false 0)

/-- The header of a package without a record. -/
def emptyHeader : FwpkgHeader := ⟨0xefbeaddf, 20274, 0, 12⟩

def emptyPkg : List UInt8 := emptyHeader.bytes

theorem emptyPkg_accepted : Accepted emptyPkg emptyHeader [] := ⟨by decide +kernel, by decide +kernel⟩

theorem fifteenArgs_parsed : (fifteenArgs.drop 1).mapM (parseWobj (hostWith (injectTable samplePkg)) false)
    = .ok (List.replicate 15 ⟨fileC, 1, 0⟩) :=
  mapM_parseWobj_replicate (parseWobj_atAddr false false (by decide) rfl (by decide)) 15

/-- **Seventeen records**, and a package **without one**. -/
theorem verbInject_outOfRange : ¬ TouchesInRange (hostWith (injectTable samplePkg)) fifteenArgs 2 ∧
    ¬ TouchesInRange (hostWith (injectTable emptyPkg)) injectArgs 0 := by
  constructor
  · have hi : Injects (hostWith (injectTable samplePkg)) fifteenArgs _ samplePkg sampleHeader sampleBins :=
      ⟨fifteenArgs_parsed, ⟨_, rfl, rfl⟩, samplePkg_accepted⟩
    exact hi.not_inRange (by decide)
  · have hi : Injects (hostWith (injectTable emptyPkg)) injectArgs _ emptyPkg emptyHeader [] :=
      ⟨injectArgs_parsed emptyPkg, ⟨_, rfl, rfl⟩, emptyPkg_accepted⟩
    exact hi.not_inRange (by decide)

end Ws63Flash
