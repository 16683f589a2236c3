import Ws63Flash.FlashTrace
import Ws63Flash.Lib.Noted
/-!
# NameReads — what `verb_flash` reads of the names

A name is a field of 32 bytes from the file, and it is used as a string: printed, compared and passed on.  `verb_flash`
with notes of the bytes read: a string function stops at the NUL, so one that has none is read past its field, first
when the plan is printed (`verbFlash_names_iff`).  It goes on there in the rest of the table.
-/
namespace Ws63Flash

open Octets Proc Noted

/-- A byte of a record's name that is read, or one past it. -/
structure NameRead where
  bin : FwpkgBinInfo
  offset : Nat

def NameRead.InField (x : NameRead) : Prop := x.offset < 32

abbrev NameProc (α : Type) : Type := Noted Device Ev NameRead α

/-! ## String functions -/

/-- The name is read up to its byte `n`; `bs` is the table from the record on.  What lies past the table is left open. -/
def readName (bin : FwpkgBinInfo) (bs : List UInt8) (n : Nat) : NameProc Unit := do
  note ((List.range (n + 1)).map (NameRead.mk bin))
  if n < bs.length then return () else quiet (Proc.halt .undefined)

/-- `printf`, `strncpy` and `strlen` read a string with its NUL. -/
def readStr (bin : FwpkgBinInfo) (bs : List UInt8) : NameProc Unit := readName bin bs (CStr.ofField bs).strlen

/-- How many bytes of the string that starts `bs` are those of `arg`. -/
def sameBytes (arg : CStr) (bs : List UInt8) : Nat :=
  ((bs.zip (arg.bytes ++ [0])).takeWhile (fun p => p.1 = p.2 ∧ p.1 ≠ 0)).length

/-- `!strcmp(arg, bin->name)` reads the bytes that are the same, and the one after them. -/
def strcmpName (arg : CStr) (bin : FwpkgBinInfo) (bs : List UInt8) : NameProc Bool := do
  readName bin bs (sameBytes arg bs)
  return decide (arg = CStr.ofField bs)

/-! ## `verb_flash` with the notes -/

/-- The loop of `bin_in_args`. -/
def binAmong (bin : FwpkgBinInfo) (bs : List UInt8) : List CStr → NameProc Bool
  | []          => return false
  | arg :: args => do
    let found ← strcmpName arg bin bs
    if found then return true else binAmong bin bs args

def binInArgsNames (bin : FwpkgBinInfo) (bs : List UInt8) (a : Args) : NameProc Bool :=
  if a.args.drop 2 = [] then return true else binAmong bin bs (a.args.drop 2)

/-- `flash_flag`: the record is marked in the plan. -/
def flashFlagNames (bin : FwpkgBinInfo) (bs : List UInt8) (a : Args) : NameProc Bool :=
  if bin.type2 = 0 then return true else binInArgsNames bin bs a

/-- The loop that prints the plan. -/
def printPlan (a : Args) : List FwpkgBinInfo → NameProc Unit
  | []          => return ()
  | bin :: bins => do
    let _ ← flashFlagNames bin (fromRecord bin bins) a
    readStr bin (fromRecord bin bins)
    printPlan a bins

/-- The inner loop of the check of the names. -/
def findName (arg : CStr) : List FwpkgBinInfo → NameProc Bool
  | []          => return false
  | bin :: bins => do
    let found ← strcmpName arg bin (fromRecord bin bins)
    if found then return true else findName arg bins

/-- The check of the names: each is one of the package's. -/
def checkNames (bins : List FwpkgBinInfo) : List CStr → NameProc Bool
  | []          => return true
  | arg :: args => do
    let found ← findName arg bins
    if found then checkNames bins args else return false

/-- `ymodem_xfer` from its block 0 on. -/
def xferBlks (fuel : Nat) (f : List UInt8) (fn : CStr) (len : Nat) : Tty Int := do
  let ret ← ymodemBlkTimedXmit fuel (blk0 fn len)
  if ret < 0 then return ret
  else
    let ret ← xferData fuel len f
    if ret ≠ 0 then return ret
    else
      let ret ← xferEot fuel
      if ret < 0 then return ret
      else
        let ret ← ymodemBlkTimedXmit fuel blkEnd
        if ret < 0 then return ret
        else return EXIT_SUCCESS

/-- The body of `ymodem_xfer`; `printf`, `strncpy` and `strlen`, twice, read the name. -/
def xferNames (fuel : Nat) (f : List UInt8) (bin : FwpkgBinInfo) (bs : List UInt8) (len : Nat) : NameProc Int := do
  let ret ← quiet (waitC fuel)
  if ret < 0 then return ret
  else
    readStr bin bs
    readStr bin bs
    readStr bin bs
    readStr bin bs
    quiet (xferBlks fuel f (CStr.ofField bs) len)

def ymodemXferNames (fuel : Nat) (f : List UInt8) (bin : FwpkgBinInfo) (bs : List UInt8) (len : Nat) : NameProc Int := do
  let r ← xferNames fuel f bin bs len
  quiet (mark .ymodemXfer r)
  return r

def flashFilesNames (fuel : Nat) (a : Args) (fw : List UInt8) : List FwpkgBinInfo → NameProc Int
  | []          => return 0
  | bin :: bins =>
    if bin.type2 ≠ 1 then flashFilesNames fuel a fw bins
    else do
      let found ← binInArgsNames bin (fromRecord bin bins) a
      if ¬ found then flashFilesNames fuel a fw bins
      else
        let ret ← quiet (ws63SendCmddef fuel (downloadCmd bin.burnAddr bin.length (erasSize bin.length.toNat)))
        if ret < 0 then return EXIT_FAILURE
        else
          let _ ← quiet (uartReadUntilMagic fuel)
          let ret ← ymodemXferNames fuel (fw.drop bin.offset.toNat) bin (fromRecord bin bins) bin.length.toNat
          if ret < 0 then return EXIT_FAILURE
          else flashFilesNames fuel a fw bins

/-- `verb_flash` from the plan on. -/
def flashNames (fuel : Nat) (a : Args) (fw : List UInt8) (bins : List FwpkgBinInfo) (loaderboot : FwpkgBinInfo) :
    NameProc Int := do
  printPlan a bins
  let found ← checkNames bins (a.args.drop 2)
  if ¬ found then return EXIT_FAILURE
  else
    let ret ← quiet (handshakeLoop fuel a)
    if ret ≠ 0 then return ret
    else
      -- the name of a record of type 0 ends in it, whatever follows
      let ret ← ymodemXferNames fuel (fw.drop loaderboot.offset.toNat) loaderboot loaderboot.bytes loaderboot.length.toNat
      if ret < 0 then return EXIT_FAILURE
      else
        let _ ← quiet (uartReadUntilMagic fuel)
        let ret ← quiet (switchBaud fuel a)
        if ret ≠ 0 then return ret
        else
          let ret ← flashFilesNames fuel a fw bins
          if ret ≠ 0 then return ret
          else
            let _ ← quiet (ws63PollReset fuel)
            return 0

def verbFlashNames (fuel : Nat) (h : Host) (a : Args) : NameProc Int :=
  match a.args[1]? with
  | none      => quiet (Proc.halt .undefined)
  | some path =>
    match h.fopen path with
    | .error _ => return EXIT_FAILURE
    | .ok fw   => do
      match ← quiet (Proc.lift (fwpkgReadHeader fw)) with
      | none        => return EXIT_FAILURE
      | some header =>
        match fwpkgReadBinInfos fw header with
        | none      => return EXIT_FAILURE
        | some bins =>
          match findLoaderboot bins with
          | none            => return EXIT_FAILURE
          | some loaderboot => flashNames fuel a fw bins loaderboot

/-! ## Names that end -/

/-- `strcmp` stops at the NUL at the latest. -/
theorem sameBytes_le (arg : CStr) (bs : List UInt8) : sameBytes arg bs ≤ (CStr.ofField bs).strlen := by
  show _ ≤ (bs.takeWhile (fun b => b ≠ 0)).length
  unfold sameBytes
  generalize arg.bytes ++ [0] = cs
  induction bs generalizing cs with
  | nil => exact Nat.zero_le _
  | cons b bs ih =>
    cases cs with
    | nil => exact Nat.zero_le _
    | cons c cs =>
      rw [List.zip_cons_cons, List.takeWhile_cons]
      split
      · rename_i hp
        rw [decide_eq_true_eq] at hp
        rw [List.takeWhile_cons, if_pos (by rw [decide_eq_true_eq]; exact hp.2), List.length_cons, List.length_cons]
        exact Nat.succ_le_succ (ih cs)
      · exact Nat.zero_le _

theorem fromRecord_named {bin : FwpkgBinInfo} (h : 0 ∈ bin.name) (bins : List FwpkgBinInfo) :
    CStr.ofField (fromRecord bin bins) = CStr.ofField bin.name := by
  rw [fromRecord, CStr.ofField_append (nul_of_named h), ← str_of_named h, FwpkgBinInfo.str]

/-- A name that ends in its field. -/
theorem strlen_named {bin : FwpkgBinInfo} (h : 0 ∈ bin.name) (bins : List FwpkgBinInfo) :
    (CStr.ofField (fromRecord bin bins)).strlen < 32 := by
  rw [fromRecord_named h, ← bin.name_length]
  exact CStr.strlen_ofField_lt.2 h

/-- A name that does not is read to its end and past it. -/
theorem strlen_unnamed {bin : FwpkgBinInfo} (h : 0 ∉ bin.name) (bins : List FwpkgBinInfo) :
    32 ≤ (CStr.ofField (fromRecord bin bins)).strlen := by
  show 32 ≤ ((fromRecord bin bins).takeWhile (fun b => b ≠ 0)).length
  have hall : ∀ b ∈ bin.name, decide (b ≠ 0) = true := fun b hb => by
    rw [decide_eq_true_eq]
    rintro rfl
    exact h hb
  unfold fromRecord FwpkgBinInfo.bytes
  simp only [List.append_assoc]
  rw [List.takeWhile_append_of_pos hall, List.length_append, bin.name_length]
  exact Nat.le_add_right _ _

/-! ## It is `verb_flash` -/

theorem readName_erase {bin : FwpkgBinInfo} {bs : List UInt8} {n : Nat} (h : n < bs.length) :
    erase (readName bin bs n) = pure () := by
  rw [readName, if_pos h]
  rfl

theorem readStr_erase {bin : FwpkgBinInfo} {bs : List UInt8} (h : 0 ∈ bs) : erase (readStr bin bs) = pure () :=
  readName_erase (CStr.strlen_ofField_lt.2 h)

theorem strcmpName_erase {arg : CStr} {bin : FwpkgBinInfo} {bs : List UInt8} (h : 0 ∈ bs) :
    erase (strcmpName arg bin bs) = pure (decide (arg = CStr.ofField bs)) := by
  rw [strcmpName, erase_bind, readName_erase (Nat.lt_of_le_of_lt (sameBytes_le arg bs) (CStr.strlen_ofField_lt.2 h))]
  rfl

theorem binAmong_erase {bin : FwpkgBinInfo} {bs : List UInt8} (h : 0 ∈ bs) : ∀ args : List CStr,
    erase (binAmong bin bs args) = pure (decide (CStr.ofField bs ∈ args))
  | []          => rfl
  | arg :: args => by
    have ih : erase (binAmong bin bs args) = pure (decide (CStr.ofField bs ∈ args)) := binAmong_erase h args
    rw [binAmong, erase_bind, strcmpName_erase h]
    apply (pure_bind _ _).trans
    by_cases heq : arg = CStr.ofField bs
    · simp [heq]
    · have hne : ¬ CStr.ofField bs = arg := fun he => heq he.symm
      simp [heq, hne, ih]

theorem binInArgsNames_erase {bin : FwpkgBinInfo} {bs : List UInt8} (h : 0 ∈ bs) (a : Args) :
    erase (binInArgsNames bin bs a) = pure (binInArgs (CStr.ofField bs) a) := by
  unfold binInArgsNames binInArgs
  by_cases hnil : a.args.drop 2 = []
  · rw [if_pos hnil, decide_eq_true (Or.inl hnil)]
    rfl
  · rw [if_neg hnil, binAmong_erase h]
    simp [hnil]

theorem findName_erase (arg : CStr) : ∀ {bins : List FwpkgBinInfo}, NamesEnd bins →
    erase (findName arg bins) = pure (decide (arg ∈ tableNames bins))
  | [], _             => rfl
  | bin :: bins, hend => by
    have ih := findName_erase arg hend.2
    rw [findName, erase_bind, strcmpName_erase hend.1, tableNames]
    apply (pure_bind _ _).trans
    by_cases heq : arg = CStr.ofField (fromRecord bin bins)
    · simp [heq]
    · simp [heq, ih]

theorem checkNames_erase {bins : List FwpkgBinInfo} (hend : NamesEnd bins) : ∀ args : List CStr,
    erase (checkNames bins args) = pure (decide (∀ arg ∈ args, arg ∈ tableNames bins))
  | []          => by simp [checkNames]
  | arg :: args => by
    have ih := checkNames_erase hend args
    rw [checkNames, erase_bind, findName_erase arg hend]
    apply (pure_bind _ _).trans
    by_cases hfound : arg ∈ tableNames bins
    · simp [hfound, ih]
    · simp [hfound]

theorem printPlan_erase (a : Args) : ∀ {bins : List FwpkgBinInfo}, NamesEnd bins → erase (printPlan a bins) = pure ()
  | [], _             => rfl
  | bin :: bins, hend => by
    rw [printPlan, erase_bind, flashFlagNames, erase_ite, binInArgsNames_erase hend.1, erase_pure, ← apply_ite pure]
    apply (pure_bind _ _).trans
    rw [erase_bind, readStr_erase hend.1]
    apply (pure_bind _ _).trans
    exact printPlan_erase a hend.2

/-- What is transferred has NULs in its record. -/
theorem ymodemXferNames_erase (fuel : Nat) (f : List UInt8) {bin : FwpkgBinInfo} (len : Nat) (rest : List UInt8)
    (h : 0 ∈ bin.bytes) : erase (ymodemXferNames fuel f bin (bin.bytes ++ rest) len) = ymodemXfer fuel f bin.str len := by
  have hbody : erase (xferNames fuel f bin (bin.bytes ++ rest) len) = (do
      let ret ← waitC fuel
      if ret < 0 then return ret else xferBlks fuel f bin.str len) := by
    unfold xferNames
    simp only [erase_bind, erase_quiet, erase_ite, erase_pure, readStr_erase (List.mem_append_left rest h), pure_bind,
      CStr.ofField_append h, FwpkgBinInfo.str]
  rw [ymodemXferNames, erase_bind, hbody]
  rfl

theorem flashFilesNames_erase (fuel : Nat) (a : Args) (fw : List UInt8) : ∀ bins : List FwpkgBinInfo,
    erase (flashFilesNames fuel a fw bins) = flashFiles fuel a fw bins
  | []          => rfl
  | bin :: bins => by
    have ih := flashFilesNames_erase fuel a fw bins
    rw [flashFilesNames, flashFiles]
    split
    · exact ih
    · rename_i htype
      have hnul := nul_of_type2 (Or.inr (Classical.not_not.1 htype))
      have hstr : CStr.ofField (fromRecord bin bins) = bin.str := CStr.ofField_append hnul _
      have hmem : 0 ∈ fromRecord bin bins := List.mem_append_left _ hnul
      rw [erase_bind, binInArgsNames_erase hmem, hstr]
      apply (pure_bind _ _).trans
      unfold fromRecord
      simp only [erase_bind, erase_quiet, erase_ite, erase_pure, ymodemXferNames_erase _ _ _ _ hnul, ih]

/-! ## Names that do not end in their fields -/

/-- The process reads past a field, whatever the device does. -/
def Past {α : Type} (m : NameProc α) : Prop := ∀ d l, ∃ x ∈ notes m d l, ¬ x.InField

/-- It does nothing but read past the table. -/
structure Overruns {α : Type} (m : NameProc α) : Prop where
  halts : erase m = Proc.halt .undefined
  past : Past m

theorem Past.left {α β : Type} {m : NameProc α} (h : Past m) (k : α → NameProc β) : Past (m >>= k) := by
  intro d l
  obtain ⟨x, hx, hout⟩ := h d l
  exact ⟨x, notes_bind_left k hx, hout⟩

theorem Past.right {α β : Type} {m : NameProc α} {k : α → NameProc β} {a : α} (hm : erase m = pure a) (h : Past (k a)) :
    Past (m >>= k) := by
  intro d l
  obtain ⟨x, hx, hout⟩ := h d l
  refine ⟨x, notes_bind_right (a := a) ?_ ?_, hout⟩
  · rw [hm]
    rfl
  · rw [hm]
    show x ∈ notes (k a) d (l ++ [])
    rw [List.append_nil]
    exact hx

theorem Overruns.left {α β : Type} {m : NameProc α} (h : Overruns m) (k : α → NameProc β) : Overruns (m >>= k) := by
  refine ⟨?_, h.past.left k⟩
  rw [erase_bind, h.halts]
  rfl

theorem Overruns.right {α β : Type} {m : NameProc α} {k : α → NameProc β} {a : α} (hm : erase m = pure a)
    (h : Overruns (k a)) : Overruns (m >>= k) := by
  refine ⟨?_, Past.right hm h.past⟩
  rw [erase_bind, hm]
  exact (pure_bind a _).trans h.halts

theorem readName_past {bin : FwpkgBinInfo} (bs : List UInt8) {n : Nat} (h : 32 ≤ n) : Past (readName bin bs n) := by
  refine fun d l => ⟨⟨bin, n⟩, ?_, Nat.not_lt_of_le h⟩
  rw [readName, notes_note_bind]
  exact List.mem_append_left _ (List.mem_map.2 ⟨n, List.mem_range.2 (Nat.lt_succ_self n), rfl⟩)

theorem fromRecord_length (bin : FwpkgBinInfo) (bins : List FwpkgBinInfo) : 32 ≤ (fromRecord bin bins).length := by
  rw [fromRecord, List.length_append, FwpkgBinInfo.bytes_length]
  exact Nat.le_trans (show 32 ≤ binInfoSize by decide) (Nat.le_add_right _ _)

theorem readName_overruns (bin : FwpkgBinInfo) {bs : List UInt8} (hbs : 32 ≤ bs.length) {n : Nat} (h : ¬ n < bs.length) :
    Overruns (readName bin bs n) := by
  refine ⟨?_, readName_past bs (Nat.le_trans hbs (Nat.le_of_not_lt h))⟩
  rw [readName, if_neg h]
  rfl

theorem strcmpName_cases (arg : CStr) (bin : FwpkgBinInfo) {bs : List UInt8} (hbs : 32 ≤ bs.length) :
    (∃ b, erase (strcmpName arg bin bs) = pure b) ∨ Overruns (strcmpName arg bin bs) := by
  by_cases hlt : sameBytes arg bs < bs.length
  · refine Or.inl ⟨decide (arg = CStr.ofField bs), ?_⟩
    rw [strcmpName, erase_bind, readName_erase hlt]
    rfl
  · exact Or.inr ((readName_overruns bin hbs hlt).left _)

theorem binAmong_cases (bin : FwpkgBinInfo) {bs : List UInt8} (hbs : 32 ≤ bs.length) : ∀ args : List CStr,
    (∃ b, erase (binAmong bin bs args) = pure b) ∨ Overruns (binAmong bin bs args)
  | []          => Or.inl ⟨false, rfl⟩
  | arg :: args => by
    rcases strcmpName_cases arg bin hbs with ⟨b, hb⟩ | hover
    · cases b with
      | true =>
        refine Or.inl ⟨true, ?_⟩
        rw [binAmong, erase_bind, hb]
        rfl
      | false =>
        rcases binAmong_cases bin hbs args with ⟨b', hb'⟩ | hover
        · refine Or.inl ⟨b', ?_⟩
          rw [binAmong, erase_bind, hb]
          exact (pure_bind false _).trans hb'
        · exact Or.inr (Overruns.right hb hover)
    · exact Or.inr (hover.left _)

theorem flashFlagNames_cases (bin : FwpkgBinInfo) {bs : List UInt8} (hbs : 32 ≤ bs.length) (a : Args) :
    (∃ b, erase (flashFlagNames bin bs a) = pure b) ∨ Overruns (flashFlagNames bin bs a) := by
  unfold flashFlagNames binInArgsNames
  split
  · exact Or.inl ⟨true, rfl⟩
  · split
    · exact Or.inl ⟨true, rfl⟩
    · exact binAmong_cases bin hbs _

/-- **Printing the plan** reads past the first name that does not end in its field. -/
theorem printPlan_past (a : Args) : ∀ {bins : List FwpkgBinInfo}, (∃ bin ∈ bins, 0 ∉ bin.name) → Past (printPlan a bins)
  | [], ⟨_, hbin, _⟩  => absurd hbin List.not_mem_nil
  | bin :: bins, hbad => by
    have hbs := fromRecord_length bin bins
    rw [printPlan]
    rcases flashFlagNames_cases bin hbs a with ⟨b, hb⟩ | hover
    · apply Past.right hb
      by_cases hname : 0 ∈ bin.name
      · apply Past.right (readStr_erase (List.mem_append_left _ (nul_of_named hname)))
        obtain ⟨bin', hbin', hn⟩ := hbad
        rcases List.mem_cons.1 hbin' with rfl | hbin'
        · exact absurd hname hn
        · exact printPlan_past a ⟨bin', hbin', hn⟩
      · exact (readName_past _ (strlen_unnamed hname bins)).left _
    · exact hover.past.left _

/-- It goes past the table at the first name that does not end there. -/
theorem printPlan_overruns (a : Args) : ∀ {bins : List FwpkgBinInfo}, ¬ NamesEnd bins → Overruns (printPlan a bins)
  | [], hends          => absurd trivial hends
  | bin :: bins, hends => by
    have hbs := fromRecord_length bin bins
    rw [printPlan]
    rcases flashFlagNames_cases bin hbs a with ⟨b, hb⟩ | hover
    · apply Overruns.right hb
      by_cases hnul : 0 ∈ fromRecord bin bins
      · apply Overruns.right (readStr_erase hnul)
        exact printPlan_overruns a (fun hrest => hends ⟨hnul, hrest⟩)
      · exact (readName_overruns bin hbs (fun hlt => hnul (CStr.strlen_ofField_lt.1 hlt))).left _
    · exact hover.left _

theorem flashNames_past (fuel : Nat) (a : Args) (fw : List UInt8) {bins : List FwpkgBinInfo} (loaderboot : FwpkgBinInfo)
    (hbad : ∃ bin ∈ bins, 0 ∉ bin.name) : Past (flashNames fuel a fw bins loaderboot) := (printPlan_past a hbad).left _

/-- **Without its notes** it is `verb_flash`. -/
theorem verbFlashNames_erase (fuel : Nat) (h : Host) (a : Args) : erase (verbFlashNames fuel h a) = verbFlash fuel h a := by
  unfold verbFlashNames verbFlash
  cases a.args[1]? with
  | none      => rfl
  | some path =>
    cases hopen : h.fopen path with
    | error e => simp only [hopen]; rfl
    | ok fw   =>
      simp only [hopen, erase_bind, erase_quiet]
      congr 1
      funext o
      cases o with
      | none        => rfl
      | some header =>
        cases hbins : fwpkgReadBinInfos fw header with
        | none      => simp only [hbins]; rfl
        | some bins =>
          simp only [hbins]
          cases hlb : findLoaderboot bins with
          | none            => rfl
          | some loaderboot =>
            dsimp only
            by_cases hends : NamesEnd bins
            · have hlb0 : loaderboot.type2 = 0 := type2_of_findLoaderboot hlb
              have hxfer := ymodemXferNames_erase fuel (fw.drop loaderboot.offset.toNat) loaderboot.length.toNat []
                (nul_of_type2 (Or.inl hlb0))
              rw [List.append_nil] at hxfer
              rw [if_neg (fun h => h hends), flashNames, erase_bind, printPlan_erase a hends]
              apply (pure_bind _ _).trans
              rw [erase_bind, checkNames_erase hends]
              apply (pure_bind _ _).trans
              have hmissing : (∃ arg ∈ a.args.drop 2, arg ∉ tableNames bins) ↔
                  ¬ ∀ arg ∈ a.args.drop 2, arg ∈ tableNames bins := by
                simp
              by_cases hall : ∀ arg ∈ a.args.drop 2, arg ∈ tableNames bins
              · rw [if_neg (fun h => hmissing.1 h hall), decide_eq_true hall]
                simp only [erase_bind, erase_quiet, erase_ite, erase_pure, not_true_eq_false, if_false, hxfer,
                  flashFilesNames_erase]
              · rw [if_pos (hmissing.2 hall), decide_eq_false hall]
                rfl
            · rw [if_pos hends]
              exact ((printPlan_overruns a hends).left _).halts

/-! ## The bytes read -/

theorem readName_inField (bin : FwpkgBinInfo) (bs : List UInt8) {n : Nat} (h : n < 32) :
    All NameRead.InField (readName bin bs n) := by
  refine (All.note (fun x hx => ?_)).bind (fun _ => ?_)
  · obtain ⟨i, hi, rfl⟩ := List.mem_map.1 hx
    exact Nat.lt_of_lt_of_le (List.mem_range.1 hi) h
  · exact All.ite (All.pure _) (All.quiet _)

theorem strcmpName_inField (arg : CStr) (bin : FwpkgBinInfo) {bs : List UInt8} (h : (CStr.ofField bs).strlen < 32) :
    All NameRead.InField (strcmpName arg bin bs) :=
  (readName_inField bin bs (Nat.lt_of_le_of_lt (sameBytes_le arg bs) h)).bind (fun _ => All.pure _)

theorem binAmong_inField (bin : FwpkgBinInfo) {bs : List UInt8} (h : (CStr.ofField bs).strlen < 32) : ∀ args : List CStr,
    All NameRead.InField (binAmong bin bs args)
  | []          => All.pure _
  | arg :: args => by
    refine (strcmpName_inField arg bin h).bind (fun found => ?_)
    exact All.ite (All.pure _) (binAmong_inField bin h args)

theorem binInArgsNames_inField (bin : FwpkgBinInfo) {bs : List UInt8} (h : (CStr.ofField bs).strlen < 32) (a : Args) :
    All NameRead.InField (binInArgsNames bin bs a) := by
  unfold binInArgsNames
  exact All.ite (All.pure _) (binAmong_inField bin h _)

theorem printPlan_inField (a : Args) : ∀ {bins : List FwpkgBinInfo}, (∀ bin ∈ bins, 0 ∈ bin.name) →
    All NameRead.InField (printPlan a bins)
  | [], _           => All.pure _
  | bin :: bins, hn => by
    have hlen := strlen_named (hn bin List.mem_cons_self) bins
    have hflag : All NameRead.InField (flashFlagNames bin (fromRecord bin bins) a) := by
      unfold flashFlagNames
      exact All.ite (All.pure _) (binInArgsNames_inField bin hlen a)
    refine hflag.bind (fun _ => ?_)
    refine (readName_inField bin _ hlen).bind (fun _ => ?_)
    exact printPlan_inField a (fun b hb => hn b (List.mem_cons_of_mem _ hb))

theorem findName_inField (arg : CStr) : ∀ {bins : List FwpkgBinInfo}, (∀ bin ∈ bins, 0 ∈ bin.name) →
    All NameRead.InField (findName arg bins)
  | [], _           => All.pure _
  | bin :: bins, hn => by
    refine (strcmpName_inField arg bin (strlen_named (hn bin List.mem_cons_self) bins)).bind (fun found => ?_)
    exact All.ite (All.pure _) (findName_inField arg (fun b hb => hn b (List.mem_cons_of_mem _ hb)))

theorem checkNames_inField {bins : List FwpkgBinInfo} (hn : ∀ bin ∈ bins, 0 ∈ bin.name) : ∀ args : List CStr,
    All NameRead.InField (checkNames bins args)
  | []          => All.pure _
  | arg :: args => by
    refine (findName_inField arg hn).bind (fun found => ?_)
    exact All.ite (checkNames_inField hn args) (All.pure _)

theorem ymodemXferNames_inField (fuel : Nat) (f : List UInt8) (bin : FwpkgBinInfo) {bs : List UInt8} (len : Nat)
    (h : (CStr.ofField bs).strlen < 32) : All NameRead.InField (ymodemXferNames fuel f bin bs len) := by
  have hread : All NameRead.InField (readStr bin bs) := readName_inField bin bs h
  have hreads : All NameRead.InField (do
      readStr bin bs; readStr bin bs; readStr bin bs; readStr bin bs; quiet (xferBlks fuel f (CStr.ofField bs) len)) :=
    hread.bind (fun _ => hread.bind (fun _ => hread.bind (fun _ => hread.bind (fun _ => All.quiet _))))
  have hbody : All NameRead.InField (xferNames fuel f bin bs len) := by
    refine (All.quiet _).bind (fun ret => ?_)
    exact All.ite (All.pure _) hreads
  refine hbody.bind (fun r => ?_)
  exact (All.quiet _).bind (fun _ => All.pure r)

theorem flashFilesNames_inField (fuel : Nat) (a : Args) (fw : List UInt8) : ∀ {bins : List FwpkgBinInfo},
    (∀ bin ∈ bins, 0 ∈ bin.name) → All NameRead.InField (flashFilesNames fuel a fw bins)
  | [], _           => All.pure _
  | bin :: bins, hn => by
    have hlen := strlen_named (hn bin List.mem_cons_self) bins
    have ih := flashFilesNames_inField fuel a fw (fun b hb => hn b (List.mem_cons_of_mem _ hb))
    rw [flashFilesNames]
    refine All.ite ih ?_
    refine (binInArgsNames_inField bin hlen a).bind (fun found => ?_)
    refine All.ite ih ?_
    refine (All.quiet _).bind (fun ret => ?_)
    refine All.ite (All.pure _) ?_
    refine (All.quiet _).bind (fun _ => ?_)
    refine (ymodemXferNames_inField fuel _ bin _ hlen).bind (fun ret => ?_)
    exact All.ite (All.pure _) ih

theorem flashNames_inField (fuel : Nat) (a : Args) (fw : List UInt8) {bins : List FwpkgBinInfo} {loaderboot : FwpkgBinInfo}
    (hlb : loaderboot ∈ bins) (hn : ∀ bin ∈ bins, 0 ∈ bin.name) :
    All NameRead.InField (flashNames fuel a fw bins loaderboot) := by
  refine (printPlan_inField a hn).bind (fun _ => ?_)
  refine (checkNames_inField hn _).bind (fun found => ?_)
  refine All.ite (All.pure _) ?_
  refine (All.quiet _).bind (fun ret => ?_)
  refine All.ite (All.pure _) ?_
  have hlen := strlen_named (hn _ hlb) []
  rw [fromRecord, List.flatMap_nil, List.append_nil] at hlen
  refine (ymodemXferNames_inField fuel _ loaderboot _ hlen).bind (fun ret => ?_)
  refine All.ite (All.pure _) ?_
  refine (All.quiet _).bind (fun _ => ?_)
  refine (All.quiet _).bind (fun ret => ?_)
  refine All.ite (All.pure _) ?_
  refine (flashFilesNames_inField fuel a fw hn).bind (fun ret => ?_)
  exact All.ite (All.pure _) ((All.quiet _).bind (fun _ => All.pure _))

/-- `verb_flash` reads only bytes of the fields, in every run. -/
def NamesInField (h : Host) (a : Args) : Prop := ∀ fuel : Nat, All NameRead.InField (verbFlashNames fuel h a)

section

variable {h : Host} {a : Args} {path : CStr} {fw : List UInt8} {header : FwpkgHeader} {bins : List FwpkgBinInfo}

theorem verbFlashNames_accepted (hpath : a.args[1]? = some path) (hopen : h.fopen path = .ok fw)
    (hacc : Accepted fw header bins) (fuel : Nat) : verbFlashNames fuel h a = match findLoaderboot bins with
      | none            => return EXIT_FAILURE
      | some loaderboot => flashNames fuel a fw bins loaderboot := by
  unfold verbFlashNames
  simp only [hpath, hopen, hacc.head]
  apply (quiet_pure_bind (some header) _).trans
  simp only [hacc.infos]

theorem not_namesInField (hpath : a.args[1]? = some path) (hopen : h.fopen path = .ok fw)
    (hacc : Accepted fw header bins) (lb : FwpkgBinInfo) (hlb : findLoaderboot bins = some lb)
    (hbad : ∃ bin ∈ bins, 0 ∉ bin.name) : ¬ NamesInField h a := by
  intro hall
  have hrun := verbFlashNames_accepted hpath hopen hacc 0
  rw [hlb] at hrun
  obtain ⟨x, hx, hout⟩ := flashNames_past 0 a fw lb hbad ackDevice []
  have hfield := hall 0 ackDevice [] x
  rw [hrun] at hfield
  exact hout (hfield hx)

/-- **When only the fields are read**: when there is no loaderboot, and the names are not used, or each name has a NUL. -/
theorem verbFlash_names_iff (hpath : a.args[1]? = some path) (hopen : h.fopen path = .ok fw)
    (hacc : Accepted fw header bins) :
    NamesInField h a ↔ (∀ bin ∈ bins, bin.type2 ≠ 0) ∨ ∀ bin ∈ bins, 0 ∈ bin.name := by
  have hrun := verbFlashNames_accepted hpath hopen hacc
  cases hlb : findLoaderboot bins with
  | none =>
    have hnone : ∀ bin ∈ bins, bin.type2 ≠ 0 := by
      intro bin hbin h0
      obtain ⟨lb, hsome⟩ := findLoaderboot_isSome.2 ⟨bin, hbin, h0⟩
      rw [hlb] at hsome
      cases hsome
    refine iff_of_true (fun fuel => ?_) (Or.inl hnone)
    rw [hrun, hlb]
    exact All.pure _
  | some lb =>
    have hmem := mem_of_findLoaderboot hlb
    have htype := type2_of_findLoaderboot hlb
    constructor
    · intro hall
      refine Or.inr (fun bin hbin => ?_)
      by_contra hn
      exact not_namesInField hpath hopen hacc lb hlb ⟨bin, hbin, hn⟩ hall
    · rintro (hnone | hn) fuel
      · exact absurd htype (hnone lb hmem)
      · rw [hrun, hlb]
        exact flashNames_inField fuel a fw hmem hn

end

theorem verbFlash_names_sample : NamesInField (hostOf samplePkg) plainArgs :=
  (verbFlash_names_iff (h := hostOf samplePkg) (a := plainArgs) rfl rfl samplePkg_accepted).2
    (Or.inr samplePkg_wellFormed.named)

/-- A loaderboot whose name takes the whole field. -/
def fullName : FwpkgBinInfo where
  name := List.replicate 32 0x61
  offset := 64
  length := 1
  burnAddr := 0
  burnSize := 0x1000
  type2 := 0
  name_length := List.length_replicate

def fullNameHeader : FwpkgHeader := ⟨0xefbeaddf, 9051, 1, 65⟩

def fullNamePkg : List UInt8 := fullNameHeader.bytes ++ [fullName].flatMap FwpkgBinInfo.bytes ++ [0x41]

theorem fullNamePkg_accepted : Accepted fullNamePkg fullNameHeader [fullName] := ⟨by decide +kernel, by decide +kernel⟩

/-- **A name of 32 bytes** is read past its field. -/
theorem verbFlash_names_past : ¬ NamesInField (hostOf fullNamePkg) plainArgs :=
  not_namesInField rfl rfl fullNamePkg_accepted fullName rfl ⟨fullName, List.mem_cons_self, by decide⟩

end Ws63Flash
