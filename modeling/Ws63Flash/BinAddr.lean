import Ws63Flash.FlashDevice
import Ws63Flash.InjectSize
/-!
# BinAddr — what `BIN@ADDR` is taken for

`sscanf` reads a number at the start of the text after the `@` and says nothing of what follows it: spaces and a sign may
come first, anything may come last, and the `size_t` is then stored into 32 bits.  Both programs take an address for
another one unless the text has no digit to begin with, or is a number below 2^32 and nothing else.
-/
namespace Ws63Flash

open Octets Proc Language

/-! ## The text -/

/-- The whole text is a hexadecimal number, perhaps after `0x`. -/
def HexNumber (text : List UInt8) (v : Nat) : Prop :=
  ∃ digits, (text = digits ∨ text = 0x30 :: 0x78 :: digits ∨ text = 0x30 :: 0x58 :: digits) ∧ digits ≠ [] ∧
    (∀ c ∈ digits, (hexVal c).isSome) ∧ hexFold 0 digits = v

/-- No digit stands where `sscanf` looks for the first one, after spaces and a sign. -/
def NoDigit (text : List UInt8) : Prop := ∀ c ∈ (stripSign (text.dropWhile isSpace)).2.head?, hexVal c = none

/-- The text is a number that 32 bits hold. -/
def Addr32 (text : List UInt8) : Prop := ∃ v < 2 ^ 32, HexNumber text v

theorem hexNumber_addrText (mark : Bool) (n : Nat) : HexNumber (addrText mark n) n := by
  refine ⟨hexText n, ?_, hexText_ne_nil n, hexText_isSome n, hexText_fold n⟩
  cases mark with
  | false => exact Or.inl rfl
  | true  => exact Or.inr (Or.inl rfl)

/-- **A number is read whole.** -/
theorem HexNumber.sscanfZx {text : List UInt8} {v : Nat} (hnum : HexNumber text v) (hv : v < 2 ^ 64) :
    sscanfZx text = some v := by
  obtain ⟨digits, hsplit, hne, hdig, rfl⟩ := hnum
  obtain ⟨hspace, hsign, hmark⟩ := strip_digits hdig
  -- neither 0x nor 0X starts with a space or a sign
  have hmarked : ∀ x : UInt8, x = 0x78 ∨ x = 0x58 → stripSign ((0x30 :: x :: digits).dropWhile isSpace)
      = (false, 0x30 :: x :: digits) ∧ stripHexMark (0x30 :: x :: digits) = (true, digits) := by
    rintro x (rfl | rfl)
    · exact ⟨rfl, rfl⟩
    · exact ⟨rfl, rfl⟩
  unfold Ws63Flash.sscanfZx
  rcases hsplit with rfl | rfl | rfl
  · simp only [hspace, hsign, hmark, takeWhile_all hdig]
    rw [if_neg (fun hn => hne hn.2), if_neg (by omega)]
    rfl
  · obtain ⟨h1, h2⟩ := hmarked 0x78 (Or.inl rfl)
    simp only [h1, h2, takeWhile_all hdig]
    rw [if_neg (fun hn => hn.1 trivial), if_neg (by omega)]
    rfl
  · obtain ⟨h1, h2⟩ := hmarked 0x58 (Or.inr rfl)
    simp only [h1, h2, takeWhile_all hdig]
    rw [if_neg (fun hn => hn.1 trivial), if_neg (by omega)]
    rfl

/-- The mark starts with a digit. -/
theorem stripHexMark_none {cs : List UInt8} :
    (¬ (stripHexMark cs).1 ∧ (stripHexMark cs).2.takeWhile (fun c => (hexVal c).isSome) = []) ↔
      ∀ c ∈ cs.head?, hexVal c = none := by
  unfold stripHexMark
  split
  · exact iff_of_false (fun h => h.1 rfl) (fun h => nomatch h 0x30 rfl)
  · exact iff_of_false (fun h => h.1 rfl) (fun h => nomatch h 0x30 rfl)
  · cases cs with
    | nil       => simp
    | cons c cs => cases hc : hexVal c <;> simp [hc]

/-- **`sscanf` finds no number** exactly when no digit comes first. -/
theorem sscanfZx_eq_none {text : List UInt8} : sscanfZx text = none ↔ NoDigit text := by
  unfold NoDigit
  rw [← stripHexMark_none]
  unfold sscanfZx
  dsimp only
  constructor
  · intro hnone
    by_contra hn
    rw [if_neg hn] at hnone
    split at hnone
    · cases hnone
    · split at hnone <;> cases hnone
  · intro h
    rw [if_pos h]

instance (text : List UInt8) : Decidable (NoDigit text) := decidable_of_iff _ sscanfZx_eq_none

/-! ## The argument -/

/-- `bin@text`. -/
def atText (bin text : CStr) : CStr where
  bytes := bin.bytes ++ 0x40 :: text.bytes
  noNul := by
    intro h
    rcases List.mem_append.1 h with h | h
    · exact bin.noNul h
    · rcases List.mem_cons.1 h with h | h
      · exact absurd h (by decide)
      · exact text.noNul h

/-- What one turn of the parsing loop makes of `bin@text`. -/
theorem parseWobj_atText {h : Host} {bin text : CStr} {n : Nat} (hat : 0x40 ∉ bin.bytes) (hstat : h.stat bin = .ok n)
    (bare : Bool) : parseWobj h bare (atText bin text) = match sscanfZx text.bytes with
      | none      => .error 1
      | some addr => .ok ⟨bin, n, addr⟩ := by
  unfold parseWobj
  rw [afterAt_of_bytes hat rfl, beforeAt_of_bytes hat rfl, hstat]
  dsimp only
  cases sscanfZx text.bytes <;> rfl

/-- The loop stores what it makes of each argument in its place. -/
theorem mapM_parseWobj_getElem? {h : Host} {args : List CStr} {wobjs : List Wobj} {i : Nat} {arg : CStr}
    (hw : args.mapM (parseWobj h false) = .ok wobjs) (hi : args[i]? = some arg) :
    ∃ w, wobjs[i]? = some w ∧ parseWobj h false arg = .ok w := by
  obtain ⟨hlen, hget⟩ := List.forall₂_iff_get.1 (mapM_eq_ok.1 hw)
  obtain ⟨hlt, rfl⟩ := List.getElem?_eq_some_iff.1 hi
  have hlt' : i < wobjs.length := by omega
  exact ⟨wobjs[i], List.getElem?_eq_getElem hlt', hget i hlt hlt'⟩

/-- One of the arguments. -/
theorem mapM_parseWobj_atText {h : Host} {bin text : CStr} {n : Nat} {args : List CStr} {wobjs : List Wobj} {i : Nat}
    (hat : 0x40 ∉ bin.bytes) (hstat : h.stat bin = .ok n) (hw : args.mapM (parseWobj h false) = .ok wobjs)
    (hi : args[i]? = some (atText bin text)) :
    ∃ addr, sscanfZx text.bytes = some addr ∧ wobjs[i]? = some ⟨bin, n, addr⟩ := by
  obtain ⟨w, hget, hparse⟩ := mapM_parseWobj_getElem? hw hi
  rw [parseWobj_atText hat hstat] at hparse
  cases hs : sscanfZx text.bytes with
  | none => rw [hs] at hparse; exact nomatch hparse
  | some addr =>
    rw [hs] at hparse
    cases hparse
    exact ⟨addr, rfl, hget⟩

/-! ## `--write` -/

theorem parseWobjs_cases {h : Host} {arg : CStr} {args : List CStr} :
    (∃ r, r ≠ 0 ∧ parseWobjs h (arg :: args) = .error r) ∨
      ∃ boot wobjs, parseWobjs h (arg :: args) = .ok (boot :: wobjs) ∧ args.mapM (parseWobj h false) = .ok wobjs := by
  rw [parseWobjs]
  cases hp : parseWobj h true arg with
  | error r => exact Or.inl ⟨r, parseWobj_error hp, rfl⟩
  | ok boot =>
    cases hs : args.mapM (parseWobj h false) with
    | error r  => exact Or.inl ⟨r, mapM_parseWobj_error hs, rfl⟩
    | ok wobjs => exact Or.inr ⟨boot, wobjs, rfl, rfl⟩

theorem verbWrite_parsed {h : Host} {a : Args} {boot : Wobj} {wobjs : List Wobj}
    (hok : parseWobjs h (a.args.drop 1) = .ok (boot :: wobjs)) (fuel : Nat) : verbWrite fuel h a = runPlan fuel a
      ⟨writePart h { boot with name := basenameCut boot.name }, true, (cutNames wobjs).map (writeJob h)⟩ := by
  rw [verbWrite_eq, planWrite, hok]
  rfl

/-- `--write` refuses its arguments, or follows a plan with a command for each file. -/
theorem verbWrite_cases {h : Host} {a : Args} {i : Nat} {arg : CStr} (hi : a.args[i + 2]? = some arg) :
    (∃ r : Int, r ≠ 0 ∧ ∀ fuel, verbWrite fuel h a = pure r) ∨
      ∃ boot wobjs, (a.args.drop 2).mapM (parseWobj h false) = .ok wobjs ∧
        ∀ fuel, verbWrite fuel h a = runPlan fuel a ⟨writePart h boot, true, (cutNames wobjs).map (writeJob h)⟩ := by
  obtain ⟨first, rest, hdrop⟩ : ∃ first rest, a.args.drop 1 = first :: rest := by
    cases hd : a.args.drop 1 with
    | nil =>
      have hlen := (List.getElem?_eq_some_iff.1 hi).1
      rw [List.drop_eq_nil_iff] at hd
      omega
    | cons first rest => exact ⟨first, rest, rfl⟩
  have hrest : a.args.drop 2 = rest := by
    rw [← List.tail_drop, hdrop]
    rfl
  rcases @parseWobjs_cases h first rest with ⟨r, hr, herr⟩ | ⟨boot, wobjs, hok, hw⟩
  · refine Or.inl ⟨r, hr, fun fuel => ?_⟩
    rw [verbWrite, hdrop, herr]
  · refine Or.inr ⟨{ boot with name := basenameCut boot.name }, wobjs, hrest ▸ hw, fun fuel => ?_⟩
    rw [← hdrop] at hok
    exact verbWrite_parsed hok fuel

/-- What is promised of `bin@text` on the line of `--write`: nothing is done, or the text is a number below 2^32 and the
plan that is run has it as the address of this file. -/
def WriteAddr (bin text : CStr) : Prop :=
  ∀ (h : Host) (n : Nat) (a : Args) (i : Nat), h.stat bin = .ok n → a.args[i + 2]? = some (atText bin text) →
    (∃ r : Int, r ≠ 0 ∧ ∀ fuel, verbWrite fuel h a = pure r) ∨
      ∃ v < 2 ^ 32, HexNumber text.bytes v ∧ ∃ p j, (∀ fuel, verbWrite fuel h a = runPlan fuel a p) ∧
        p.jobs[i]? = some j ∧ leNat (slice (cmdFrame j.cmd) 8 4) = v

/-- A run that begins a plan is no refusal. -/
theorem runPlan_ne_pure {a : Args} {p : Plan} {r : Int} : ¬ ∀ fuel, runPlan fuel a p = pure r := by
  intro hall
  have h0 := congrFun (congrFun (hall 0) ackDevice) []
  exact nomatch congrArg Prod.fst h0

theorem writeAddr_iff {bin text : CStr} (hat : 0x40 ∉ bin.bytes) :
    WriteAddr bin text ↔ NoDigit text.bytes ∨ Addr32 text.bytes := by
  constructor
  · intro hwrite
    by_contra hn
    rw [not_or, ← sscanfZx_eq_none] at hn
    obtain ⟨addr, haddr⟩ := Option.ne_none_iff_exists'.1 hn.1
    -- with files that are all there the text is taken for `addr`
    have hok : parseWobjs (hostOf [0x41]) [fileA, atText bin text] = .ok [⟨fileA, 1, 0⟩, ⟨bin, 1, addr⟩] := by
      rw [parseWobjs, parseWobj_bare (by decide) rfl, List.mapM_cons, parseWobj_atText hat rfl, haddr]
      rfl
    have hplan := verbWrite_parsed (a := ⟨[ttyT, fileA, atText bin text], 115200, false⟩) hok
    rcases hwrite (hostOf [0x41]) 1 ⟨[ttyT, fileA, atText bin text], 115200, false⟩ 0 rfl rfl with
      ⟨r, _, hrun⟩ | ⟨v, hv, hnum, _⟩
    · exact runPlan_ne_pure (fun fuel => (hplan fuel).symm.trans (hrun fuel))
    · exact hn.2 ⟨v, hv, hnum⟩
  · intro htext h n a i hstat hi
    rcases verbWrite_cases hi with hrefused | ⟨boot, wobjs, hw, hrun⟩
    · exact Or.inl hrefused
    · obtain ⟨addr, haddr, hget⟩ := mapM_parseWobj_atText hat hstat hw (by rw [List.getElem?_drop, Nat.add_comm]; exact hi)
      rcases htext with hnone | ⟨v, hv, hnum⟩
      · rw [sscanfZx_eq_none.2 hnone] at haddr
        cases haddr
      · have heq := hnum.sscanfZx (Nat.lt_trans hv (by decide))
        rw [haddr] at heq
        cases heq
        refine Or.inr ⟨addr, hv, hnum, _, writeJob h ⟨basenameCut bin, n, addr⟩, hrun, ?_, ?_⟩
        · show ((cutNames wobjs).map (writeJob h))[i]? = _
          rw [cutNames, List.getElem?_map, List.getElem?_map, hget]
          rfl
        · refine (downloadCmd_fields _ _ _).1.trans ?_
          rw [UInt32.toNat_ofNat', Nat.mod_eq_of_lt hv]

/-! ## `--inject` -/

/-- What is promised of `bin@text` on the line of `--inject`: nothing is written, or the text is a number below 2^32 and
the record of this file has it. -/
def InjectAddr (bin text : CStr) : Prop :=
  ∀ (h : Host) (n : Nat) (args : List CStr) (i : Nat), h.stat bin = .ok n → args[i + 1]? = some (atText bin text) →
    (∃ r : Int, r ≠ 0 ∧ ∀ fuel stack, verbInject fuel h stack args = pure r) ∨
      ∃ v < 2 ^ 32, HexNumber text.bytes v ∧ ∀ path infw header bins, args[0]? = some path → h.fopen path = .ok infw →
        Accepted infw header bins → ∀ (fuel : Nat) (stack : StackRecs) (io : FileIo),
          let run := verbInject fuel h stack args io []
          HasRecord run.1 (output run.2) (header.cnt.toNat + i) →
            (recordAt (output run.2) (header.cnt.toNat + i)).burnAddr.toNat = v

theorem injectAddr_iff {bin text : CStr} (hat : 0x40 ∉ bin.bytes) :
    InjectAddr bin text ↔ NoDigit text.bytes ∨ Addr32 text.bytes := by
  constructor
  · intro hinject
    by_contra hn
    rw [not_or, ← sscanfZx_eq_none] at hn
    obtain ⟨addr, haddr⟩ := Option.ne_none_iff_exists'.1 hn.1
    -- on a package, with files that are all there, the text is taken for `addr`
    have hparse : ([fileP, atText bin text].drop 1).mapM (parseWobj (hostOf samplePkg) false)
        = .ok [⟨bin, samplePkg.length, addr⟩] := by
      rw [List.drop_one, List.tail_cons, List.mapM_cons, parseWobj_atText hat rfl, haddr]
      rfl
    have hi : Injectable (hostOf samplePkg) [fileP, atText bin text] [⟨bin, samplePkg.length, addr⟩] samplePkg sampleHeader
        sampleBins :=
      ⟨⟨hparse, ⟨_, rfl, rfl⟩, samplePkg_accepted⟩, List.cons_ne_nil _ _, show 2 + 1 ≤ 16 by decide, fun _ _ => rfl⟩
    obtain ⟨fuel, hret⟩ := hi.succeeds zeroStack
    rcases hinject (hostOf samplePkg) samplePkg.length [fileP, atText bin text] 0 rfl rfl with
      ⟨r, hr, hrun⟩ | ⟨v, hv, hnum, _⟩
    · rw [hrun] at hret
      exact hr (Out.ret.inj hret)
    · exact hn.2 ⟨v, hv, hnum⟩
  · intro htext h n args i hstat hi
    cases hw : (args.drop 1).mapM (parseWobj h false) with
    | error r =>
      refine Or.inl ⟨r, mapM_parseWobj_error hw, fun fuel stack => ?_⟩
      unfold verbInject
      rw [hw]
    | ok wobjs =>
      obtain ⟨addr, haddr, hget⟩ := mapM_parseWobj_atText hat hstat hw (by rw [List.getElem?_drop, Nat.add_comm]; exact hi)
      rcases htext with hnone | ⟨v, hv, hnum⟩
      · rw [sscanfZx_eq_none.2 hnone] at haddr
        cases haddr
      · have heq := hnum.sscanfZx (Nat.lt_trans hv (by decide))
        rw [haddr] at heq
        cases heq
        refine Or.inr ⟨addr, hv, hnum, fun path infw header bins hpath hopen hacc fuel stack io hrec => ?_⟩
        have hinj : Injects h args wobjs infw header bins := ⟨hw, ⟨path, hpath, hopen⟩, hacc⟩
        rw [← hacc.length_bins] at hrec ⊢
        obtain ⟨old, o, hold⟩ := hinj.recordAt hget hrec
        rw [hold]
        exact (UInt32.toNat_ofNat' ..).trans (Nat.mod_eq_of_lt hv)

/-- **When both programs check an address**: when the text has no digit to begin with, which they refuse, or is a number
below 2^32. -/
theorem binAddr_checked_iff {bin text : CStr} (hat : 0x40 ∉ bin.bytes) :
    (WriteAddr bin text ↔ NoDigit text.bytes ∨ Addr32 text.bytes) ∧
      (InjectAddr bin text ↔ NoDigit text.bytes ∨ Addr32 text.bytes) :=
  ⟨writeAddr_iff hat, injectAddr_iff hat⟩

/-- The text `23`. -/
def text23 : CStr := ⟨[0x32, 0x33], by decide⟩

/-- The text `1g`. -/
def text1g : CStr := ⟨[0x31, 0x67], by decide⟩

theorem binAddr_checked_sample : WriteAddr fileC text23 ∧ InjectAddr fileC text23 := by
  have hdig : ∀ c ∈ text23.bytes, (hexVal c).isSome := List.forall_mem_cons.2 ⟨rfl, List.forall_mem_singleton.2 rfl⟩
  have htext : Addr32 text23.bytes := ⟨0x23, by decide, text23.bytes, Or.inl rfl, List.cons_ne_nil _ _, hdig, rfl⟩
  have hboth := @binAddr_checked_iff fileC text23 (by decide)
  exact ⟨hboth.1.2 (Or.inr htext), hboth.2.2 (Or.inr htext)⟩

/-- **What follows the digits** is not looked at: `c@1g` is taken for the address 1. -/
theorem binAddr_unchecked : ¬ WriteAddr fileC text1g ∧ ¬ InjectAddr fileC text1g := by
  have htext : ¬ (NoDigit text1g.bytes ∨ Addr32 text1g.bytes) := by
    rintro (hnone | ⟨v, _, digits, hsplit, _, hdig, _⟩)
    · exact absurd hnone (by decide)
    · rcases hsplit with hsplit | hsplit | hsplit
      · exact absurd (hdig 0x67 (by rw [← hsplit]; decide)) (by decide)
      · exact nomatch hsplit
      · exact nomatch hsplit
  have hat : 0x40 ∉ fileC.bytes := by decide
  exact ⟨fun h => htext ((writeAddr_iff hat).1 h), fun h => htext ((injectAddr_iff hat).1 h)⟩

/-! ## Paths with an `@` -/

theorem parseWobj_name {h : Host} {bare : Bool} {arg : CStr} {w : Wobj} (hw : parseWobj h bare arg = .ok w) :
    w.name = beforeAt arg := by
  rcases parseWobj_cases h bare arg with ⟨n, addr, hok⟩ | ⟨r, _, herr⟩
  · rw [hok] at hw
    cases hw
    rfl
  · rw [herr] at hw
    exact nomatch hw

/-- The path `p` is read back: with an address among the files of either program, and without one as the loaderboot. -/
structure PathKept (p : CStr) : Prop where
  write : ∀ (h : Host) (n : Nat), h.stat p = .ok n → ∀ (text : CStr) (addr : Nat), addr < 2 ^ 32 →
    HexNumber text.bytes addr → ∀ (boot : CStr) (pre post : List CStr),
      parseWobjs h (boot :: (pre ++ atText p text :: post)) = (do
        let first ← parseWobj h true boot
        let ws ← pre.mapM (parseWobj h false)
        let ws' ← post.mapM (parseWobj h false)
        return first :: (ws ++ ⟨p, n, addr⟩ :: ws'))
  inject : ∀ (h : Host) (n : Nat), h.stat p = .ok n → ∀ (text : CStr) (addr : Nat), addr < 2 ^ 32 →
    HexNumber text.bytes addr → ∀ pre post : List CStr,
      (pre ++ atText p text :: post).mapM (parseWobj h false) = (do
        let ws ← pre.mapM (parseWobj h false)
        let ws' ← post.mapM (parseWobj h false)
        return ws ++ ⟨p, n, addr⟩ :: ws')
  boot : ∀ (h : Host) (n : Nat), h.stat p = .ok n → ∀ args : List CStr, ∃ addr,
    parseWobjs h (p :: args) = (do
      let ws ← args.mapM (parseWobj h false)
      return ⟨p, n, addr⟩ :: ws)

theorem mapM_parseWobj_mid {h : Host} {arg : CStr} {w : Wobj} (hw : parseWobj h false arg = .ok w) (pre post : List CStr) :
    (pre ++ arg :: post).mapM (parseWobj h false) = (do
      let ws ← pre.mapM (parseWobj h false)
      let ws' ← post.mapM (parseWobj h false)
      return ws ++ w :: ws') := by
  rw [List.mapM_append, List.mapM_cons, hw]
  cases pre.mapM (parseWobj h false) with
  | error r => rfl
  | ok ws   => cases post.mapM (parseWobj h false) <;> rfl

/-- **When a path is read back**: when it has no `@`. -/
theorem pathKept_iff (p : CStr) : PathKept p ↔ 0x40 ∉ p.bytes := by
  constructor
  · intro hkept hat
    obtain ⟨addr, hboot⟩ := hkept.boot (hostOf [0x41]) 1 rfl []
    rw [parseWobjs] at hboot
    cases hw : parseWobj (hostOf [0x41]) true p with
    | error r => rw [hw] at hboot; exact nomatch hboot
    | ok w =>
      rw [hw] at hboot
      have hname := parseWobj_name hw
      cases hboot
      -- the name is what comes before the first `@`
      have hbefore : 0x40 ∉ (beforeAt p).bytes := fun hm => absurd (List.mem_takeWhile_imp hm) (by decide)
      rw [← hname] at hbefore
      exact hbefore hat
  · intro hat
    have hparse : ∀ {h : Host} {n : Nat}, h.stat p = .ok n → ∀ {text : CStr} {addr : Nat}, addr < 2 ^ 32 →
        HexNumber text.bytes addr → parseWobj h false (atText p text) = .ok ⟨p, n, addr⟩ := by
      intro h n hstat text addr haddr hnum
      rw [parseWobj_atText hat hstat, hnum.sscanfZx (Nat.lt_trans haddr (by decide))]
    refine ⟨?_, ?_, ?_⟩
    · intro h n hstat text addr haddr hnum boot pre post
      rw [parseWobjs, mapM_parseWobj_mid (hparse hstat haddr hnum)]
      cases parseWobj h true boot with
      | error r => rfl
      | ok first =>
        cases pre.mapM (parseWobj h false) with
        | error r => rfl
        | ok ws   => cases post.mapM (parseWobj h false) <;> rfl
    · intro h n hstat text addr haddr hnum
      exact mapM_parseWobj_mid (hparse hstat haddr hnum)
    · intro h n hstat args
      refine ⟨0, ?_⟩
      rw [parseWobjs, parseWobj_bare hat hstat]
      rfl

/-- The path `a@b`. -/
def fileAt : CStr := ⟨[0x61, 0x40, 0x62], by decide⟩

/-- **A path with an `@`** is cut at it. -/
theorem pathKept_at : ¬ PathKept fileAt := fun h => (pathKept_iff fileAt).1 h (by decide)

end Ws63Flash
