import Ws63Flash.Inject
/-!
# InjectOutput — the file `--inject` writes

The header and the table, whatever the padding loop adds, the package from its first record's data on, and the files.
-/
namespace Ws63Flash

open Octets Proc Language

/-! ## Step by step -/

/-- `if (...) return 1`, and what follows it. -/
theorem emits_check {m k : FileProc Int} {u v : List UInt8} (hm : Emits FileEv.out m (fun r => r = 0) (word u))
    (hk : Emits FileEv.out k (fun r => r = 0) (word v)) :
    Emits FileEv.out (do let ret ← m; if ret ≠ 0 then return 1 else k) (fun r => r = 0) (word (u ++ v)) := by
  rw [← word_mul_word]
  refine hm.bind (fun r hr => ?_) (fun r hr => ?_) ⟨v, word_self v⟩
  · rw [if_neg (fun h => h hr)]
    exact hk
  · rw [if_pos hr]
    exact Refuses.pure (by decide)

theorem emits_undefined (v : List UInt8) :
    Emits FileEv.out (Proc.halt .undefined : FileProc Int) (fun r => r = 0) (word v) :=
  fun _ _ => Sat.halt ⟨fun _ ha => (nomatch ha), nil_mem_prefixes ⟨v, word_self v⟩⟩

theorem padGap_emits (fuel offset tableEnd : Nat) : Emits FileEv.out (padGap fuel offset tableEnd) (fun r => r = 0)
    (word (List.replicate (tableEnd - offset) 0)) := by
  intro io l
  refine Sat.loop (fun i e => offset ≤ i ∧ (i = offset ∨ i ≤ tableEnd) ∧ output e = List.replicate (i - offset) 0) ?_ ?_
    fuel offset ⟨Nat.le_refl _, Or.inl rfl, by rw [Nat.sub_self]; rfl⟩
  · rintro i e ⟨hle, hi, he⟩
    have hpre : ∀ w, w <+: [0] → i < tableEnd → output e ++ w <+: List.replicate (tableEnd - offset) 0 := by
      intro w hw hlt
      have hsplit : List.replicate (tableEnd - offset) (0 : UInt8)
          = List.replicate (i - offset) 0 ++ [0] ++ List.replicate (tableEnd - i - 1) 0 := by
        rw [← List.replicate_one, List.replicate_append_replicate, List.replicate_append_replicate]
        congr 1
        omega
      rw [hsplit, he]
      exact ((List.prefix_append_right_inj _).2 hw).trans (List.prefix_append _ _)
    split
    · rename_i hlt
      refine Sat.bind (checkedFwrite_emits [0] io _) (fun r e' ⟨h1, h2⟩ => ?_) (fun x e' ⟨_, h2⟩ => ?_)
      · split
        · rename_i hr
          refine Sat.pure ⟨fun a ha h0 => absurd h0 (by cases ha; exact hr), mem_prefixes_word.2 ?_⟩
          rw [List.append_nil, outputOf_append]
          exact hpre _ (mem_prefixes_word.1 h2) hlt
        · rename_i hr
          have hw : output e' = [0] := h1 r rfl (Classical.not_not.1 hr)
          refine Sat.pure ⟨by omega, Or.inr hlt, ?_⟩
          rw [List.append_nil, output_append, he, hw, ← List.replicate_one, List.replicate_append_replicate]
          congr 1
          omega
      · refine ⟨fun a ha => (nomatch ha), mem_prefixes_word.2 ?_⟩
        rw [outputOf_append]
        exact hpre _ (mem_prefixes_word.1 h2) hlt
    · rename_i hge
      have hw : output e = List.replicate (tableEnd - offset) 0 := by
        rw [he]
        congr 1
        omega
      refine Sat.pure ⟨fun _ _ _ => ?_, prefixes_of_mem ?_⟩ <;> rw [List.append_nil] <;> exact hw
  · rintro i e ⟨hle, hi, he⟩
    refine ⟨fun a ha => (nomatch ha), mem_prefixes_word.2 ?_⟩
    rw [show outputOf FileEv.out e = _ from he]
    apply List.prefix_iff_eq_take.2
    rw [List.take_replicate, List.length_replicate]
    congr 1
    omega

/-- What is copied of a file. -/
def copied (h : Host) (w : Wobj) : List UInt8 :=
  match h.fopen w.name with
  | .ok f    => f.take w.length
  | .error _ => []

theorem copyFiles_emits (fuel : Nat) (h : Host) : ∀ ws : List Wobj,
    Emits FileEv.out (copyFiles fuel h ws) (fun r => r = 0) (word (ws.flatMap (copied h)))
  | []      => Emits.pure rfl
  | w :: ws => by
    rw [copyFiles, List.flatMap_cons, copied]
    cases h.fopen w.name with
    | error e => exact emits_undefined _
    | ok f    => exact emits_check (copyPart_emits fuel f 0 w.length) (copyFiles_emits fuel h ws)

/-- The header and the records of the buffer. -/
def InjectBuf.table (buf : InjectBuf) : List UInt8 :=
  buf.head.bytes ++ (buf.recs.take buf.head.cnt.toNat).flatMap FwpkgBinInfo.bytes

/-- The end of the table. -/
def InjectBuf.tableEnd (buf : InjectBuf) : Nat := headerSize + binInfoSize * buf.head.cnt.toNat

/-- What is copied of the package: all from the offset of its first record on. -/
def packageData (infw : List UInt8) : List FwpkgBinInfo → List UInt8
  | []       => []
  | bin :: _ => infw.drop bin.offset.toNat

/-- The zero bytes of the padding loop. -/
def InjectBuf.padding (buf : InjectBuf) : List UInt8 :=
  List.replicate (buf.tableEnd - (buf.at 0 partition_pos).offset.toNat) 0

/-- The file that `--inject` makes of the buffer `buf`. -/
def injected (h : Host) (infw : List UInt8) (bins : List FwpkgBinInfo) (wobjs : List Wobj) (buf : InjectBuf) :
    List UInt8 := buf.table ++ (buf.padding ++ (packageData infw bins ++ wobjs.flatMap (copied h)))

theorem writeInjected_emits (fuel : Nat) (h : Host) (infw : List UInt8) (bins : List FwpkgBinInfo) (wobjs : List Wobj)
    (buf : InjectBuf) : Emits FileEv.out (writeInjected fuel h infw bins wobjs buf) (fun r => r = 0)
      (word (injected h infw bins wobjs buf)) := by
  rw [injected, InjectBuf.table, List.append_assoc]
  refine emits_check (checkedFwrite_emits _) (emits_check (checkedFwrite_emits _) ?_)
  cases bins with
  | nil => exact emits_check (padGap_emits _ _ _) (emits_undefined _)
  | cons bin bins =>
    have hpart := copyPart_emits fuel infw bin.offset.toNat ((infw.length : Int) - bin.offset.toNat)
    have hall : (infw.drop bin.offset.toNat).take ((infw.length : Int) - bin.offset.toNat).toNat
        = infw.drop bin.offset.toNat := List.take_of_length_le (by rw [List.length_drop]; omega)
    rw [hall] at hpart
    exact emits_check (padGap_emits _ _ _) (emits_check hpart (copyFiles_emits fuel h wobjs))

/-! ## The buffer that is written -/

/-- A buffer with the table of the package, shifted, and `n` records more. -/
structure InjectBuf.Extends (buf : InjectBuf) (header : FwpkgHeader) (bins : List FwpkgBinInfo) (n : Nat) : Prop where
  mgc : buf.head.mgc = header.mgc
  cnt : buf.head.cnt.toNat = bins.length + n
  recs : ∃ news, news.length = n ∧ buf.recs.take buf.head.cnt.toNat = bins.map (FwpkgBinInfo.shift n) ++ news
  crc : buf.head.crc = crc16Xmodem (le16 buf.head.cnt ++ le32 buf.head.len ++
    (buf.recs.take buf.head.cnt.toNat).flatMap FwpkgBinInfo.bytes)

/-- The records of the package, shifted, and those of the files, whose data begins after `size` bytes and the records. -/
def tableWith (bins : List FwpkgBinInfo) (stack : StackRecs) (wobjs : List Wobj) (size : Nat) : List FwpkgBinInfo :=
  bins.map (FwpkgBinInfo.shift wobjs.length) ++
    newBins (stack.1.drop bins.length) wobjs (size + binInfoSize * wobjs.length)

/-- The buffer for a package of `size` bytes and these files. -/
structure InjectBuf.Builds (buf : InjectBuf) (header : FwpkgHeader) (bins : List FwpkgBinInfo) (stack : StackRecs)
    (wobjs : List Wobj) (size : Nat) : Prop extends buf.Extends header bins wobjs.length where
  len : buf.head.len = header.len
  table : buf.recs.take buf.head.cnt.toNat = tableWith bins stack wobjs size

theorem length_mapM_parseWobj {h : Host} {args : List CStr} {wobjs : List Wobj}
    (hw : args.mapM (parseWobj h false) = .ok wobjs) : wobjs.length = args.length := (mapM_eq_ok.1 hw).length_eq.symm

section

variable {h : Host} {args : List CStr} {wobjs : List Wobj} {path : CStr} {infw : List UInt8} {header : FwpkgHeader}
  {bins : List FwpkgBinInfo}

/-- What `--inject` finds: arguments it can read, and a package. -/
structure Injects (h : Host) (args : List CStr) (wobjs : List Wobj) (infw : List UInt8) (header : FwpkgHeader)
    (bins : List FwpkgBinInfo) : Prop where
  parsed : (args.drop 1).mapM (parseWobj h false) = .ok wobjs
  opened : ∃ path, args[0]? = some path ∧ h.fopen path = .ok infw
  accepted : Accepted infw header bins

theorem Injects.room (hi : Injects h args wobjs infw header bins) : bins.length ≤ MAX_PARTITION_CNT := by
  rw [hi.accepted.length_bins]
  exact Nat.le_of_lt hi.accepted.cnt_lt

theorem Injects.run (hi : Injects h args wobjs infw header bins) (fuel : Nat) (stack : StackRecs) :
    verbInject fuel h stack args = Proc.lift (addBins wobjs (shiftBins header bins wobjs.length stack hi.room,
      infw.length + binInfoSize * wobjs.length)) >>= fun s =>
        writeInjected fuel h infw bins (cutNames wobjs) s.1.sealed := by
  obtain ⟨path, hpath, hopen⟩ := hi.opened
  have hroom := hi.room
  unfold verbInject
  simp only [hi.parsed, hpath, hopen, hi.accepted.head]
  apply (pure_bind (some header) _).trans
  simp only [hi.accepted.infos, dif_pos hroom]

/-- **With room for the records** the buffer is built, and is written. -/
theorem Injects.run_eq (hi : Injects h args wobjs infw header bins) (hle : bins.length + wobjs.length ≤ MAX_PARTITION_CNT)
    (stack : StackRecs) : ∃ buf, InjectBuf.Builds buf header bins stack wobjs infw.length ∧
      ∀ fuel, verbInject fuel h stack args = writeInjected fuel h infw bins (cutNames wobjs) buf := by
  have hroom : bins.length ≤ MAX_PARTITION_CNT := by omega
  have hcnt := hi.accepted.length_bins
  have htake : (shiftBins header bins wobjs.length stack hroom).recs.take header.cnt.toNat
      = bins.map (FwpkgBinInfo.shift wobjs.length) := by
    rw [← hcnt]
    exact List.take_left' (List.length_map _)
  have hdrop : (shiftBins header bins wobjs.length stack hroom).recs.drop header.cnt.toNat = stack.1.drop bins.length := by
    rw [← hcnt]
    exact List.drop_left' (List.length_map _)
  obtain ⟨buf, o, hadd, hhead, hcnt', hrecs⟩ := addBins_ret wobjs
    (shiftBins header bins wobjs.length stack hroom) (infw.length + binInfoSize * wobjs.length) _ htake
    (by show header.cnt.toNat + _ ≤ _; omega)
  have hmgc : buf.head.mgc = header.mgc := by rw [hhead]; rfl
  have hlen : buf.head.len = header.len := by rw [hhead]; rfl
  have hcount : buf.head.cnt.toNat = bins.length + wobjs.length := by
    rw [hcnt', hcnt]
    rfl
  have htable : buf.recs.take buf.head.cnt.toNat = tableWith bins stack wobjs infw.length := by
    rw [hrecs, tableWith]
    congr 1
    exact congrArg (newBins · wobjs _) hdrop
  have hnews : (newBins (stack.1.drop bins.length) wobjs (infw.length + binInfoSize * wobjs.length)).length
      = wobjs.length := newBins_length _ _ _ (by rw [List.length_drop, stack.2]; omega)
  refine ⟨buf.sealed, ⟨⟨hmgc, hcount, ⟨_, hnews, htable⟩, ?_⟩, hlen, htable⟩, fun fuel => ?_⟩
  · have hbytes : buf.bytes = buf.head.bytes ++ (buf.recs.take buf.head.cnt.toNat).flatMap FwpkgBinInfo.bytes ++
        (buf.recs.drop buf.head.cnt.toNat).flatMap FwpkgBinInfo.bytes := by
      rw [List.append_assoc, ← List.flatMap_append, List.take_append_drop]
      rfl
    have hlen : (buf.recs.take buf.head.cnt.toNat).length = buf.head.cnt.toNat := by
      rw [List.length_take, buf.sized]
      omega
    have hrange := crc_range buf.head (buf.recs.take buf.head.cnt.toNat)
      ((buf.recs.drop buf.head.cnt.toNat).flatMap FwpkgBinInfo.bytes)
    rw [hlen, ← hbytes] at hrange
    show crc16Xmodem (slice buf.bytes 6 (binInfoSize * buf.head.cnt.toNat + 6)) = _
    rw [hrange]
    rfl
  · rw [hi.run fuel stack, hadd]
    exact pure_bind (buf, o) _

/-- **Without room** the records run over the buffer. -/
theorem Injects.run_overflow (hi : Injects h args wobjs infw header bins)
    (hlt : MAX_PARTITION_CNT < bins.length + wobjs.length) (fuel : Nat) (stack : StackRecs) :
    verbInject fuel h stack args = Proc.halt .undefined := by
  have hcnt := hi.accepted.length_bins
  have hover := addBins_overflow wobjs (shiftBins header bins wobjs.length stack hi.room)
    (infw.length + binInfoSize * wobjs.length)
    (Nat.le_of_lt hi.accepted.cnt_lt) (by show _ < header.cnt.toNat + _; omega)
  rw [hi.run fuel stack, hover]
  rfl

end

end Ws63Flash
