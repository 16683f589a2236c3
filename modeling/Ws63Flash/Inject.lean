import Ws63Flash.Args
import Ws63Flash.FileIo
/-!
# Inject — `ws63fwpkg.c`

`verb_inject` adds files to a package: it rebuilds the table in a buffer of `MAX_PARTITION_CNT` records, and writes it,
the data of the package and the files one after the other.  What is printed is left out.  The output is a file of its
own, opened before.
-/
namespace Ws63Flash

open Octets Proc

/-- `buf`: a header and the room for `MAX_PARTITION_CNT` records. -/
structure InjectBuf where
  head : FwpkgHeader
  recs : List FwpkgBinInfo
  sized : recs.length = MAX_PARTITION_CNT

theorem partition_pos : 0 < MAX_PARTITION_CNT := by decide

/-- The record `i` of the room. -/
def InjectBuf.at (buf : InjectBuf) (i : Nat) (h : i < MAX_PARTITION_CNT) : FwpkgBinInfo :=
  buf.recs.get ⟨i, by rw [buf.sized]; exact h⟩

/-- What the stack holds in the records before anything is stored. -/
def StackRecs : Type := {recs : List FwpkgBinInfo // recs.length = MAX_PARTITION_CNT}

/-- A stack of zero bytes. -/
def zeroStack : StackRecs := ⟨List.replicate MAX_PARTITION_CNT (.ofBytes []), List.length_replicate⟩

/-- The record of a file: `strncpy` stores 31 bytes of the name, the last is left as it was. -/
def newBin (old : FwpkgBinInfo) (w : Wobj) (outfwlen : Nat) : FwpkgBinInfo where
  name := padTo 31 ((basename w.name).bytes.take 31) ++ old.name.drop 31
  offset := UInt32.ofNat outfwlen
  length := UInt32.ofNat w.length
  burnAddr := UInt32.ofNat w.addr
  burnSize := UInt32.ofNat w.length
  type2 := 1
  name_length := by
    rw [List.length_append, padTo_length (by rw [List.length_take]; omega), List.length_drop, old.name_length]

/-- `ob->offset += sizeof(*bins) * (arguments.args_cnt - 1)`. -/
def FwpkgBinInfo.shift (n : Nat) (b : FwpkgBinInfo) : FwpkgBinInfo :=
  { b with offset := UInt32.ofNat (b.offset.toNat + binInfoSize * n) }

/-- The buffer once the records of the package are copied into it and shifted. -/
def shiftBins (header : FwpkgHeader) (bins : List FwpkgBinInfo) (n : Nat) (stack : StackRecs)
    (h : bins.length ≤ MAX_PARTITION_CNT) : InjectBuf where
  head := header
  recs := bins.map (FwpkgBinInfo.shift n) ++ stack.1.drop bins.length
  sized := by
    rw [List.length_append, List.length_map, List.length_drop, stack.2]
    omega

/-- The loop that adds the records of the files; the state is the buffer and `outfwlen`.  Nothing keeps the count below
the room of the buffer. -/
def addBins : List Wobj → InjectBuf × Nat → Out (InjectBuf × Nat)
  | [], s              => .ret s
  | w :: ws, (buf, outfwlen) =>
    if hroom : buf.head.cnt.toNat < MAX_PARTITION_CNT then
      let nb := newBin (buf.at buf.head.cnt.toNat hroom) w outfwlen
      addBins ws (⟨{ buf.head with cnt := buf.head.cnt + 1 }, buf.recs.set buf.head.cnt.toNat nb,
        by rw [List.length_set, buf.sized]⟩, outfwlen + nb.length.toNat)
    else .stop .undefined

/-- The bytes of `buf`. -/
def InjectBuf.bytes (buf : InjectBuf) : List UInt8 := buf.head.bytes ++ buf.recs.flatMap FwpkgBinInfo.bytes

/-- The checksum is stored last, over the bytes after it. -/
def InjectBuf.sealed (buf : InjectBuf) : InjectBuf :=
  { buf with
    head := { buf.head with crc := crc16Xmodem (slice buf.bytes 6 (binInfoSize * buf.head.cnt.toNat + 6)) } }

/-- The loop that writes `""`, meant to fill the gap after the table: from the first record's offset up to the end of
the table. -/
def padGap (fuel : Nat) (offset tableEnd : Nat) : FileProc Int :=
  Proc.loop (fun i => do
    if i < tableEnd then
      let ret ← checkedFwrite [0]
      if ret ≠ 0 then return .done ret else return .next (i + 1)
    else return .done 0) fuel offset

/-- The loop that copies the files. -/
def copyFiles (fuel : Nat) (h : Host) : List Wobj → FileProc Int
  | []      => return 0
  | w :: ws =>
    match h.fopen w.name with
    -- a null `FILE *` is passed on
    | .error _ => Proc.halt .undefined
    | .ok binf => do
      let ret ← copyPart fuel binf 0 w.length
      if ret ≠ 0 then return 1 else copyFiles fuel h ws

/-- `verb_inject` from the first write on. -/
def writeInjected (fuel : Nat) (h : Host) (infw : List UInt8) (bins : List FwpkgBinInfo) (wobjs : List Wobj)
    (buf : InjectBuf) : FileProc Int := do
  let ret ← checkedFwrite buf.head.bytes
  if ret ≠ 0 then return 1
  else
    let ret ← checkedFwrite ((buf.recs.take buf.head.cnt.toNat).flatMap FwpkgBinInfo.bytes)
    if ret ≠ 0 then return 1
    else
      let fb := buf.at 0 partition_pos
      let ret ← padGap fuel fb.offset.toNat (headerSize + binInfoSize * buf.head.cnt.toNat)
      if ret ≠ 0 then return 1
      else
        match bins with
        | []       => Proc.halt .undefined
        | bin :: _ =>
          let ret ← copyPart fuel infw bin.offset.toNat ((infw.length : Int) - bin.offset.toNat)
          if ret ≠ 0 then return 1
          else copyFiles fuel h wobjs

/-- `basename` has cut the names. -/
def cutNames (wobjs : List Wobj) : List Wobj := wobjs.map (fun w => { w with name := basenameCut w.name })

/-- What it writes is what `fwrite` takes: the last flush, in `fclose`, may lose the end of that without a word. -/
def verbInject (fuel : Nat) (h : Host) (stack : StackRecs) (args : List CStr) : FileProc Int :=
  match (args.drop 1).mapM (parseWobj h false) with
  | .error r  => return r
  | .ok wobjs =>
    match args[0]? with
    | none      => Proc.halt .undefined
    | some path =>
      match h.fopen path with
      | .error _ => return EXIT_FAILURE
      | .ok infw => do
        match ← Proc.lift (fwpkgReadHeader infw) with
        | none        => return EXIT_FAILURE
        | some header =>
          match fwpkgReadBinInfos infw header with
          | none      => return EXIT_FAILURE
          | some bins =>
            if hroom : bins.length ≤ MAX_PARTITION_CNT then
              let buf := shiftBins header bins wobjs.length stack hroom
              let (buf, _) ← Proc.lift (addBins wobjs (buf, infw.length + binInfoSize * wobjs.length))
              writeInjected fuel h infw bins (cutNames wobjs) buf.sealed
            else Proc.halt .undefined

/-! ## The buffer -/

/-- While there is room the count does not wrap. -/
theorem cnt_succ {c : UInt16} (h : c.toNat < MAX_PARTITION_CNT) : (c + 1).toNat = c.toNat + 1 := by
  rw [UInt16.toNat_add]
  unfold MAX_PARTITION_CNT at h
  exact Nat.mod_eq_of_lt (show c.toNat + 1 < 2 ^ 16 by omega)

/-- The records of the files, stored into `olds`; the first one's data is at `o`. -/
def newBins : List FwpkgBinInfo → List Wobj → Nat → List FwpkgBinInfo
  | old :: olds, w :: ws, o => newBin old w o :: newBins olds ws (o + (newBin old w o).length.toNat)
  | _, _, _                 => []

theorem newBins_length : ∀ (olds : List FwpkgBinInfo) (ws : List Wobj) (o : Nat), ws.length ≤ olds.length →
    (newBins olds ws o).length = ws.length
  | _, [], _, _                => by rw [newBins] <;> simp
  | old :: olds, w :: ws, o, h => by
    rw [newBins, List.length_cons, newBins_length olds ws _ (Nat.le_of_succ_le_succ h), List.length_cons]

/-- **The records of the files** follow those of the package, while the buffer has room for them. -/
theorem addBins_ret : ∀ (ws : List Wobj) (buf : InjectBuf) (o : Nat) (recs : List FwpkgBinInfo),
    buf.recs.take buf.head.cnt.toNat = recs → buf.head.cnt.toNat + ws.length ≤ MAX_PARTITION_CNT →
    ∃ buf' o', addBins ws (buf, o) = .ret (buf', o') ∧ buf'.head = { buf.head with cnt := buf'.head.cnt } ∧
      buf'.head.cnt.toNat = buf.head.cnt.toNat + ws.length ∧
      buf'.recs.take buf'.head.cnt.toNat = recs ++ newBins (buf.recs.drop buf.head.cnt.toNat) ws o
  | [], buf, o, recs, hrecs, _ => ⟨buf, o, rfl, rfl, rfl, by rw [hrecs, newBins] <;> simp⟩
  | w :: ws, buf, o, recs, hrecs, hle => by
    rw [List.length_cons] at hle
    have hroom : buf.head.cnt.toNat < MAX_PARTITION_CNT := by omega
    have hget : buf.head.cnt.toNat < buf.recs.length := by rw [buf.sized]; exact hroom
    have hnext := cnt_succ hroom
    have hdrop : newBins (buf.recs.drop buf.head.cnt.toNat) (w :: ws) o
        = newBin (buf.at buf.head.cnt.toNat hroom) w o :: newBins (buf.recs.drop (buf.head.cnt.toNat + 1)) ws
          (o + (newBin (buf.at buf.head.cnt.toNat hroom) w o).length.toNat) := by
      rw [List.drop_eq_getElem_cons hget, newBins]
      rfl
    rw [hdrop]
    generalize hnb : newBin (buf.at buf.head.cnt.toNat hroom) w o = nb
    obtain ⟨buf', o', hadd, hhead, hcnt, htake⟩ := addBins_ret ws
      ⟨{ buf.head with cnt := buf.head.cnt + 1 }, buf.recs.set buf.head.cnt.toNat nb,
        by rw [List.length_set, buf.sized]⟩ (o + nb.length.toNat) (recs ++ [nb]) (by
          show (buf.recs.set _ nb).take (buf.head.cnt + 1).toNat = _
          rw [hnext, List.take_add_one, List.take_set_of_le (Nat.le_refl _), hrecs, List.getElem?_set_self hget]
          rfl) (by
          show (buf.head.cnt + 1).toNat + ws.length ≤ _
          rw [hnext]
          omega)
    refine ⟨buf', o', ?_, hhead, ?_, ?_⟩
    · rw [addBins, dif_pos hroom]
      subst hnb
      exact hadd
    · rw [hcnt, List.length_cons]
      show (buf.head.cnt + 1).toNat + ws.length = _
      rw [hnext]
      omega
    · have hrest : (buf.recs.set buf.head.cnt.toNat nb).drop (buf.head.cnt + 1).toNat
          = buf.recs.drop (buf.head.cnt.toNat + 1) := by
        rw [hnext, List.drop_set_of_lt (Nat.lt_succ_self _)]
      rw [htake, List.append_assoc]
      show recs ++ ([nb] ++ newBins ((buf.recs.set buf.head.cnt.toNat nb).drop (buf.head.cnt + 1).toNat) ws _) = _
      rw [hrest]
      rfl

/-- Beyond the room of the buffer the loop writes past it. -/
theorem addBins_overflow : ∀ (ws : List Wobj) (buf : InjectBuf) (o : Nat), buf.head.cnt.toNat ≤ MAX_PARTITION_CNT →
    MAX_PARTITION_CNT < buf.head.cnt.toNat + ws.length → addBins ws (buf, o) = .stop .undefined
  | [], buf, o, hcnt, hlt      => absurd hlt (by rw [List.length_nil]; omega)
  | w :: ws, buf, o, hcnt, hlt => by
    rw [addBins]
    split
    · rename_i hroom
      have hnext := cnt_succ hroom
      refine addBins_overflow ws _ _ ?_ ?_
      · show (buf.head.cnt + 1).toNat ≤ _
        rw [hnext]
        exact hroom
      · show _ < (buf.head.cnt + 1).toNat + ws.length
        rw [List.length_cons] at hlt
        omega
    · rfl

end Ws63Flash
