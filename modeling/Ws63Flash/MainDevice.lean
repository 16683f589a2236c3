import Ws63Flash.BinAddr
import Ws63Flash.FlashSent
import Ws63Flash.ProgWrite
/-!
# MainDevice — what the flash holds after a run of the program

A run of `main` that writes anything is a run of a plan (`main_cases`), so the results about plans carry over: the flash
is that of the plan's images burnt in order, or on the way there (`main_burns`), and the cells that no command names are
as they were (`main_spares`).  Then the verbs with plans of their own: `--write` (`main_write_stops`), `--erase`
(`main_erase_whole`) and `--write-program` (`main_writeProg_holds`).
-/
namespace Ws63Flash

open Octets Proc Language Units Burn

/-! ## Runs of `main` -/

theorem planFlash_error {h : Host} {a : Args} {r : Int} (hp : planFlash h a = .ret (.error r)) : r ≠ 0 := by
  unfold planFlash at hp
  repeat' split at hp
  all_goals first
    | (obtain rfl := Except.error.inj (Out.ret.inj hp); decide)
    | exact nomatch hp

theorem planWrite_error {h : Host} {a : Args} {r : Int} (hp : planWrite h a = .ret (.error r)) : r ≠ 0 := by
  unfold planWrite at hp
  cases hd : a.args.drop 1 with
  | nil =>
    rw [hd] at hp
    exact nomatch hp
  | cons arg args =>
    rcases @parseWobjs_cases h arg args with ⟨r', hr', herr⟩ | ⟨boot, wobjs, hok, _⟩
    · rw [hd, herr] at hp
      obtain rfl := Except.error.inj (Out.ret.inj hp)
      exact hr'
    · rw [hd, hok] at hp
      exact nomatch hp

theorem planErase_error {h : Host} {r : Int} (hp : planErase h = .ret (.error r)) : r ≠ 0 := by
  unfold planErase at hp
  split at hp
  · obtain rfl := Except.error.inj (Out.ret.inj hp)
    decide
  · exact nomatch hp

theorem planWriteProg_error {h : Host} {a : Args} {r : Int} (hp : planWriteProg h a = .ret (.error r)) : r ≠ 0 := by
  unfold planWriteProg at hp
  repeat' split at hp
  all_goals first
    | (obtain rfl := Except.error.inj (Out.ret.inj hp); decide)
    | exact nomatch hp

/-- A verb that refuses its input does not return 0. -/
theorem planOf_error {h : Host} {a : Args} {r : Int} : ∀ {verb : Verb}, planOf h a verb = .ret (.error r) → r ≠ 0
  | .flash, hp     => planFlash_error hp
  | .write, hp     => planWrite_error hp
  | .erase, hp     => planErase_error hp
  | .writeProg, hp => planWriteProg_error hp

/-- `main`, behind its checks. -/
def onLine (fuel : Nat) (h : Host) (verb : Verb) (a : Args) : Tty Int := do
  uartOpen 115200
  let ret ← verbRun fuel h a verb
  uartOpen 115200
  return ret

theorem main_eq (fuel : Nat) (h : Host) (verb : Verb) (a : Args) : main fuel h verb a =
    if ¬ parseOpt verb a.args.length then return EX_USAGE
    else if ¬ h.tty then return EXIT_FAILURE
    else onLine fuel h verb a := rfl

theorem uartOpen_sat (baud : Nat) (d : Device) (l : List Ev) :
    Sat (uartOpen baud) d l (fun o e => ∃ u, o = .ret u ∧ e = [.uartOpen baud]) := ⟨(), rfl, rfl⟩

/-- What is done on the line: it is opened and the run does not return 0, or the verb's plan runs between two openings. -/
theorem onLine_events (fuel : Nat) (h : Host) (verb : Verb) (a : Args) (d : Device) :
    ((onLine fuel h verb a d []).1 ≠ .ret 0 ∧ ∀ x ∈ (onLine fuel h verb a d []).2, x = .uartOpen 115200) ∨
      ∃ p, planOf h a verb = .ret (.ok p) ∧
        (onLine fuel h verb a d []).1 = (runPlan fuel a p d [.uartOpen 115200]).1 ∧ ∃ tail,
          (onLine fuel h verb a d []).2 = .uartOpen 115200 :: ((runPlan fuel a p d [.uartOpen 115200]).2 ++ tail) ∧
          (∀ x ∈ tail, x = .uartOpen 115200) ∧
          ∀ r, (onLine fuel h verb a d []).1 = .ret r → tail = [.uartOpen 115200] := by
  have hopen : uartOpen 115200 d [] = (.ret (), [.uartOpen 115200]) := rfl
  unfold onLine
  rw [bind_ret hopen, verbRun_eq]
  cases hp : planOf h a verb with
  | stop x =>
    refine Or.inl ⟨fun hr => ?_, fun y hy => List.mem_singleton.1 hy⟩
    have hr : (Out.stop x : Out Int) = .ret 0 := hr
    cases hr
  | ret res =>
    cases res with
    | error r =>
      refine Or.inl ⟨fun hr => planOf_error hp (Out.ret.inj hr), fun y hy => ?_⟩
      have hy : y ∈ [Ev.uartOpen 115200, .uartOpen 115200] := hy
      simpa using hy
    | ok p =>
      refine Or.inr ⟨p, rfl, ?_⟩
      rw [runPlanned]
      rcases hrun : runPlan fuel a p d ([] ++ [.uartOpen 115200]) with ⟨r | x, e⟩
      · rw [List.nil_append] at hrun
        rw [hrun, List.nil_append, bind_ret hrun]
        exact ⟨rfl, [.uartOpen 115200], rfl, fun y hy => List.mem_singleton.1 hy, fun _ _ => rfl⟩
      · rw [List.nil_append] at hrun
        rw [hrun, List.nil_append, bind_stop hrun]
        refine ⟨rfl, [], by rw [List.append_nil]; rfl, fun y hy => absurd hy List.not_mem_nil, fun r hr => ?_⟩
        cases hr

theorem written_openings {e : List Ev} (h : ∀ x ∈ e, x = .uartOpen 115200) : written e = [] :=
  List.flatMap_eq_nil_iff.2 (fun x hx => by rw [h x hx]; rfl)

/-- **A run of `main`** writes nothing and does not return 0, or is the run of the verb's plan. -/
theorem main_cases (fuel : Nat) (h : Host) (verb : Verb) (a : Args) (d : Device) :
    (written (main fuel h verb a d []).2 = [] ∧ (main fuel h verb a d []).1 ≠ .ret 0) ∨
      ∃ p, parseOpt verb a.args.length = true ∧ h.tty = true ∧ planOf h a verb = .ret (.ok p) ∧
        (main fuel h verb a d []).1 = (runPlan fuel a p d [.uartOpen 115200]).1 ∧
        written (main fuel h verb a d []).2 = written (runPlan fuel a p d [.uartOpen 115200]).2 := by
  rw [main_eq]
  by_cases hparse : parseOpt verb a.args.length = true
  · rw [if_neg (fun hn => hn hparse)]
    by_cases htty : h.tty = true
    · rw [if_neg (fun hn => hn htty)]
      rcases onLine_events fuel h verb a d with ⟨hret, hopen⟩ | ⟨p, hp, hout, tail, hrun, htail, _⟩
      · exact Or.inl ⟨written_openings hopen, hret⟩
      · refine Or.inr ⟨p, hparse, htty, hp, hout, ?_⟩
        rw [hrun, written_cons, written_append, written_openings htail, List.append_nil]
        rfl
    · rw [if_pos htty]
      exact Or.inl ⟨rfl, fun hr => absurd (Out.ret.inj hr) (by decide)⟩
  · rw [if_pos hparse]
    exact Or.inl ⟨rfl, fun hr => absurd (Out.ret.inj hr) (by decide)⟩

section

variable {h : Host} {verb : Verb} {a : Args} {ws : List (Image UInt8)}

/-- A verb with a plan and files that can be opened returns 0 against the device that answers at once. -/
theorem main_ack {p : Plan} (hparse : parseOpt verb a.args.length = true) (htty : h.tty = true)
    (hp : planOf h a verb = .ret (.ok p)) (hopen : ∀ q ∈ p.parts, q.opened = true) :
    ∃ fuel, (main fuel h verb a ackDevice []).1 = .ret 0 := by
  obtain ⟨fuel, hf, hparts⟩ := exists_fuel p.parts
  refine ⟨fuel, ?_⟩
  rw [main_eq, if_neg (fun hn => hn hparse), if_neg (fun hn => hn htty)]
  have hplan : Sat (runPlan fuel a p) ackDevice ([] ++ [.uartOpen 115200]) (fun o _ => o = .ret 0) :=
    runPlan_ack hf a (planOf_cmd_len hp) (fun q hq => ⟨hopen q hq, hparts q hq⟩) _
  suffices hline : Sat (onLine fuel h verb a) ackDevice [] (fun o _ => o = .ret 0) from hline
  unfold onLine
  apply Sat.bind_val (uartOpen_sat _ _ _)
  rintro _ _ rfl
  rw [verbRun_eq, hp]
  refine Sat.bind hplan (fun r e hr => ?_) (fun x e hx => nomatch hx)
  cases hr
  exact Sat.bind_val (uartOpen_sat _ _ _) (fun _ _ _ => Sat.pure rfl)

/-- A run of a verb whose plan burns `ws` leaves the flash on the way from image to image, and a run that returns 0 at the
end of it. -/
theorem main_burns (fuel : Nat) (d : Device)
    (hj : ∀ p, planOf h a verb = .ret (.ok p) → List.Forall₂ Job.Burns p.jobs ws) (m : Nat → UInt8) :
    Burning 0xff m ws (deviceFlash m (written (main fuel h verb a d []).2)) ∧
      ((main fuel h verb a d []).1 = .ret 0 →
        deviceFlash m (written (main fuel h verb a d []).2) = burnAll 0xff m ws) := by
  rcases main_cases fuel h verb a d with ⟨hw, hne⟩ | ⟨p, _, _, hp, hret, hw⟩
  · rw [hw]
    exact ⟨.stop m ws, fun hr => absurd hr hne⟩
  · rw [hret, hw]
    exact ⟨runPlan_burning a d _ fuel (hj p hp) m, fun hr => runPlan_burns a (hj p hp) hr m⟩

/-- Where a run stopped: the first images are in place, and only the next one may be torn. -/
theorem main_stops (fuel : Nat) (d : Device)
    (hj : ∀ p, planOf h a verb = .ret (.ok p) → List.Forall₂ Job.Burns p.jobs ws) (hs : ws.Pairwise Spares)
    (m : Nat → UInt8) :
    ∃ k, ((main fuel h verb a d []).1 = .ret 0 → ws.length ≤ k) ∧
      (∀ w ∈ ws.take k, Holds (deviceFlash m (written (main fuel h verb a d []).2)) w.addr w.data) ∧
      ∀ i, (∀ w ∈ ws.take (k + 1), i ∉ w.cells) →
        deviceFlash m (written (main fuel h verb a d []).2) i = m i := by
  obtain ⟨hburning, hburnt⟩ := main_burns fuel d hj m
  by_cases hret : (main fuel h verb a d []).1 = .ret 0
  · refine ⟨ws.length, fun _ => Nat.le_refl _, fun w hw => ?_, fun i hi => ?_⟩
    · rw [hburnt hret]
      exact holds_burnAll ws m hs w (List.mem_of_mem_take hw)
    · rw [List.take_of_length_le (Nat.le_succ _)] at hi
      exact hburning.outside hi
  · obtain ⟨k, hheld, hout⟩ := hburning.stopped hs
    exact ⟨k, fun hr => absurd hr hret, hheld, hout⟩

/-- **No cell that the commands of a verb do not name changes**, in any run, whatever the files and the package hold. -/
theorem main_spares (fuel : Nat) (d : Device) (m : Nat → UInt8) {i : Nat}
    (hi : ∀ p, planOf h a verb = .ret (.ok p) → ∀ j ∈ p.jobs, i ∉ j.cmd.cells) :
    deviceFlash m (written (main fuel h verb a d []).2) i = m i := by
  rcases main_cases fuel h verb a d with ⟨hw, _⟩ | ⟨p, _, _, hp, _, hw⟩
  · rw [hw]
    rfl
  · rw [hw]
    refine runPlan_spares d _ fuel a (planOf_cmd hp (P := fun c => ∃ addr len eras, c = downloadCmd addr len eras)
      (fun addr len eras => ⟨addr, len, eras, rfl⟩) ?_) m (hi p hp)
    exact ⟨0, 0, 0xffffffff, downloadi_eq⟩

end

theorem main_spares_sample :
    deviceFlash (fun _ => 7) (written (main 2 (hostOf samplePkg) .flash plainArgs ackDevice []).2) 0 = 7 := by
  refine main_spares 2 ackDevice (fun _ => 7) (fun p hp j hj => ?_)
  have hlb : findLoaderboot sampleBins = some (sampleBin 0x61 116 0 0) := by decide
  have hplan : planFlash (hostOf samplePkg) plainArgs =
      .ret (.ok (flashPlan plainArgs samplePkg sampleBins (sampleBin 0x61 116 0 0))) := by
    rw [planFlash_accepted (h := hostOf samplePkg) (a := plainArgs) rfl rfl samplePkg_accepted, hlb]
    rfl
  obtain rfl := Except.ok.inj (Out.ret.inj (hplan.symm.trans hp))
  have hjob : j = flashJob samplePkg (sampleBin 0x62 117 0x230000 1) := by
    have hsel : selected plainArgs sampleBins = [sampleBin 0x62 117 0x230000 1] := by decide +kernel
    rw [flashPlan, hsel] at hj
    exact List.mem_singleton.1 hj
  rw [hjob, flashJob, Cmddef.cells, (downloadCmd_fields _ _ _).1]
  rintro (⟨hlow, _⟩ | ⟨hlow, _⟩) <;> exact absurd hlow (by decide)

/-! ## `--flash` -/

theorem planFlash_burns {h : Host} {a : Args} {path : CStr} {fw : List UInt8} {header : FwpkgHeader}
    {bins : List FwpkgBinInfo} (hpath : a.args[1]? = some path) (hopen : h.fopen path = .ok fw)
    (hacc : Accepted fw header bins) (hin : ∀ b ∈ selected a bins, b.offset.toNat + b.length.toNat ≤ fw.length) (p : Plan)
    (hp : planOf h a .flash = .ret (.ok p)) :
    List.Forall₂ Job.Burns p.jobs ((selected a bins).map (FwpkgBinInfo.image fw)) := by
  suffices hjobs : p.jobs = (selected a bins).map (flashJob fw) by
    rw [hjobs]
    exact flashJobs_burn (selected a bins) hin
  have hp : planFlash h a = .ret (.ok p) := hp
  rw [planFlash_accepted hpath hopen hacc] at hp
  repeat' split at hp
  all_goals first
    | rw [← Except.ok.inj (Out.ret.inj hp), flashPlan]
    | exact nomatch hp

/-- **`--flash` puts the selected records in place in table order**: wherever a run stops, the first of them are on the
flash and only cells of these and of the next one have changed; a run that returns 0 has put all of them there. -/
theorem main_flash_stops (fuel : Nat) (d : Device) {h : Host} {a : Args} {path : CStr} {fw : List UInt8}
    {header : FwpkgHeader} {bins : List FwpkgBinInfo} (hpath : a.args[1]? = some path) (hopen : h.fopen path = .ok fw)
    (hacc : Accepted fw header bins) (hin : ∀ b ∈ selected a bins, b.offset.toNat + b.length.toNat ≤ fw.length)
    (hs : ((selected a bins).map (FwpkgBinInfo.image fw)).Pairwise Spares) (m : Nat → UInt8) :
    let run := main fuel h .flash a d []
    let flash := deviceFlash m (written run.2)
    ∃ k, (run.1 = .ret 0 → (selected a bins).length ≤ k) ∧
      (∀ b ∈ (selected a bins).take k, Holds flash b.burnAddr.toNat (b.data fw)) ∧
      ∀ i, (∀ b ∈ (selected a bins).take (k + 1), i ∉ (b.image fw).cells) → flash i = m i := by
  obtain ⟨k, hall, hheld, hout⟩ := main_stops fuel d (planFlash_burns hpath hopen hacc hin) hs m
  rw [List.length_map] at hall
  refine ⟨k, hall, fun b hb => hheld (b.image fw) ?_, fun i hi => hout i ?_⟩
  · rw [← List.map_take]
    exact List.mem_map_of_mem hb
  · rw [← List.map_take, List.forall_mem_map]
    exact hi

theorem main_flash_stops_sample :
    let flash := deviceFlash (fun _ => 0) (written (main 2 (hostOf apartPkg) .flash plainArgs ackDevice []).2)
    Holds flash 0x232000 [0x42] ∧ Holds flash 0x230000 [0x43] := by
  have hspares : ((selected plainArgs apartBins).map (FwpkgBinInfo.image apartPkg)).Pairwise Spares := by
    rw [apartBins_selected, List.map_cons, List.map_cons, List.map_nil, List.pairwise_pair]
    exact .of_apart (Or.inr (by decide +kernel))
  obtain ⟨k, hall, hheld, _⟩ := main_flash_stops 2 ackDevice (h := hostOf apartPkg) (a := plainArgs) rfl rfl
    apartPkg_accepted apartBins_inside hspares (fun _ => 0)
  have hk := hall (by decide +kernel)
  rw [List.take_of_length_le hk] at hheld
  exact apartBins_held hheld

/-! ## `--write` -/

/-- What the command and the session of a file burn. -/
def Wobj.image (h : Host) (w : Wobj) : Image UInt8 where
  addr := w.addr
  erased := (erasSize w.length).toNat
  data := copied h { w with name := basenameCut w.name }

theorem writeJob_burns {h : Host} {w : Wobj} (hr : Regular h w) (haddr : w.addr < 2 ^ 32) (hlen : w.length < 2 ^ 32) :
    (writeJob h { w with name := basenameCut w.name }).Burns (w.image h) := by
  obtain ⟨c, hc, hcl⟩ := hr
  have hfits : (writePart h { w with name := basenameCut w.name }).Fits := ⟨c, hc, Nat.le_of_eq hcl.symm⟩
  have hburns := Job.Burns.store (UInt32.ofNat w.addr) (erasSize w.length) hfits hlen
  rwa [show (UInt32.ofNat w.addr).toNat = w.addr by rw [UInt32.toNat_ofNat', Nat.mod_eq_of_lt haddr]] at hburns

/-- **`--write` puts the files in place in their order**: wherever a run stops, the first files are on the flash and only
cells of these and of the next file have changed; a run that returns 0 has put all of them there. -/
theorem main_write_stops (fuel : Nat) (d : Device) {h : Host} {a : Args} {boot : Wobj} {wobjs : List Wobj}
    (hparse : parseWobjs h (a.args.drop 1) = .ok (boot :: wobjs)) (hreg : ∀ w ∈ wobjs, Regular h w)
    (hfits : ∀ w ∈ wobjs, w.addr < 2 ^ 32 ∧ w.length < 2 ^ 32)
    (hs : (wobjs.map (Wobj.image h)).Pairwise Spares) (m : Nat → UInt8) :
    let run := main fuel h .write a d []
    let flash := deviceFlash m (written run.2)
    ∃ k, (run.1 = .ret 0 → wobjs.length ≤ k) ∧
      (∀ w ∈ wobjs.take k, ∃ c, h.fopen (basenameCut w.name) = .ok c ∧ Holds flash w.addr c) ∧
      ∀ i, (∀ w ∈ wobjs.take (k + 1), i ∉ (w.image h).cells) → flash i = m i := by
  have hj : ∀ p, planOf h a .write = .ret (.ok p) → List.Forall₂ Job.Burns p.jobs (wobjs.map (Wobj.image h)) := by
    intro p hp
    have hplan : planWrite h a = .ret (.ok ⟨writePart h { boot with name := basenameCut boot.name }, true,
        (cutNames wobjs).map (writeJob h)⟩) := by
      rw [planWrite, hparse]
      rfl
    obtain rfl := Except.ok.inj (Out.ret.inj (hplan.symm.trans hp))
    show List.Forall₂ Job.Burns ((cutNames wobjs).map (writeJob h)) _
    rw [cutNames, List.map_map, List.forall₂_map_left_iff, List.forall₂_map_right_iff, List.forall₂_same]
    exact fun w hw => writeJob_burns (hreg w hw) (hfits w hw).1 (hfits w hw).2
  obtain ⟨k, hall, hheld, hout⟩ := main_stops fuel d hj hs m
  rw [List.length_map] at hall
  refine ⟨k, hall, fun w hw => ?_, fun i hi => hout i ?_⟩
  · refine ⟨_, (hreg w (List.mem_of_mem_take hw)).copied.1, hheld (w.image h) ?_⟩
    rw [← List.map_take]
    exact List.mem_map_of_mem hw
  · rw [← List.map_take, List.forall_mem_map]
    exact hi

/-- `--write` of a loaderboot and two files of one byte, the one of the higher address first. -/
def twoFiles : Args := ⟨[ttyT, fileA, atAddr fileB true 0x232000, atAddr fileC true 0x230000], 115200, false⟩

def filesTable : List (CStr × List UInt8) := [(fileA, [0x41]), (fileB, [0x42]), (fileC, [0x43])]

theorem main_write_stops_sample :
    let flash := deviceFlash (fun _ => 0) (written (main 2 (hostWith filesTable) .write twoFiles ackDevice []).2)
    Holds flash 0x232000 [0x42] ∧ Holds flash 0x230000 [0x43] := by
  have hparse : parseWobjs (hostWith filesTable) (twoFiles.args.drop 1)
      = .ok [⟨fileA, 1, 0⟩, ⟨fileB, 1, 0x232000⟩, ⟨fileC, 1, 0x230000⟩] := by
    show parseWobjs (hostWith filesTable) [fileA, atAddr fileB true 0x232000, atAddr fileC true 0x230000] = _
    rw [parseWobjs, parseWobj_bare (n := 1) (by decide) rfl, List.mapM_cons, List.mapM_cons,
      parseWobj_atAddr (n := 1) false true (by decide) rfl (by decide),
      parseWobj_atAddr (n := 1) false true (by decide) rfl (by decide)]
    rfl
  have hreg : ∀ w ∈ [(⟨fileB, 1, 0x232000⟩ : Wobj), ⟨fileC, 1, 0x230000⟩], Regular (hostWith filesTable) w := by
    intro w hw
    rcases List.mem_cons.1 hw with rfl | hw
    · exact ⟨[0x42], rfl, rfl⟩
    · rw [List.mem_singleton.1 hw]
      exact ⟨[0x43], rfl, rfl⟩
  have hspares : ([(⟨fileB, 1, 0x232000⟩ : Wobj), ⟨fileC, 1, 0x230000⟩].map (Wobj.image (hostWith filesTable))).Pairwise
      Spares := by
    rw [List.map_cons, List.map_cons, List.map_nil, List.pairwise_pair]
    exact .of_apart (Or.inr (by decide +kernel))
  obtain ⟨k, hall, hheld, _⟩ := main_write_stops 2 ackDevice hparse hreg (by decide) hspares (fun _ => 0)
  have hk := hall (by decide +kernel)
  rw [List.take_of_length_le hk] at hheld
  obtain ⟨c, hc, hfirst⟩ := hheld ⟨fileB, 1, 0x232000⟩ List.mem_cons_self
  obtain ⟨c', hc', hsecond⟩ := hheld ⟨fileC, 1, 0x230000⟩ (List.mem_cons_of_mem _ List.mem_cons_self)
  obtain rfl : [0x42] = c := Except.ok.inj hc
  obtain rfl : [0x43] = c' := Except.ok.inj hc'
  exact ⟨hfirst, hsecond⟩

/-! ## `--erase` -/

/-- **`--erase` erases all or nothing**, in every run, and all when it returns 0; the cell 0xffffffff is never erased. -/
theorem main_erase_whole (fuel : Nat) (h : Host) (a : Args) (d : Device) (m : Nat → UInt8) :
    let run := main fuel h .erase a d []
    let flash := deviceFlash m (written run.2)
    (flash = m ∨ flash = fill 0xff m 0 0xffffffff) ∧ (run.1 = .ret 0 → flash = fill 0xff m 0 0xffffffff) := by
  have hj : ∀ p, planOf h a .erase = .ret (.ok p) → List.Forall₂ Job.Burns p.jobs [⟨0, 0xffffffff, []⟩] := by
    intro p hp
    rw [planErase_eq_ok hp, downloadi_eq]
    exact .cons (.erase 0 0 0xffffffff) .nil
  have hfill : burn 0xff m ⟨0, 0xffffffff, []⟩ = fill 0xff m 0 0xffffffff := store_nil _ _
  obtain ⟨hburning, hburnt⟩ := main_burns fuel d hj m
  refine ⟨?_, fun hr => (hburnt hr).trans hfill⟩
  generalize deviceFlash m (written (main fuel h .erase a d []).2) = flash at hburning
  cases hburning with
  | stop => exact Or.inl rfl
  | torn m w ws n =>
    right
    rw [burnTo, List.take_nil, store_nil]
  | next hnext =>
    cases hnext
    exact Or.inr hfill

/-! ## `--write-program` -/

theorem signFile_size (h : Host) (bin : List UInt8) :
    (signFile h.sha256 bin).2.length = 0x300 + (bin.length + 15) / 16 * 16 := by
  rw [signFile_bytes h.sha256_length, List.length_append, (signHead_fields h.sha256_length bin).1, signBytes_length]
  rfl

theorem progJob_burns {h : Host} {bin : List UInt8} (hlen : (signFile h.sha256 bin).2.length < 2 ^ 32) :
    (progJob h bin).Burns
      ⟨0x230000, (erasSize (signFile h.sha256 bin).2.length).toNat, (signFile h.sha256 bin).2⟩ := by
  have hfits : (⟨.ok (signFile h.sha256 bin).2, progName, (signFile h.sha256 bin).2.length⟩ : Part).Fits :=
    ⟨_, rfl, Nat.le_refl _⟩
  have hburns := Job.Burns.store 0x230000 (erasSize (signFile h.sha256 bin).2.length) hfits hlen
  have hdata : (⟨.ok (signFile h.sha256 bin).2, progName, (signFile h.sha256 bin).2.length⟩ : Part).data =
      (signFile h.sha256 bin).2 := List.take_length
  rw [hdata] at hburns
  rw [progJob, ← signFile_length h.sha256_length]
  exact hburns

/-- **`--write-program` puts a signed image in place**: after a run that returns 0 the flash has at 0x230000 a header and
the program padded to a multiple of 16, which the header describes by their SHA-256, as `lib/sha256.c` makes it; no run
changes a cell outside the area of the image. -/
theorem main_writeProg_holds (fuel : Nat) (d : Device) {h : Host} {a : Args} {path : CStr} {bin : List UInt8}
    (hsha : h.sha256 = Fips180.sha256) (hpath : a.args[1]? = some path) (hopen : h.fopen path = .ok bin)
    (hlen : 0x300 + (bin.length + 15) / 16 * 16 < 2 ^ 32) (m : Nat → UInt8) :
    let run := main fuel h .writeProg a d []
    let flash := deviceFlash m (written run.2)
    let size := 0x300 + (bin.length + 15) / 16 * 16
    (run.1 = .ret 0 → ∃ header pad, pad < 16 ∧ 16 ∣ bin.length + pad ∧
      Describes Fips180.sha256 header (bin ++ List.replicate pad 0) ∧
      (∀ place, (digestFile place bin).2 = header ++ (bin ++ List.replicate pad 0)) ∧
      Holds flash 0x230000 (header ++ (bin ++ List.replicate pad 0))) ∧
    ∀ i, i ∉ area 0x230000 (max (erasSize size).toNat size) → flash i = m i := by
  obtain ⟨hsize, hcode, hhash⟩ := signHead_fields h.sha256_length bin
  have hfile := signFile_size h bin
  have hj : ∀ p, planOf h a .writeProg = .ret (.ok p) → List.Forall₂ Job.Burns p.jobs
      [⟨0x230000, (erasSize (signFile h.sha256 bin).2.length).toNat, (signFile h.sha256 bin).2⟩] := by
    intro p hp
    have hjob : p.jobs = [progJob h bin] := by
      unfold planOf planWriteProg at hp
      rw [hpath] at hp
      dsimp only at hp
      rw [hopen] at hp
      dsimp only at hp
      split at hp
      · exact nomatch hp
      · rw [← Except.ok.inj (Out.ret.inj hp)]
    rw [hjob]
    exact .cons (progJob_burns (by rw [hfile]; exact hlen)) .nil
  obtain ⟨hburning, hburnt⟩ := main_burns fuel d hj m
  refine ⟨fun hr => ?_, fun i hi => hburning.outside (fun w hw => ?_)⟩
  · refine ⟨signHead h.sha256 bin, (bin.length + 15) / 16 * 16 - bin.length, by omega, ⟨(bin.length + 15) / 16, by omega⟩,
      ⟨hsize, ?_, by rw [← hsha]; exact hhash⟩, fun place => ?_, ?_⟩
    · show (ofLe32 (slice (signHead h.sha256 bin) (0x100 + 36) 4)).toNat = (signBytes bin).length
      rw [hcode, ofLe32_le32, UInt32.toNat_ofNat', Nat.mod_eq_of_lt (by rw [signBytes_length]; omega)]
    · rw [(digestFile_eq place bin).2, ← hsha]
      exact signFile_bytes h.sha256_length bin
    · rw [hburnt hr]
      show Holds _ 0x230000 (signHead h.sha256 bin ++ signBytes bin)
      rw [← signFile_bytes h.sha256_length]
      exact holds_store _ _ _
  · rw [List.mem_singleton.1 hw, Image.cells, hfile]
    exact hi

theorem main_writeProg_holds_sample : ∃ fuel header pad, pad < 16 ∧
    Describes Fips180.sha256 header ([0x41] ++ List.replicate pad 0) ∧
    Holds (deviceFlash (fun _ => 0) (written (main fuel (digestHost progTable) .writeProg
      (progArgs ttyT fileP 115200 false) ackDevice []).2)) 0x230000 (header ++ ([0x41] ++ List.replicate pad 0)) := by
  have hplan := @Signed.planWriteProg (digestHost progTable) _ _ ttyT fileP false 115200 progTable_signed rfl rfl
  obtain ⟨fuel, hret⟩ := @main_ack (digestHost progTable) .writeProg (progArgs ttyT fileP 115200 false) _ (by decide) rfl
    hplan (fun q hq => by
    rcases List.mem_cons.1 hq with rfl | hq
    · rfl
    · rw [List.mem_singleton.1 hq]
      rfl)
  obtain ⟨hheld, _⟩ := main_writeProg_holds fuel ackDevice (h := digestHost progTable) (a := progArgs ttyT fileP 115200 false)
    rfl rfl rfl (by decide) (fun _ => 0)
  obtain ⟨header, pad, hpad, _, hdescr, _, hholds⟩ := hheld hret
  exact ⟨fuel, header, pad, hpad, hdescr, hholds⟩

end Ws63Flash
