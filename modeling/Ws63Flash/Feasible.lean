import Ws63Flash.MainDevice
import Ws63Flash.Replies
/-!
# Feasible — which command lines can succeed

Nothing the device does makes up for a file that is missing, and nothing else stands in the way: a verb is defined and there
is a device on which it returns 0 exactly when its arguments and files are in order (`main_feasible_iff`).
-/
namespace Ws63Flash

open Proc

/-- The arguments and files of a verb are in order. -/
def Feasible (h : Host) (a : Args) : Verb → Prop
  | .flash     => ∃ path fw header bins, a.args[1]? = some path ∧ h.fopen path = .ok fw ∧ Accepted fw header bins ∧
      (∃ bin ∈ bins, bin.type2 = 0) ∧ NamesEnd bins ∧ ∀ arg ∈ a.args.drop 2, arg ∈ tableNames bins
  | .write     => ∃ wobjs, parseWobjs h (a.args.drop 1) = .ok wobjs ∧ wobjs ≠ [] ∧
      ∀ w ∈ wobjs, ∃ f, h.fopen (basenameCut w.name) = .ok f
  | .erase     => h.tmpfile = true
  | .writeProg => ∃ path bin, a.args[1]? = some path ∧ h.fopen path = .ok bin ∧ h.tmpfile = true

/-- The verb has a plan, and the files of its transfers can be opened. -/
def Planned (h : Host) (a : Args) (verb : Verb) : Prop :=
  ∃ p, planOf h a verb = .ret (.ok p) ∧ ∀ q ∈ p.parts, q.opened = true

section

variable {h : Host} {a : Args}

theorem flash_planned : Planned h a .flash ↔ Feasible h a .flash := by
  constructor
  · rintro ⟨p, hp, _⟩
    have hp : planFlash h a = .ret (.ok p) := hp
    unfold planFlash at hp
    split at hp
    · exact nomatch hp
    rename_i path hpath
    split at hp
    · exact nomatch hp
    rename_i fw hopen
    split at hp
    · exact nomatch hp
    · exact nomatch hp
    rename_i header hhead
    split at hp
    · exact nomatch hp
    rename_i bins hinfos
    split at hp
    · exact nomatch hp
    rename_i lb hlb
    split at hp
    · exact nomatch hp
    rename_i hends
    split at hp
    · exact nomatch hp
    rename_i hasked
    refine ⟨path, fw, header, bins, hpath, hopen, ⟨hhead, hinfos⟩, findLoaderboot_isSome.1 ⟨lb, hlb⟩,
      Classical.not_not.1 hends, fun arg harg => ?_⟩
    by_contra hn
    exact hasked ⟨arg, harg, hn⟩
  · rintro ⟨path, fw, header, bins, hpath, hopen, hacc, hboot, hends, hasked⟩
    obtain ⟨lb, hlb⟩ := findLoaderboot_isSome.2 hboot
    have hall : ¬ ∃ arg ∈ a.args.drop 2, arg ∉ tableNames bins := by
      rintro ⟨arg, harg, hne⟩
      exact hne (hasked arg harg)
    refine ⟨flashPlan a fw bins lb, ?_, fun q hq => ?_⟩
    · show planFlash h a = _
      rw [planFlash_accepted hpath hopen hacc, hlb]
      dsimp only
      rw [if_neg (fun hn => hn hends), if_neg hall]
    · rw [flashPlan_parts] at hq
      obtain ⟨b, _, rfl⟩ := List.mem_map.1 hq
      rfl

theorem writePart_opened {w : Wobj} : (writePart h w).opened = true ↔ ∃ f, h.fopen w.name = .ok f := by
  unfold Part.opened writePart
  cases h.fopen w.name with
  | error e => simp [Except.isOk, Except.toBool]
  | ok f    => simp [Except.isOk, Except.toBool]

/-- The files of `--write`, by their names as `basename` leaves them. -/
theorem writePlan_parts (boot : Wobj) (wobjs : List Wobj) :
    (⟨writePart h boot, true, wobjs.map (writeJob h)⟩ : Plan).parts = (boot :: wobjs).map (writePart h) := by
  show writePart h boot :: List.filterMap Job.part (wobjs.map (writeJob h)) = _
  rw [List.filterMap_map, List.map_cons, ← List.filterMap_eq_map]
  rfl

theorem write_planned : Planned h a .write ↔ Feasible h a .write := by
  have hmap : ∀ wobjs : List Wobj, (∀ q ∈ (wobjs.map (fun w : Wobj => { w with name := basenameCut w.name })).map (writePart h),
      q.opened = true) ↔ ∀ w ∈ wobjs, ∃ f, h.fopen (basenameCut w.name) = .ok f := by
    intro wobjs
    rw [List.map_map, List.forall_mem_map]
    exact forall₂_congr (fun w _ => writePart_opened)
  constructor
  · rintro ⟨p, hp, hopen⟩
    have hp : planWrite h a = .ret (.ok p) := hp
    unfold planWrite at hp
    split at hp
    · exact nomatch hp
    rename_i wobjs hparse
    split at hp
    · exact nomatch hp
    rename_i boot wobjs' hcut
    cases hp
    rw [writePlan_parts, ← hcut, hmap] at hopen
    refine ⟨wobjs, hparse, ?_, hopen⟩
    rintro rfl
    cases hcut
  · rintro ⟨wobjs, hparse, hne, hopen⟩
    rcases wobjs with _ | ⟨boot, wobjs⟩
    · exact absurd rfl hne
    · rw [← hmap] at hopen
      refine ⟨⟨writePart h { boot with name := basenameCut boot.name }, true,
        (wobjs.map (fun w : Wobj => { w with name := basenameCut w.name })).map (writeJob h)⟩, ?_, fun q hq => ?_⟩
      · show planWrite h a = _
        rw [planWrite, hparse]
        rfl
      · rw [writePlan_parts] at hq
        exact hopen q hq

theorem erase_planned : Planned h a .erase ↔ Feasible h a .erase := by
  constructor
  · rintro ⟨p, hp, _⟩
    have hp : planErase h = .ret (.ok p) := hp
    unfold planErase at hp
    split at hp
    · exact nomatch hp
    · rename_i htmp
      exact Classical.not_not.1 htmp
  · intro htmp
    refine ⟨_, if_neg (fun hn => hn htmp), fun q hq => ?_⟩
    rw [List.mem_singleton.1 hq]
    rfl

theorem writeProg_planned : Planned h a .writeProg ↔ Feasible h a .writeProg := by
  constructor
  · rintro ⟨p, hp, _⟩
    have hp : planWriteProg h a = .ret (.ok p) := hp
    unfold planWriteProg at hp
    split at hp
    · exact nomatch hp
    rename_i path hpath
    split at hp
    · exact nomatch hp
    rename_i bin hopen
    split at hp
    · exact nomatch hp
    · rename_i htmp
      exact ⟨path, bin, hpath, hopen, Classical.not_not.1 htmp⟩
  · rintro ⟨path, bin, hpath, hopen, htmp⟩
    refine ⟨⟨builtinPart h, true, [progJob h bin]⟩, ?_, fun q hq => ?_⟩
    · show planWriteProg h a = _
      simp only [planWriteProg, hpath, hopen, htmp, not_true_eq_false, if_false]
    · rcases List.mem_cons.1 hq with rfl | hq
      · rfl
      · rw [List.mem_singleton.1 hq]
        rfl

theorem planned_iff : ∀ verb : Verb, Planned h a verb ↔ Feasible h a verb
  | .flash     => flash_planned
  | .write     => write_planned
  | .erase     => erase_planned
  | .writeProg => writeProg_planned

/-- **Which command lines can succeed**, in runs that are defined: those with the arguments that `parse_opt` lets pass, a
terminal that can be opened and files in order. -/
theorem main_feasible_iff (h : Host) (verb : Verb) (a : Args) :
    ((∃ d fuel, (main fuel h verb a d []).1 = .ret 0) ∧ ∀ d l fuel, ¬ UndefinedAtOnce (verbRun fuel h a verb d l)) ↔
      parseOpt verb a.args.length = true ∧ h.tty = true ∧ Feasible h a verb := by
  rw [← planned_iff]
  constructor
  · rintro ⟨⟨d, fuel, hret⟩, _⟩
    rcases main_cases fuel h verb a d with ⟨_, hne⟩ | ⟨p, hparse, htty, hp, hout, _⟩
    · exact absurd hret hne
    · refine ⟨hparse, htty, p, hp, ?_⟩
      rw [hout, ← runPlanHeard_fst] at hret
      obtain ⟨heard, hrun⟩ := ret_of_bind_fst hret
      exact (runPlanHeard_returns fuel a p d _ _ hrun rfl).2
  · rintro ⟨hparse, htty, p, hp, hopen⟩
    have hdef : ∀ d l fuel, ¬ UndefinedAtOnce (verbRun fuel h a verb d l) := by
      intro d l fuel hund
      rw [verbRun_undefined_iff, hp] at hund
      cases hund
    obtain ⟨fuel, hret⟩ := main_ack hparse htty hp hopen
    exact ⟨⟨ackDevice, fuel, hret⟩, hdef⟩

end

end Ws63Flash
