import Ws63Flash.InjectSize
/-!
# FwpkgMain — `parse_opt` and `main` of `ws63fwpkg.c`

The file that `-o` names is opened without being cut: what it held beyond the end of the output stays behind it.
-/
namespace Ws63Flash

open Octets Proc

/-- `parse_opt` lets `n` arguments of `--inject` pass, one by one and then their number. -/
def parseInject (n : Nat) : Bool := (List.range n).all (fun i => !decide (i ≥ MAX_PARTITION_CNT)) && !decide (n < 2)

/-- `open(arg, O_RDWR | O_CREAT, 0644)`, and `fdopen(fd, "r+")`: the bytes of the file. -/
def openOut (old : Option (List UInt8)) : List UInt8 := old.getD []

/-- `main` on `-o` and `--inject`: its status, and the file that `-o` names. -/
def ws63fwpkg (fuel : Nat) (h : Host) (stack : StackRecs) (args : List CStr) (old : Option (List UInt8)) (io : FileIo) :
    Out Int × List UInt8 :=
  if ¬ parseInject args.length then (.ret EX_USAGE, openOut old)
  else
    let (ret, e) := verbInject fuel h stack args io []
    (ret, overwrite (openOut old) (output e))

/-- `--inject` stays within its objects, and whenever it succeeds, the file that `-o` names is the same whether it was `old`
before or `old'`. -/
def SameOutput (h : Host) (args : List CStr) (old old' : Option (List UInt8)) : Prop :=
  ∀ (fuel : Nat) (stack : StackRecs) (io : FileIo), (ws63fwpkg fuel h stack args old io).1 ≠ .stop .undefined ∧
    ((ws63fwpkg fuel h stack args old io).1 = .ret 0 →
      (ws63fwpkg fuel h stack args old io).2 = (ws63fwpkg fuel h stack args old' io).2)

theorem overwrite_inj {old old' out : List UInt8} : overwrite old out = overwrite old' out ↔
    old.drop out.length = old'.drop out.length := List.append_right_inj out

section

variable {h : Host} {args : List CStr} {path : CStr} {wobjs : List Wobj} {infw : List UInt8} {header : FwpkgHeader}
  {bins : List FwpkgBinInfo}

theorem ws63fwpkg_parsed (hparse : parseInject args.length = true) (fuel : Nat) (stack : StackRecs)
    (old : Option (List UInt8)) (io : FileIo) : ws63fwpkg fuel h stack args old io
      = ((verbInject fuel h stack args io []).1, overwrite (openOut old) (output (verbInject fuel h stack args io []).2)) :=
  if_neg (fun hn => hn hparse)

theorem ws63fwpkg_ret (hparse : parseInject args.length = true) (fuel : Nat) (stack : StackRecs)
    (old : Option (List UInt8)) (io : FileIo) :
    (ws63fwpkg fuel h stack args old io).1 = (verbInject fuel h stack args io []).1 :=
  congrArg Prod.fst (ws63fwpkg_parsed hparse fuel stack old io)

/-- **The file after a run that succeeds**: what was written, and the old bytes behind it. -/
theorem Injectable.sameFile_iff (hi : Injectable h args wobjs infw header bins) (hparse : parseInject args.length = true)
    (old old' : Option (List UInt8)) {fuel : Nat} {stack : StackRecs} {io : FileIo}
    (hret : (verbInject fuel h stack args io []).1 = .ret 0) :
    (ws63fwpkg fuel h stack args old io).2 = (ws63fwpkg fuel h stack args old' io).2 ↔
      (openOut old).drop (outSize h infw bins wobjs) = (openOut old').drop (outSize h infw bins wobjs) := by
  rw [ws63fwpkg_parsed hparse, ws63fwpkg_parsed hparse]
  dsimp only
  rw [overwrite_inj, (hi.output_size hret).1]

/-- Where `--inject` can succeed, the old bytes beyond its output make the difference. -/
theorem Injectable.drop_eq (hi : Injectable h args wobjs infw header bins) (hparse : parseInject args.length = true)
    {old old' : Option (List UInt8)} (hsame : SameOutput h args old old') :
    (openOut old).drop (outSize h infw bins wobjs) = (openOut old').drop (outSize h infw bins wobjs) := by
  obtain ⟨fuel, hret⟩ := hi.succeeds zeroStack
  refine (hi.sameFile_iff hparse old old' hret).1 ((hsame fuel zeroStack goodIo).2 ?_)
  exact (ws63fwpkg_ret hparse ..).trans hret

/-- **When the file does not depend on what it was**: when the arguments are refused, or the inputs are such that `--inject`
stays within its objects, and what lies beyond the size of the output was the same. -/
theorem ws63fwpkg_sameOutput_iff (hpath : args[0]? = some path) (hopen : h.fopen path = .ok infw)
    (hacc : Accepted infw header bins) (old old' : Option (List UInt8)) :
    SameOutput h args old old' ↔ (parseInject args.length = true → ∀ wobjs,
      (args.drop 1).mapM (parseWobj h false) = .ok wobjs → Injectable h args wobjs infw header bins ∧
        (openOut old).drop (outSize h infw bins wobjs) = (openOut old').drop (outSize h infw bins wobjs)) := by
  by_cases hparse : parseInject args.length = true
  · have hruns := verbInject_everyRun_iff hpath hopen hacc (fun _ hi _ _ _ hret => hi.sameFile_iff hparse old old' hret)
    rw [forall_prop_of_true hparse, ← hruns]
    simp only [SameOutput, ws63fwpkg_ret hparse]
    exact ⟨fun hsame io stack fuel => hsame fuel stack io, fun hsame fuel stack io => hsame io stack fuel⟩
  · refine iff_of_true (fun fuel stack io => ?_) (fun hn => absurd hn hparse)
    unfold ws63fwpkg
    rw [if_pos hparse]
    exact ⟨nofun, fun hret => by cases hret⟩

end

/-- Nothing is left of a shorter file. -/
theorem ws63fwpkg_shorter : SameOutput (hostWith (injectTable samplePkg)) injectArgs none (some [0x43]) := by
  refine (ws63fwpkg_sameOutput_iff rfl rfl samplePkg_accepted none (some [0x43])).2 (fun _ wobjs hparsed => ?_)
  rw [injectArgs_parsed] at hparsed
  cases hparsed
  exact ⟨inject_sample, by decide +kernel⟩

/-- **The end of a longer file** stays behind the output. -/
theorem ws63fwpkg_longer : ¬ SameOutput (hostWith (injectTable samplePkg)) injectArgs none (some (List.replicate 172 0)) := by
  intro hsame
  exact absurd (inject_sample.drop_eq (by decide) hsame) (by decide +kernel)

end Ws63Flash
