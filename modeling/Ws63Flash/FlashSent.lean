import Ws63Flash.FailStop
/-!
# FlashSent — which records are transferred?

The loaderboot is the last record of type 0, the printed plan marks with `*` what is on the line and of another type, the
check of the names asks only that they occur, and the transfer loop takes what is on the line and of type 1.
`verbFlashSent` is the verb with the places of the records whose transfer succeeded; `verbFlash_transmits_iff` says when
these are all that were asked for.
-/
namespace Ws63Flash

open Proc

/-! ## The verb with the places of the records -/

/-- `flash_flag` of a record whose name is the string `name`, as the plan prints it: `!`, `*` or a blank. -/
def flashFlag (a : Args) (bin : FwpkgBinInfo) (name : CStr) : UInt8 :=
  if bin.type2 = 0 then 0x21
  else if binInArgs name a then 0x2a
  else 0x20

/-- The loop that looks for the loaderboot, with its place. -/
def findLoaderbootAt (bins : List FwpkgBinInfo) : Option (FwpkgBinInfo × Nat) :=
  bins.zipIdx.foldl (fun loaderboot p => if p.1.type2 = 0 then some p else loaderboot) none

/-- The place `i` is noted when `ymodem_xfer` has returned 0. -/
def noteIf (ret : Int) (i : Nat) (sent : List Nat) : List Nat := if ret = EXIT_SUCCESS then i :: sent else sent

/-- `flashFiles`, with the places of the records that it has transferred. -/
def flashFilesSent (fuel : Nat) (a : Args) (fw : List UInt8) : List (FwpkgBinInfo × Nat) → Tty (Int × List Nat)
  | []      => return (0, [])
  | p :: ps =>
    if p.1.type2 ≠ 1 then flashFilesSent fuel a fw ps
    else if ¬ binInArgs p.1.str a then flashFilesSent fuel a fw ps
    else do
      let ret ← ws63SendCmddef fuel (downloadCmd p.1.burnAddr p.1.length (erasSize p.1.length.toNat))
      if ret < 0 then return (EXIT_FAILURE, [])
      else
        let _ ← uartReadUntilMagic fuel
        let ret ← ymodemXfer fuel (fw.drop p.1.offset.toNat) p.1.str p.1.length.toNat
        if ret < 0 then return (EXIT_FAILURE, [])
        else
          let s ← flashFilesSent fuel a fw ps
          return (s.1, noteIf ret p.2 s.2)

/-- `verb_flash` on a package, with the places of the records that it has transferred: the loaderboot's first. -/
def verbFlashSent (fuel : Nat) (a : Args) (fw : List UInt8) (bins : List FwpkgBinInfo) : Tty (Int × List Nat) :=
  match findLoaderbootAt bins with
  | none    => return (EXIT_FAILURE, [])
  | some lb =>
    if ¬ NamesEnd bins then Proc.halt .undefined
    else if ∃ arg ∈ a.args.drop 2, arg ∉ tableNames bins then return (EXIT_FAILURE, [])
    else do
      let ret ← handshakeLoop fuel a
      if ret ≠ 0 then return (ret, [])
      else
        let xfer ← ymodemXfer fuel (fw.drop lb.1.offset.toNat) lb.1.str lb.1.length.toNat
        if xfer < 0 then return (EXIT_FAILURE, [])
        else
          let _ ← uartReadUntilMagic fuel
          let ret ← switchBaud fuel a
          if ret ≠ 0 then return (ret, noteIf xfer lb.2 [])
          else
            let s ← flashFilesSent fuel a fw bins.zipIdx
            if s.1 ≠ 0 then return (s.1, noteIf xfer lb.2 s.2)
            else
              let _ ← ws63PollReset fuel
              return (0, noteIf xfer lb.2 s.2)

/-! ## The places are notes -/

theorem findLoaderbootAt_snoc (bins : List FwpkgBinInfo) (b : FwpkgBinInfo) :
    findLoaderbootAt (bins ++ [b]) = if b.type2 = 0 then some (b, bins.length) else findLoaderbootAt bins := by
  rw [findLoaderbootAt, List.zipIdx_append, List.foldl_append, Nat.zero_add]
  rfl

theorem findLoaderbootAt_fst (bins : List FwpkgBinInfo) : (findLoaderbootAt bins).map Prod.fst = findLoaderboot bins := by
  induction bins using List.reverseRecOn with
  | nil => rfl
  | append_singleton bins b ih =>
    rw [findLoaderboot_snoc, findLoaderbootAt_snoc]
    split
    · rfl
    · exact ih

theorem flashFilesSent_fst (fuel : Nat) (a : Args) (fw : List UInt8) : ∀ ps : List (FwpkgBinInfo × Nat),
    (flashFilesSent fuel a fw ps >>= fun s => pure s.1) = flashFiles fuel a fw (ps.map Prod.fst)
  | []      => rfl
  | p :: ps => by
    have ih := flashFilesSent_fst fuel a fw ps
    rw [flashFilesSent, List.map_cons, flashFiles]
    split
    · exact ih
    split
    · exact ih
    rw [bind_assoc]
    congr 1
    funext ret
    split
    · rfl
    rw [bind_assoc]
    congr 1
    funext _
    rw [bind_assoc]
    congr 1
    funext ret
    split
    · rfl
    rw [bind_assoc, ← ih]
    rfl

section

variable {h : Host} {a : Args} {path : CStr} {fw : List UInt8} {header : FwpkgHeader} {bins : List FwpkgBinInfo}

/-- **Without its notes it is `verb_flash`.** -/
theorem verbFlashSent_fst (hpath : a.args[1]? = some path) (hopen : h.fopen path = .ok fw) (hacc : Accepted fw header bins)
    (fuel : Nat) : (verbFlashSent fuel a fw bins >>= fun s => pure s.1) = verbFlash fuel h a := by
  unfold verbFlash verbFlashSent
  simp only [hpath, hopen, hacc.head]
  refine Eq.trans ?_ (pure_bind (some header) _).symm
  simp only [hacc.infos]
  rw [← findLoaderbootAt_fst]
  cases findLoaderbootAt bins with
  | none => rfl
  | some lb =>
    dsimp only [Option.map_some]
    split
    · rfl
    split
    · rfl
    rw [bind_assoc]
    congr 1
    funext ret
    split
    · rfl
    rw [bind_assoc]
    congr 1
    funext xfer
    split
    · rfl
    rw [bind_assoc]
    congr 1
    funext _
    rw [bind_assoc]
    congr 1
    funext ret
    split
    · rfl
    have hfiles := flashFilesSent_fst fuel a fw bins.zipIdx
    rw [List.zipIdx_map_fst] at hfiles
    rw [bind_assoc, ← hfiles, bind_assoc]
    congr 1
    funext s
    rw [pure_bind]
    split
    · rfl
    · rw [bind_assoc]
      rfl

end

/-! ## The places of a run that returns 0 -/

/-- The places of the records that the transfer loop takes. -/
def selectedAt (a : Args) (ps : List (FwpkgBinInfo × Nat)) : List Nat :=
  (ps.filter (fun p => p.1.type2 = 1 ∧ binInArgs p.1.str a)).map Prod.snd

theorem mem_selectedAt {a : Args} {bins : List FwpkgBinInfo} {i : Nat} :
    i ∈ selectedAt a bins.zipIdx ↔ ∃ b, bins[i]? = some b ∧ b.type2 = 1 ∧ binInArgs b.str a = true := by
  unfold selectedAt
  rw [List.mem_map]
  constructor
  · rintro ⟨p, hp, rfl⟩
    obtain ⟨hmem, hsel⟩ := List.mem_filter.1 hp
    rw [decide_eq_true_eq] at hsel
    exact ⟨p.1, List.mem_zipIdx_iff_getElem?.1 hmem, hsel⟩
  · rintro ⟨b, hb, hsel⟩
    exact ⟨(b, i), List.mem_filter.2 ⟨List.mem_zipIdx_iff_getElem?.2 hb, decide_eq_true hsel⟩, rfl⟩

/-- The record `i` is the last of type 0. -/
def IsLoaderboot (bins : List FwpkgBinInfo) (i : Nat) : Prop :=
  (∃ b, bins[i]? = some b ∧ b.type2 = 0) ∧ ∀ j b, i < j → bins[j]? = some b → b.type2 ≠ 0

theorem IsLoaderboot.unique {bins : List FwpkgBinInfo} {i j : Nat} (hi : IsLoaderboot bins i) (hj : IsLoaderboot bins j) :
    i = j := by
  obtain ⟨⟨b, hb, hb0⟩, hilast⟩ := hi
  obtain ⟨⟨c, hc, hc0⟩, hjlast⟩ := hj
  rcases Nat.lt_trichotomy i j with h | h | h
  · exact absurd hc0 (hilast j c h hc)
  · exact h
  · exact absurd hb0 (hjlast i b h hb)

theorem getElem?_snoc {bins : List FwpkgBinInfo} {b c : FwpkgBinInfo} {i : Nat} :
    (bins ++ [b])[i]? = some c ↔ bins[i]? = some c ∨ (i = bins.length ∧ b = c) := by
  rcases Nat.lt_trichotomy i bins.length with h | h | h
  · rw [List.getElem?_append_left h]
    exact ⟨Or.inl, fun hc => hc.resolve_right (fun hi => absurd hi.1 (Nat.ne_of_lt h))⟩
  · subst h
    rw [List.getElem?_concat_length, List.getElem?_eq_none (Nat.le_refl _), Option.some.injEq]
    exact ⟨fun hc => Or.inr ⟨rfl, hc⟩, fun hc => (hc.resolve_left (by simp)).2⟩
  · rw [List.getElem?_eq_none (by rw [List.length_append, List.length_singleton]; omega), List.getElem?_eq_none (by omega)]
    refine ⟨fun hc => (by cases hc), ?_⟩
    rintro (hc | ⟨rfl, _⟩)
    · cases hc
    · exact absurd h (Nat.lt_irrefl _)

theorem isLoaderboot_snoc (bins : List FwpkgBinInfo) (b : FwpkgBinInfo) (i : Nat) :
    IsLoaderboot (bins ++ [b]) i ↔ if b.type2 = 0 then i = bins.length else IsLoaderboot bins i := by
  by_cases hb : b.type2 = 0
  · rw [if_pos hb]
    have hlast : IsLoaderboot (bins ++ [b]) bins.length := by
      refine ⟨⟨b, getElem?_snoc.2 (Or.inr ⟨rfl, rfl⟩), hb⟩, fun j c hj hc => ?_⟩
      rw [List.getElem?_eq_none (by rw [List.length_append, List.length_singleton]; omega)] at hc
      cases hc
    exact ⟨fun hi => hi.unique hlast, fun hi => by rw [hi]; exact hlast⟩
  · rw [if_neg hb]
    constructor
    · rintro ⟨⟨c, hc, hc0⟩, hlast⟩
      refine ⟨⟨c, ?_, hc0⟩, fun j c' hj hc' => hlast j c' hj (getElem?_snoc.2 (Or.inl hc'))⟩
      rcases getElem?_snoc.1 hc with h | ⟨_, rfl⟩
      · exact h
      · exact absurd hc0 hb
    · rintro ⟨⟨c, hc, hc0⟩, hlast⟩
      refine ⟨⟨c, getElem?_snoc.2 (Or.inl hc), hc0⟩, fun j c' hj hc' => ?_⟩
      rcases getElem?_snoc.1 hc' with h | ⟨_, rfl⟩
      · exact hlast j c' hj h
      · exact hb

/-- **The place the loop finds** is the last of type 0. -/
theorem findLoaderbootAt_iff (bins : List FwpkgBinInfo) (p : FwpkgBinInfo × Nat) :
    findLoaderbootAt bins = some p ↔ bins[p.2]? = some p.1 ∧ IsLoaderboot bins p.2 := by
  induction bins using List.reverseRecOn with
  | nil =>
    constructor
    · intro h
      cases h
    · rintro ⟨h, _⟩
      cases h
  | append_singleton bins b ih =>
    rw [findLoaderbootAt_snoc, isLoaderboot_snoc, getElem?_snoc]
    by_cases hb : b.type2 = 0
    · rw [if_pos hb, if_pos hb]
      constructor
      · intro h
        cases h
        exact ⟨Or.inr ⟨rfl, rfl⟩, rfl⟩
      · rintro ⟨h | ⟨h, hp⟩, hi⟩
        · rw [List.getElem?_eq_none (Nat.le_of_eq hi.symm)] at h
          cases h
        · rw [hp, ← h]
    · rw [if_neg hb, if_neg hb, ih]
      constructor
      · rintro ⟨h, hlast⟩
        exact ⟨Or.inl h, hlast⟩
      · rintro ⟨h | ⟨h, _⟩, hlast⟩
        · exact ⟨h, hlast⟩
        · obtain ⟨⟨c, hc, _⟩, _⟩ := hlast
          rw [List.getElem?_eq_none (Nat.le_of_eq h.symm)] at hc
          cases hc

theorem flashFilesSent_returns (fuel : Nat) (a : Args) (fw : List UInt8) : ∀ ps : List (FwpkgBinInfo × Nat),
    (∀ p ∈ ps, FullBlks (fw.drop p.1.offset.toNat) p.1.length.toNat) →
    Returns (flashFilesSent fuel a fw ps) (fun s => s.1 = 0 → s.2 = selectedAt a ps)
  | [], _       => Returns.pure (fun _ => rfl)
  | p :: ps, hf => by
    obtain ⟨hp, hps⟩ := List.forall_mem_cons.1 hf
    have ih := flashFilesSent_returns fuel a fw ps hps
    unfold selectedAt at ih ⊢
    rw [flashFilesSent, List.filter_cons]
    by_cases ht : p.1.type2 = 1
    · rw [if_neg (fun h => h ht)]
      by_cases hs : binInArgs p.1.str a
      · rw [if_neg (fun h => h hs), if_pos (by simp [ht, hs]), List.map_cons]
        refine (Returns.any _).bind (fun ret _ => ?_)
        split
        · exact Returns.pure (fun h => absurd h (by decide))
        refine (Returns.any _).bind (fun _ _ => (ymodemXfer_returns fuel p.1.str hp).bind (fun ret hret => ?_))
        split
        · exact Returns.pure (fun h => absurd h (by decide))
        · rename_i hpos
          have hzero : ret = EXIT_SUCCESS := hret.resolve_right hpos
          refine ih.bind (fun s hs => Returns.pure (fun h0 => ?_))
          dsimp only
          rw [noteIf, if_pos hzero, hs h0]
      · rw [if_pos hs, if_neg (by simp [hs])]
        exact ih
    · rw [if_pos ht, if_neg (by simp [ht])]
      exact ih

/-- What the line and the package are when the verb talks to the device at all. -/
structure Askable (a : Args) (bins : List FwpkgBinInfo) : Prop where
  loaderboot : ∃ b ∈ bins, b.type2 = 0
  ends : NamesEnd bins
  found : ∀ arg ∈ a.args.drop 2, arg ∈ tableNames bins

/-- **What a run that returns 0 has transferred**: the last record of type 0, and those of type 1 on the line. -/
theorem verbFlashSent_returns (fuel : Nat) (a : Args) {fw : List UInt8} {bins : List FwpkgBinInfo}
    (hin : ∀ b ∈ bins, b.offset.toNat + b.length.toNat ≤ fw.length) :
    Returns (verbFlashSent fuel a fw bins) (fun s => s.1 = 0 → Askable a bins ∧
      ∃ lb, IsLoaderboot bins lb ∧ s.2 = lb :: selectedAt a bins.zipIdx) := by
  have hfull : ∀ b ∈ bins, FullBlks (fw.drop b.offset.toNat) b.length.toNat := fun b hb => by
    apply fullBlks_of_le
    have := hin b hb
    rw [List.length_drop]
    omega
  unfold verbFlashSent
  cases hlb : findLoaderbootAt bins with
  | none    => exact Returns.pure (fun h => absurd h (by decide))
  | some lb =>
    obtain ⟨hget, hlast⟩ := (findLoaderbootAt_iff bins lb).1 hlb
    have hmem := List.mem_of_getElem? hget
    dsimp only
    split
    · exact fun _ _ => Sat.halt (fun _ h => by cases h)
    rename_i hends
    split
    · exact Returns.pure (fun h => absurd h (by decide))
    rename_i hfound
    have hask : Askable a bins := by
      refine ⟨?_, Classical.not_not.1 hends, ?_⟩
      · obtain ⟨⟨b, hb, hb0⟩, _⟩ := hlast
        exact ⟨b, List.mem_of_getElem? hb, hb0⟩
      · intro arg harg
        by_contra hn
        exact hfound ⟨arg, harg, hn⟩
    refine (Returns.any _).bind (fun ret _ => ?_)
    split
    · rename_i hr
      exact Returns.pure (fun h => absurd h hr)
    refine (ymodemXfer_returns fuel lb.1.str (hfull _ hmem)).bind (fun xfer hxfer => ?_)
    split
    · exact Returns.pure (fun h => absurd h (by decide))
    rename_i hpos
    have hzero : xfer = EXIT_SUCCESS := hxfer.resolve_right hpos
    refine (Returns.any _).bind (fun _ _ => (Returns.any _).bind (fun ret _ => ?_))
    split
    · rename_i hr
      exact Returns.pure (fun h => absurd h hr)
    have hfiles := flashFilesSent_returns fuel a fw bins.zipIdx (fun p hp =>
      hfull _ (List.mem_of_getElem? (List.mem_zipIdx_iff_getElem?.1 hp)))
    refine hfiles.bind (fun s hs => ?_)
    split
    · rename_i hr
      exact Returns.pure (fun h => absurd h hr)
    · rename_i hr
      refine (Returns.any _).bind (fun _ _ => Returns.pure (fun _ => ⟨hask, lb.2, hlast, ?_⟩))
      dsimp only
      rw [noteIf, if_pos hzero, hs (Classical.not_not.1 hr)]

/-! ## A run that returns 0 -/

theorem ws63PollReset_ack {fuel : Nat} (hf : 2 ≤ fuel) (l : List Ev) :
    Sat (ws63PollReset fuel) ackDevice l (fun o _ => ∃ r, o = .ret r ∧ r = 0) := by
  obtain ⟨n, rfl⟩ := Nat.exists_eq_add_of_le' (Nat.le_of_succ_le hf)
  apply Sat.bind_val (time_sat _ _)
  rintro t0 _ ⟨rfl, rfl⟩
  apply Sat.loop_step
  dsimp only
  have hearly : ∀ t : Int, t - t < RESET_TIMEOUT := fun t => by unfold RESET_TIMEOUT; omega
  rw [if_pos (hearly _)]
  apply Sat.bind_val (time_sat _ _)
  rintro _ _ ⟨rfl, rfl⟩
  apply Sat.bind_val (ws63SendCmddef_ack hf (show (2 : Nat) ≤ 1024 by decide) _)
  rintro _ _ ⟨rfl, _⟩
  rw [if_neg (by decide)]
  apply Sat.bind_val (read_sat 32 _ _)
  rintro _ _ ⟨rfl, rfl⟩
  exact Sat.pure ⟨0, rfl, rfl⟩

theorem sendJobs_ack {fuel : Nat} (hf : 2 ≤ fuel) : ∀ js : List Job, (∀ j ∈ js, j.cmd.len ≤ 1024) →
    (∀ p ∈ jobParts js, p.opened = true ∧ totalBlk p.len + 2 ≤ fuel) →
    ∀ l, Sat (sendJobs fuel js) ackDevice l (fun o _ => ∃ r, o = .ret r ∧ r = 0)
  | [], _, _, l       => Sat.pure ⟨0, rfl, rfl⟩
  | j :: js, hc, hp, l => by
    have hcs : ∀ j' ∈ js, j'.cmd.len ≤ 1024 := fun j' h => hc j' (List.mem_cons_of_mem _ h)
    rw [sendJobs, sendJob_bind]
    apply Sat.bind_val (ws63SendCmddef_ack hf (hc j List.mem_cons_self) l)
    rintro _ _ ⟨rfl, _⟩
    rw [if_neg (by decide)]
    apply Sat.bind_val (uartReadUntilMagic_ack (by omega) _)
    rintro _ _ hl
    cases hj : j.part with
    | none =>
      rw [jobParts_none js hj] at hp
      exact sendJobs_ack hf js hcs hp _
    | some p =>
      rw [jobParts_some js hj] at hp
      obtain ⟨⟨hopen, hfuel⟩, hps⟩ := List.forall_mem_cons.1 hp
      apply Sat.bind_val (sendPart_ack hopen hfuel hl)
      rintro _ _ ⟨rfl, _⟩
      rw [if_neg (fun h => h rfl)]
      exact sendJobs_ack hf js hcs hps _

/-- **A plan whose files can be opened** ends with 0 against the device that answers at once. -/
theorem runPlan_ack {fuel : Nat} (hf : 2 ≤ fuel) (a : Args) {p : Plan} (hc : ∀ j ∈ p.jobs, j.cmd.len ≤ 1024)
    (hp : ∀ q ∈ p.parts, q.opened = true ∧ totalBlk q.len + 2 ≤ fuel) (l : List Ev) :
    Sat (runPlan fuel a p) ackDevice l (fun o _ => o = .ret 0) := by
  obtain ⟨hopen, hfuel⟩ := hp _ List.mem_cons_self
  apply Sat.bind_val (handshakeLoop_ack hf a l)
  rintro _ e ⟨rfl, hl⟩
  rw [if_neg (fun h => h rfl)]
  apply Sat.bind_val (sendPart_ack hopen hfuel hl)
  rintro _ _ ⟨rfl, _⟩
  rw [if_neg (fun h => h rfl)]
  apply Sat.bind_val (uartReadUntilMagic_ack (by omega) _)
  rintro _ _ hl₁
  apply Sat.bind_val (switchIf_ack hf a p.switch hl₁)
  rintro _ _ ⟨rfl, _⟩
  rw [if_neg (fun h => h rfl)]
  apply Sat.bind_val (sendJobs_ack hf p.jobs hc (fun q hq => hp q (List.mem_cons_of_mem _ hq)) _)
  rintro _ _ rfl
  rw [if_neg (fun h => h rfl)]
  apply Sat.bind_val (ws63PollReset_ack hf _)
  rintro _ _ rfl
  exact Sat.pure rfl

section

variable {h : Host} {a : Args} {path : CStr} {fw : List UInt8} {header : FwpkgHeader} {bins : List FwpkgBinInfo}

/-- On such a line and package one run at least returns 0. -/
theorem Askable.succeeds (hask : Askable a bins) (hpath : a.args[1]? = some path) (hopen : h.fopen path = .ok fw)
    (hacc : Accepted fw header bins) : ∃ fuel, (verbFlash fuel h a ackDevice []).1 = .ret 0 := by
  have hplan : ∃ lb, planFlash h a = .ret (.ok (flashPlan a fw bins lb)) := by
    obtain ⟨lb, hlb⟩ := findLoaderboot_isSome.2 hask.loaderboot
    refine ⟨lb, ?_⟩
    rw [planFlash_accepted hpath hopen hacc, hlb]
    dsimp only
    rw [if_neg (fun hends => hends hask.ends), if_neg]
    rintro ⟨arg, harg, hnone⟩
    exact hnone (hask.found arg harg)
  obtain ⟨lb, hplan⟩ := hplan
  obtain ⟨fuel, hf, hparts⟩ := exists_fuel (flashPlan a fw bins lb).parts
  refine ⟨fuel, ?_⟩
  rw [verbFlash_eq, hplan]
  refine runPlan_ack hf a (fun j hj => ?_) (fun q hq => ⟨?_, hparts q hq⟩) []
  · obtain ⟨b, _, rfl⟩ := List.mem_map.1 hj
    exact (show (14 : Nat) ≤ 1024 by decide)
  · rw [flashPlan_parts] at hq
    obtain ⟨b, _, rfl⟩ := List.mem_map.1 hq
    rfl

/-! ## What was asked for -/

/-- The record's name, the string `name`, is on the line, or the plan marks it with `*`. -/
def Asked (a : Args) (b : FwpkgBinInfo) (name : CStr) : Prop := name ∈ a.args.drop 2 ∨ flashFlag a b name = 0x2a

theorem Asked.binInArgs {b : FwpkgBinInfo} {name : CStr} (hb : Asked a b name) : binInArgs name a = true := by
  rcases hb with h | h
  · exact decide_eq_true (Or.inr h)
  · unfold flashFlag at h
    split at h
    · exact absurd h (by decide)
    split at h
    · assumption
    · exact absurd h (by decide)

/-- `verb_flash` is not undefined before it talks to the device; and whenever it returns 0, each record that was asked for
is among those it has transferred, so where one is not, it does not return 0. -/
def Transmits (h : Host) (a : Args) (fw : List UInt8) (bins : List FwpkgBinInfo) : Prop :=
  ∀ (d : Device) (l : List Ev) (fuel : Nat), ¬ UndefinedAtOnce (verbFlash fuel h a d l) ∧
    ((verbFlash fuel h a d l).1 = .ret 0 → ∃ sent, (verbFlashSent fuel a fw bins d l).1 = .ret (0, sent) ∧
      ∀ i b name, bins[i]? = some b → (tableNames bins)[i]? = some name → Asked a b name → i ∈ sent)

theorem ret_of_bind_fst {β : Type} {m : Tty (Int × β)} {d : Device} {l : List Ev} {r : Int}
    (h : ((m >>= fun s => pure s.1 : Tty Int) d l).1 = .ret r) : ∃ sent, (m d l).1 = .ret (r, sent) := by
  rcases hm : m d l with ⟨s | x, e⟩
  · rw [bind_ret hm] at h
    cases h
    exact ⟨s.2, rfl⟩
  · rw [bind_stop hm] at h
    cases h

/-- A run that returns 0, with its notes. -/
theorem verbFlash_sent (hpath : a.args[1]? = some path) (hopen : h.fopen path = .ok fw) (hacc : Accepted fw header bins)
    (hin : ∀ b ∈ bins, b.offset.toNat + b.length.toNat ≤ fw.length) {d : Device} {l : List Ev} {fuel : Nat}
    (hret : (verbFlash fuel h a d l).1 = .ret 0) : Askable a bins ∧ ∃ lb, IsLoaderboot bins lb ∧
      (verbFlashSent fuel a fw bins d l).1 = .ret (0, lb :: selectedAt a bins.zipIdx) := by
  rw [← verbFlashSent_fst hpath hopen hacc] at hret
  obtain ⟨sent, hsent⟩ := ret_of_bind_fst hret
  obtain ⟨hask, lb, hlb, heq⟩ := verbFlashSent_returns fuel a hin d l _ hsent rfl
  dsimp only at heq
  rw [heq] at hsent
  exact ⟨hask, lb, hlb, hsent⟩

/-- Where `verb_flash` goes on to the plan, the names end in the table. -/
theorem Transmits.ends (ht : Transmits h a fw bins) (hpath : a.args[1]? = some path) (hopen : h.fopen path = .ok fw)
    (hacc : Accepted fw header bins) (hlb : ∃ b ∈ bins, b.type2 = 0) : NamesEnd bins := by
  by_contra hends
  have hplan := (planFlash_undefined_iff hpath hopen hacc).2 ⟨hlb, hends⟩
  exact (ht ackDevice [] 0).1 ((verbRun_undefined_iff 0 h a .flash _ _).2 hplan)

/-- What is transferred was of type 1, or the loaderboot. -/
theorem Transmits.types (ht : Transmits h a fw bins) (hpath : a.args[1]? = some path) (hopen : h.fopen path = .ok fw)
    (hacc : Accepted fw header bins) (hin : ∀ b ∈ bins, b.offset.toNat + b.length.toNat ≤ fw.length)
    (hask : Askable a bins) {i : Nat} {b : FwpkgBinInfo} {name : CStr} (hb : bins[i]? = some b)
    (hname : (tableNames bins)[i]? = some name) (hasked : Asked a b name) : b.type2 = 1 ∨ IsLoaderboot bins i := by
  obtain ⟨fuel, hret⟩ := hask.succeeds hpath hopen hacc
  obtain ⟨_, lb, hlb, hrun⟩ := verbFlash_sent hpath hopen hacc hin hret
  obtain ⟨sent, hsent, hall⟩ := (ht ackDevice [] fuel).2 hret
  rw [hrun] at hsent
  cases hsent
  rcases List.mem_cons.1 (hall i b name hb hname hasked) with rfl | hi
  · exact Or.inr hlb
  · obtain ⟨c, hc, hc1, _⟩ := mem_selectedAt.1 hi
    rw [hb] at hc
    cases hc
    exact Or.inl hc1

/-- **When all that was asked for is transferred**: when the names end in the table, and what is asked for is of type 1 or
the last record of type 0. -/
theorem verbFlash_transmits_iff (hpath : a.args[1]? = some path) (hopen : h.fopen path = .ok fw)
    (hacc : Accepted fw header bins) (hin : ∀ b ∈ bins, b.offset.toNat + b.length.toNat ≤ fw.length) :
    Transmits h a fw bins ↔ ((∃ b ∈ bins, b.type2 = 0) → NamesEnd bins ∧
      ((∀ arg ∈ a.args.drop 2, arg ∈ tableNames bins) → ∀ i b name, bins[i]? = some b →
        (tableNames bins)[i]? = some name → Asked a b name → b.type2 = 1 ∨ IsLoaderboot bins i)) := by
  constructor
  · intro ht hlb
    have hends := ht.ends hpath hopen hacc hlb
    exact ⟨hends, fun hfound i b name hb hname hasked => ht.types hpath hopen hacc hin ⟨hlb, hends, hfound⟩ hb hname hasked⟩
  · intro htypes d l fuel
    constructor
    · intro hund
      have hplan : planFlash h a = .stop .undefined := (verbRun_undefined_iff fuel h a .flash d l).1 hund
      obtain ⟨hlb, hends⟩ := (planFlash_undefined_iff hpath hopen hacc).1 hplan
      exact hends (htypes hlb).1
    · intro hret
      obtain ⟨hask, lb, hlb, hrun⟩ := verbFlash_sent hpath hopen hacc hin hret
      refine ⟨_, hrun, fun i b name hb hname hasked => List.mem_cons.2 ?_⟩
      rcases (htypes hask.loaderboot).2 hask.found i b name hb hname hasked with h1 | hi
      · rw [tableNames_getElem? hb (nul_of_type2 (Or.inr h1))] at hname
        cases hname
        exact Or.inr (mem_selectedAt.2 ⟨b, hb, h1, hasked.binInArgs⟩)
      · exact Or.inl (hi.unique hlb)

end

theorem verbFlash_transmits_sample : Transmits (hostOf samplePkg) plainArgs samplePkg sampleBins := by
  apply (verbFlash_transmits_iff (h := hostOf samplePkg) rfl rfl samplePkg_accepted samplePkg_wellFormed.inside).2
  intro _
  refine ⟨samplePkg_wellFormed.namesEnd, fun _ i b name hb _ _ => ?_⟩
  have hlb := ((findLoaderbootAt_iff sampleBins (sampleBin 0x61 116 0 0, 0)).1 (by decide +kernel)).2
  rcases i with _ | _ | i
  · exact Or.inr hlb
  · cases hb
    exact Or.inl rfl
  · cases hb

/-- A loaderboot, and a record of type 2. -/
def oddBins : List FwpkgBinInfo := [sampleBin 0x61 116 0 0, sampleBin 0x62 117 0x230000 2]

def oddHeader : FwpkgHeader := ⟨0xefbeaddf, 18632, 2, 118⟩

def oddPkg : List UInt8 := oddHeader.bytes ++ oddBins.flatMap FwpkgBinInfo.bytes ++ [0x41, 0x42]

theorem oddPkg_accepted : Accepted oddPkg oddHeader oddBins := ⟨by decide +kernel, by decide +kernel⟩

/-- `--flash t p b`. -/
def oddArgs : Args := ⟨[ttyT, fileP, fileB], 115200, false⟩

/-- **A record of type 2** is marked and asked for by its name, and is not transferred. -/
theorem verbFlash_skips_odd : ¬ Transmits (hostOf oddPkg) oddArgs oddPkg oddBins := by
  intro ht
  have hask : Askable oddArgs oddBins := ⟨by decide, by decide +kernel, by decide +kernel⟩
  have hpath : oddArgs.args[1]? = some fileP := rfl
  have htypes := ht.types hpath rfl oddPkg_accepted (by decide +kernel) hask
    (show oddBins[1]? = some (sampleBin 0x62 117 0x230000 2) from rfl) (by rfl) (Or.inl (by decide +kernel))
  rcases htypes with h | ⟨⟨b, hb, hb0⟩, _⟩
  · exact absurd h (by decide)
  · cases hb
    exact absurd hb0 (by decide)

end Ws63Flash
