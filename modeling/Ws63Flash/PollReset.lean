import Ws63Flash.AckWait
import Ws63Flash.Handshake
/-!
# PollReset — which words end the reset poll

Each read overwrites the start of the buffer, and the whole buffer is searched.  So a word that goes over from one read into
the next is not there as a rule, and what longer reads have left behind the end of a shorter one may make it up to a word
(`ws63PollReset_iff`).
-/
namespace Ws63Flash

open Octets Proc

/-- The bytes hold one of the two words. -/
def HasWord (bs : List UInt8) : Prop := resetWord <:+: bs ∨ resetWordLower <:+: bs

instance (bs : List UInt8) : Decidable (HasWord bs) := inferInstanceAs (Decidable (_ ∨ _))

theorem HasWord.mono {bs bs' : List UInt8} (h : HasWord bs) (hinf : bs <:+: bs') : HasWord bs' :=
  h.imp (fun h => h.trans hinf) (fun h => h.trans hinf)

theorem not_hasWord_nil : ¬ HasWord [] := by decide

/-- The words. -/
def resetWords : List (List UInt8) := [resetWord, resetWordLower]

theorem hasWord_iff (bs : List UInt8) : HasWord bs ↔ ∃ w ∈ resetWords, w <:+: bs := by
  simp [HasWord, resetWords]

/-- The byte that the first `n` reads leave at `p`: that of the last of them that reaches it, or zero. -/
def byteAt (cs : Nat → List UInt8) (p : Nat) : Nat → UInt8
  | 0     => 0
  | n + 1 => (cs n).getD p (byteAt cs p n)

/-- The buffer after the first `n` reads. -/
def held (cs : Nat → List UInt8) (n : Nat) : List UInt8 := (List.range 32).map (fun p => byteAt cs p n)

/-- The read `i` got something, and after it there is a word in the buffer. -/
def Shows (cs : Nat → List UInt8) (i : Nat) : Prop := cs i ≠ [] ∧ HasWord (held cs (i + 1))

instance (cs : Nat → List UInt8) (i : Nat) : Decidable (Shows cs i) := inferInstanceAs (Decidable (_ ∧ _))

/-- The looks at the clock see the times `t`. -/
def Device.Ticks (d : Device) (t : Nat → Int) : Prop := ∀ l, d.time l = t (ntimes l)

/-- The turn `i` of the poll begins before the timeout. -/
def TurnInTime (t : Nat → Int) (i : Nat) : Prop := ∀ j, j ≤ i → t j - t 0 < RESET_TIMEOUT

theorem TurnInTime.earlier {t : Nat → Int} {i j : Nat} (h : TurnInTime t i) (hj : j ≤ i) : TurnInTime t j :=
  fun k hk => h k (Nat.le_trans hk hj)

/-- The poll returns 0. -/
def PollsZero (d : Device) : Prop := ∃ n, ∀ fuel, n ≤ fuel → (ws63PollReset fuel d []).1 = .ret 0

/-- Whatever the clock, and while no write fails, the poll returns 0 when the bytes read before the timeout hold a word, and
only then. -/
def PollsWords (cs : Nat → List UInt8) : Prop :=
  ∀ (d : Device) (t : Nat → Int), d.Accepts → d.Chunks [] cs → d.Ticks t →
    (PollsZero d ↔ ∃ i, TurnInTime t i ∧ HasWord (readSoFar cs (i + 1)))

/-! ## The buffer -/

section

variable {cs : Nat → List UInt8} {n : Nat}

theorem held_length (cs : Nat → List UInt8) (n : Nat) : (held cs n).length = 32 := by
  rw [held, List.length_map, List.length_range]

theorem held_zero (cs : Nat → List UInt8) : held cs 0 = List.replicate 32 0 := rfl

theorem held_getElem? {p : Nat} (hp : p < 32) : (held cs n)[p]? = some (byteAt cs p n) := by
  rw [held, List.getElem?_map, List.getElem?_range hp]
  rfl

/-- **A read overwrites the start of the buffer.** -/
theorem held_succ (hlen : (cs n).length ≤ 32) : setRange (held cs n) 0 (cs n) = held cs (n + 1) := by
  have hset : setRange (held cs n) 0 (cs n) = cs n ++ (held cs n).drop (cs n).length := by
    rw [setRange, List.take_zero, List.nil_append, Nat.zero_add]
  have hall : (setRange (held cs n) 0 (cs n)).length = 32 := by
    rw [hset, List.length_append, List.length_drop, held_length]
    omega
  apply List.ext_getElem?
  intro p
  by_cases hp : p < 32
  · rw [held_getElem? hp, byteAt, hset]
    by_cases hin : p < (cs n).length
    · rw [List.getElem?_append_left hin, List.getD_eq_getElem?_getD, List.getElem?_eq_getElem hin]
      rfl
    · rw [List.getElem?_append_right (by omega), List.getElem?_drop, show (cs n).length + (p - (cs n).length) = p by omega,
        held_getElem? hp, List.getD_eq_getElem?_getD, List.getElem?_eq_none (by omega)]
      rfl
  · rw [List.getElem?_eq_none (by omega), List.getElem?_eq_none (by rw [held_length]; omega)]

theorem held_append (hlen : (cs n).length ≤ 32) : held cs (n + 1) = cs n ++ (held cs n).drop (cs n).length := by
  rw [← held_succ hlen, setRange, List.take_zero, List.nil_append, Nat.zero_add]

/-- A word that is whole in one read is shown. -/
theorem shows_of_hasWord (hlen : (cs n).length ≤ 32) (h : HasWord (cs n)) : Shows cs n := by
  constructor
  · intro hnil
    rw [hnil] at h
    exact not_hasWord_nil h
  · rw [held_append hlen]
    exact h.mono List.infix_append_left

end

/-! ## The run -/

section

variable {cs : Nat → List UInt8} {d : Device} {t : Nat → Int}

theorem read_chunk (hread : d.Chunks [] cs) (l : List Ev) : d.read l 32 = .data (cs (nreads l)) := by
  simpa using hread l

theorem sendRst (fuel : Nat) :
    ws63SendCmddef fuel (WS63E_FLASHINFO .rst) = writeAll fuel (cmdFrame (WS63E_FLASHINFO .rst)) := by
  rw [ws63SendCmddef, if_neg (by decide), if_neg (by decide)]

/-- **A poll that returns 0** has shown a word in time. -/
theorem ws63PollReset_shows (hacc : d.Accepts) (hread : d.Chunks [] cs) (htick : d.Ticks t)
    (hlen : ∀ i, (cs i).length ≤ 32) (fuel : Nat) :
    Sat (ws63PollReset fuel) d [] (fun o _ => o = .ret 0 → ∃ i, TurnInTime t i ∧ Shows cs i) := by
  apply Sat.bind_val (time_sat d [])
  rintro _ _ ⟨rfl, rfl⟩
  rw [htick, ntimes_nil]
  refine Sat.loop (fun s e => ∃ k, s = (t k, held cs k) ∧ nreads e = k ∧ ntimes e = k ∧
    ∀ j, j < k → t j - t 0 < RESET_TIMEOUT) ?_ (fun _ _ _ => nofun) fuel _ ⟨0, by rw [held_zero], rfl, rfl, nofun⟩
  rintro _ e ⟨k, rfl, hr, ht, hin⟩
  dsimp only
  by_cases hlate : t k - t 0 < RESET_TIMEOUT
  · rw [if_pos hlate]
    have hturn : TurnInTime t k := by
      intro j hj
      rcases Nat.lt_or_eq_of_le hj with h | rfl
      · exact hin j h
      · exact hlate
    apply Sat.bind_val (time_sat d _)
    rintro _ _ ⟨rfl, rfl⟩
    rw [sendRst]
    refine (writeAll_takes hacc fuel _).bind_pending ?_ (fun _ => nofun)
    rintro e₁ ⟨hr₁, ht₁⟩
    rw [if_neg (by decide)]
    apply Sat.bind_val (read_sat 32 d _)
    rintro _ _ ⟨rfl, rfl⟩
    rw [read_chunk hread]
    have hat : nreads ([] ++ [Ev.time (t 0)] ++ e ++ [Ev.time (d.time ([] ++ [Ev.time (t 0)] ++ e))] ++ e₁) = k := by
      simp [hr, hr₁]
    rw [hat, htick]
    dsimp only
    rw [held_succ (hlen k)]
    by_cases hshow : cs k ≠ [] ∧ (resetWord <:+: held cs (k + 1) ∨ resetWordLower <:+: held cs (k + 1))
    · rw [if_pos hshow]
      exact Sat.pure (fun _ => ⟨k, hturn, hshow⟩)
    · rw [if_neg hshow]
      refine Sat.pure ⟨k + 1, ?_, ?_, ?_, fun j hj => hturn j (Nat.le_of_lt_succ hj)⟩
      · simp [ht]
      · simp [hr, hr₁]
      · simp [ht, ht₁]
  · rw [if_neg hlate]
    refine Sat.pure (fun h => ?_)
    cases h

/-- **A poll that shows a word in time** returns 0. -/
theorem ws63PollReset_zero (hacc : d.Accepts) (hread : d.Chunks [] cs) (htick : d.Ticks t)
    (hlen : ∀ i, (cs i).length ≤ 32) {i : Nat} (hin : TurnInTime t i) (hshow : Shows cs i) :
    Ends Harmless ws63PollReset d [] (fun ret _ => ret = 0) := by
  have hb := Lasting.harmless (ε := Ev)
  refine Ends.bind hb time_ends ?_
  rintro _ _ ⟨rfl, rfl⟩
  rw [htick, ntimes_nil]
  refine Ends.loop hb (fun s l => ∃ k, k ≤ i ∧ s = (t k, held cs k) ∧ nreads l = k ∧ ntimes l = k + 1)
    (fun _ l => i - nreads l) ?_ _ ⟨0, Nat.zero_le _, by rw [held_zero], rfl, rfl⟩
  rintro _ l ⟨k, hk, rfl, hr, ht⟩
  dsimp only
  simp only [if_pos (hin k hk)]
  refine Ends.bind hb time_ends ?_
  rintro _ _ ⟨rfl, rfl⟩
  simp only [sendRst]
  refine Ends.bind hb ((writeAll_ends hb _).and_returns (P := fun ret => ret = 0) (fun fuel l' => ?_)) ?_
  · refine (writeAll_takes hacc fuel _).mono ?_
    rintro o e (h | ⟨h, _⟩) ret hret
    · rw [h] at hret
      cases hret
    · rw [h] at hret
      cases hret
      rfl
  rintro _ l₁ ⟨⟨hr₁, ht₁, _⟩, rfl⟩
  simp only [if_neg (show ¬ (0 : Int) < 0 by decide)]
  simp [hr, ht] at hr₁ ht₁
  refine Ends.bind hb (Ends.of_run (m := read 32)
    (Q := fun a l' => a = .data (cs k) ∧ nreads l' = k + 1 ∧ ntimes l' = k + 2) rfl ⟨?_, ?_, ?_⟩) ?_
  · exact (read_chunk hread l₁).trans (by rw [hr₁])
  · simp [hr₁]
  · simp [ht₁]
  rintro _ l₂ ⟨rfl, hr₂, ht₂⟩
  dsimp only
  rw [held_succ (hlen k), htick]
  by_cases hk' : cs k ≠ [] ∧ (resetWord <:+: held cs (k + 1) ∨ resetWordLower <:+: held cs (k + 1))
  · simp only [if_pos hk']
    exact Ends.pure rfl
  · simp only [if_neg hk']
    have hne : k ≠ i := by
      rintro rfl
      exact hk' hshow
    refine Ends.pure ⟨⟨k + 1, by omega, by rw [ht], hr₂, ht₂⟩, ?_⟩
    rw [hr₂, hr]
    omega

theorem pollsZero_iff (hacc : d.Accepts) (hread : d.Chunks [] cs) (htick : d.Ticks t) (hlen : ∀ i, (cs i).length ≤ 32) :
    PollsZero d ↔ ∃ i, TurnInTime t i ∧ Shows cs i := by
  constructor
  · rintro ⟨n, hn⟩
    exact ws63PollReset_shows hacc hread htick hlen n (hn n (Nat.le_refl n))
  · rintro ⟨i, hin, hshow⟩
    rcases ws63PollReset_zero hacc hread htick hlen hin hshow with ⟨_, e, n, hrun, rfl⟩ | ⟨n, hbad⟩
    · exact ⟨n, fun fuel hf => by rw [hrun fuel hf]⟩
    · exact (hbad n (Nat.le_refl n)).elim

end

/-! ## When the poll sees the words -/

/-- Of the reads before the read `i` that are longer than `p` the last one has `x` there. -/
def LeftBehind (cs : Nat → List UInt8) (i p : Nat) (x : UInt8) : Prop :=
  ∃ j, j < i ∧ (cs j)[p]? = some x ∧ ∀ m, j < m → m < i → (cs m).length ≤ p

/-- A word goes over from the reads before the read `i` into it. -/
def Split (cs : Nat → List UInt8) (i : Nat) : Prop :=
  ∃ w ∈ resetWords, ∃ a b, a ≠ [] ∧ b ≠ [] ∧ w = a ++ b ∧ a <:+ readSoFar cs i ∧ b <+: cs i

/-- The read `i` ends with the first bytes of a word, and longer reads before it have left the others behind its end. -/
def Joined (cs : Nat → List UInt8) (i : Nat) : Prop :=
  ∃ w ∈ resetWords, ∃ a b, a ≠ [] ∧ b ≠ [] ∧ w = a ++ b ∧ a <:+ cs i ∧
    ∀ q x, b[q]? = some x → LeftBehind cs i ((cs i).length + q) x

/-- Into a read that has no word and comes after none, a word goes over exactly when one is joined at its end. -/
def Matched (cs : Nat → List UInt8) : Prop :=
  ∀ i, ¬ HasWord (readSoFar cs i) → ¬ HasWord (cs i) → (Split cs i ↔ Joined cs i)

/-- The buffer and the stream agree about the words: none is missed, and none is made up. -/
structure Faithful (cs : Nat → List UInt8) : Prop where
  caught : ∀ n, HasWord (readSoFar cs n) → ∃ i, i < n ∧ Shows cs i
  fresh : ∀ i, Shows cs i → HasWord (readSoFar cs (i + 1))

/-- It reads by `cs`, takes every write whole, and its clock shows `t`. -/
def pollDevice (cs : Nat → List UInt8) (t : Nat → Int) : Device where
  read := fun l n => .data ((cs (nreads l)).take n)
  write := fun _ bs => .wrote bs.length
  time := fun l => t (ntimes l)
  read_le := fun _ _ _ => read_part
  write_le := fun _ _ _ => wrote_whole

theorem readSoFar_mono (cs : Nat → List UInt8) {m n : Nat} (h : m ≤ n) : readSoFar cs m <+: readSoFar cs n := by
  obtain ⟨k, rfl⟩ := Nat.exists_eq_add_of_le h
  rw [readSoFar, readSoFar, List.range_add, List.flatMap_append]
  exact List.prefix_append _ _

section

variable {cs : Nat → List UInt8}

/-- The clock that runs out after `n` turns. -/
def nTurns (n j : Nat) : Int := if j < n then 0 else RESET_TIMEOUT

theorem turnInTime_nTurns {n i : Nat} (hn : 0 < n) : TurnInTime (nTurns n) i ↔ i < n := by
  have h0 : nTurns n 0 = 0 := if_pos hn
  constructor
  · intro h
    by_contra hge
    have hi := h i (Nat.le_refl i)
    rw [h0, nTurns, if_neg hge] at hi
    omega
  · intro hi j hj
    rw [h0, nTurns, if_pos (by omega)]
    decide

theorem PollsWords.turns (h : PollsWords cs) (hlen : ∀ i, (cs i).length ≤ 32) {n : Nat} (hn : 0 < n) :
    (∃ i, i < n ∧ Shows cs i) ↔ ∃ i, i < n ∧ HasWord (readSoFar cs (i + 1)) := by
  have hread : (pollDevice cs (nTurns n)).Chunks [] cs := by
    intro e
    show ReadRes.data ((cs (nreads ([] ++ e))).take 32) = _
    rw [List.nil_append, List.take_of_length_le (hlen _)]
  have hacc : (pollDevice cs (nTurns n)).Accepts := fun _ bs => ⟨bs.length, rfl⟩
  have hiff := h (pollDevice cs (nTurns n)) (nTurns n) hacc hread (fun _ => rfl)
  rw [pollsZero_iff (t := nTurns n) hacc hread (fun _ => rfl) hlen] at hiff
  simpa only [turnInTime_nTurns hn] using hiff

theorem PollsWords.faithful (h : PollsWords cs) (hlen : ∀ i, (cs i).length ≤ 32) : Faithful cs where
  caught := by
    intro n hword
    rcases n with _ | n
    · exact absurd hword not_hasWord_nil
    · exact (h.turns hlen (Nat.succ_pos n)).2 ⟨n, Nat.lt_succ_self n, hword⟩
  fresh := by
    intro i hshow
    obtain ⟨j, hj, hword⟩ := (h.turns hlen (Nat.succ_pos i)).1 ⟨i, Nat.lt_succ_self i, hshow⟩
    exact hword.mono (readSoFar_mono cs (by omega)).isInfix

theorem pollsWords_iff_faithful (hlen : ∀ i, (cs i).length ≤ 32) : PollsWords cs ↔ Faithful cs := by
  constructor
  · intro h
    exact h.faithful hlen
  · intro h d t hacc hread htick
    rw [pollsZero_iff hacc hread htick hlen]
    constructor
    · rintro ⟨i, hin, hshow⟩
      exact ⟨i, hin, h.fresh i hshow⟩
    · rintro ⟨i, hin, hword⟩
      obtain ⟨j, hj, hshow⟩ := h.caught (i + 1) hword
      exact ⟨j, hin.earlier (Nat.le_of_lt_succ hj), hshow⟩

theorem LeftBehind.lt {i p : Nat} {x : UInt8} (hlen : ∀ i, (cs i).length ≤ 32) (h : LeftBehind cs i p x) : p < 32 := by
  obtain ⟨j, _, hj, _⟩ := h
  obtain ⟨hp, _⟩ := List.getElem?_eq_some_iff.1 hj
  exact Nat.lt_of_lt_of_le hp (hlen j)

/-- A byte in the buffer that is not one of its first zeros was left there by a read. -/
theorem byteAt_eq_iff {p : Nat} {x : UInt8} (hx : x ≠ 0) : ∀ n, byteAt cs p n = x ↔ LeftBehind cs n p x
  | 0     => ⟨fun h => absurd h.symm hx, fun ⟨_, hj, _⟩ => absurd hj (Nat.not_lt_zero _)⟩
  | n + 1 => by
    rw [byteAt, List.getD_eq_getElem?_getD]
    rcases hp : (cs n)[p]? with _ | y
    · rw [Option.getD_none, byteAt_eq_iff hx n]
      have hshort := List.getElem?_eq_none_iff.1 hp
      constructor
      · rintro ⟨j, hj, hget, hall⟩
        refine ⟨j, Nat.lt_succ_of_lt hj, hget, fun m hjm hm => ?_⟩
        rcases Nat.lt_succ_iff_lt_or_eq.1 hm with hm | rfl
        · exact hall m hjm hm
        · exact hshort
      · rintro ⟨j, hj, hget, hall⟩
        rcases Nat.lt_succ_iff_lt_or_eq.1 hj with hj | rfl
        · exact ⟨j, hj, hget, fun m hjm hm => hall m hjm (Nat.lt_succ_of_lt hm)⟩
        · rw [hp] at hget
          cases hget
    · rw [Option.getD_some]
      constructor
      · rintro rfl
        exact ⟨n, Nat.lt_succ_self n, hp, fun m hnm hm => by omega⟩
      · rintro ⟨j, hj, hget, hall⟩
        rcases Nat.lt_succ_iff_lt_or_eq.1 hj with hj | rfl
        · -- a later read, `n`, is longer than `p`
          obtain ⟨hlong, _⟩ := List.getElem?_eq_some_iff.1 hp
          exact absurd (hall n hj (Nat.lt_succ_self n)) (Nat.not_le.2 hlong)
        · rw [hp] at hget
          exact Option.some.inj hget

/-- **What stands in the buffer from `c` on** was left there, byte by byte. -/
theorem prefix_held_iff (hlen : ∀ i, (cs i).length ≤ 32) {b : List UInt8} (hb : 0 ∉ b) (c n : Nat) :
    b <+: (held cs n).drop c ↔ ∀ q x, b[q]? = some x → LeftBehind cs n (c + q) x := by
  rw [List.prefix_iff_getElem?]
  constructor
  · intro h q x hq
    obtain ⟨hlt, rfl⟩ := List.getElem?_eq_some_iff.1 hq
    have hheld := h q hlt
    rw [List.getElem?_drop] at hheld
    obtain ⟨hin, _⟩ := List.getElem?_eq_some_iff.1 hheld
    rw [held_length] at hin
    rw [held_getElem? hin] at hheld
    exact (byteAt_eq_iff (fun h0 => hb (h0 ▸ List.getElem_mem hlt)) n).1 (Option.some.inj hheld)
  · intro h q hlt
    have hleft := h q b[q] (List.getElem?_eq_getElem hlt)
    rw [List.getElem?_drop, held_getElem? (hleft.lt hlen),
      (byteAt_eq_iff (fun h0 => hb (h0 ▸ List.getElem_mem hlt)) n).2 hleft]

theorem not_mem_of_resetWords {w a b : List UInt8} (hw : w ∈ resetWords) (h : w = a ++ b) : (0 : UInt8) ∉ b := by
  intro hb
  have hmem : (0 : UInt8) ∈ w := h ▸ List.mem_append_right a hb
  rcases List.mem_cons.1 hw with rfl | hw
  · exact absurd hmem (by decide)
  · cases List.mem_singleton.1 hw
    exact absurd hmem (by decide)

/-- A word in the bytes of two lists is in one of them, or goes over from the first into the second. -/
theorem hasWord_append (bs bs' : List UInt8) : HasWord (bs ++ bs') ↔ HasWord bs ∨ HasWord bs' ∨
    ∃ w ∈ resetWords, ∃ a b, a ≠ [] ∧ b ≠ [] ∧ w = a ++ b ∧ a <:+ bs ∧ b <+: bs' := by
  simp only [hasWord_iff, List.infix_append_iff_ne_nil, and_or_left, exists_or]

/-- **A word in the stream** is whole in one read, or goes over into one. -/
theorem hasWord_readSoFar_succ (cs : Nat → List UInt8) (i : Nat) :
    HasWord (readSoFar cs (i + 1)) ↔ HasWord (readSoFar cs i) ∨ HasWord (cs i) ∨ Split cs i := by
  rw [readSoFar, List.range_succ, List.flatMap_append, List.flatMap_singleton, ← readSoFar]
  exact hasWord_append _ _

/-- While no read has shown a word the buffer has none. -/
theorem not_hasWord_held (hlen : ∀ i, (cs i).length ≤ 32) : ∀ n, (∀ j, j < n → ¬ Shows cs j) → ¬ HasWord (held cs n)
  | 0, _      => by
    rw [held_zero]
    decide
  | n + 1, h  => by
    intro hword
    by_cases hnil : cs n = []
    · rw [held_append (hlen n), hnil] at hword
      exact not_hasWord_held hlen n (fun j hj => h j (Nat.lt_succ_of_lt hj)) hword
    · exact h n (Nat.lt_succ_self n) ⟨hnil, hword⟩

/-- **The first read to show a word** has it whole, or joins its bytes to older ones. -/
theorem shows_iff (hlen : ∀ i, (cs i).length ≤ 32) {i : Nat} (hfirst : ∀ j, j < i → ¬ Shows cs j) :
    Shows cs i ↔ HasWord (cs i) ∨ Joined cs i := by
  have hold : ¬ HasWord ((held cs i).drop (cs i).length) := fun h =>
    not_hasWord_held hlen i hfirst (h.mono (List.drop_suffix _ _).isInfix)
  have hjoined : Joined cs i ↔ ∃ w ∈ resetWords, ∃ a b, a ≠ [] ∧ b ≠ [] ∧ w = a ++ b ∧ a <:+ cs i ∧
      b <+: (held cs i).drop (cs i).length := by
    constructor
    · rintro ⟨w, hw, a, b, ha, hb, hab, hsuf, hall⟩
      exact ⟨w, hw, a, b, ha, hb, hab, hsuf, (prefix_held_iff hlen (not_mem_of_resetWords hw hab) _ i).2 hall⟩
    · rintro ⟨w, hw, a, b, ha, hb, hab, hsuf, hpre⟩
      exact ⟨w, hw, a, b, ha, hb, hab, hsuf, (prefix_held_iff hlen (not_mem_of_resetWords hw hab) _ i).1 hpre⟩
  constructor
  · rintro ⟨_, hword⟩
    rw [held_append (hlen i), hasWord_append, ← hjoined] at hword
    rcases hword with h | h | h
    · exact Or.inl h
    · exact absurd h hold
    · exact Or.inr h
  · rintro (h | h)
    · exact shows_of_hasWord (hlen i) h
    · constructor
      · intro hnil
        obtain ⟨_, _, a, _, ha, _, _, hsuf, _⟩ := h
        rw [hnil] at hsuf
        exact ha (List.suffix_nil.1 hsuf)
      · rw [held_append (hlen i), hasWord_append, ← hjoined]
        exact Or.inr (Or.inr h)

theorem Matched.not_shows (h : Matched cs) (hlen : ∀ i, (cs i).length ≤ 32) :
    ∀ n, ¬ HasWord (readSoFar cs n) → ∀ j, j < n → ¬ Shows cs j
  | 0, _, j, hj          => absurd hj (Nat.not_lt_zero j)
  | n + 1, hno, j, hj    => by
    rw [hasWord_readSoFar_succ, not_or, not_or] at hno
    obtain ⟨hno, hread, hsplit⟩ := hno
    have ih := h.not_shows hlen n hno
    rcases Nat.lt_succ_iff_lt_or_eq.1 hj with hj | rfl
    · exact ih j hj
    · rw [shows_iff hlen ih, not_or]
      exact ⟨hread, fun hjoin => hsplit ((h j hno hread).2 hjoin)⟩

theorem Matched.faithful (h : Matched cs) (hlen : ∀ i, (cs i).length ≤ 32) : Faithful cs where
  caught := by
    intro n
    induction n with
    | zero => exact fun hword => absurd hword not_hasWord_nil
    | succ n ih =>
      intro hword
      by_cases hno : HasWord (readSoFar cs n)
      · obtain ⟨i, hi, hshow⟩ := ih hno
        exact ⟨i, Nat.lt_succ_of_lt hi, hshow⟩
      · refine ⟨n, Nat.lt_succ_self n, (shows_iff hlen (h.not_shows hlen n hno)).2 ?_⟩
        by_cases hread : HasWord (cs n)
        · exact Or.inl hread
        · rcases (hasWord_readSoFar_succ cs n).1 hword with h' | h' | h'
          · exact absurd h' hno
          · exact absurd h' hread
          · exact Or.inr ((h n hno hread).1 h')
  fresh := by
    intro i hshow
    by_contra hno
    exact h.not_shows hlen (i + 1) hno i (Nat.lt_succ_self i) hshow

theorem Faithful.matched (h : Faithful cs) (hlen : ∀ i, (cs i).length ≤ 32) : Matched cs := by
  intro i hno hread
  have hfirst : ∀ j, j < i → ¬ Shows cs j := fun j hj hshow =>
    hno ((h.fresh j hshow).mono (readSoFar_mono cs hj).isInfix)
  constructor
  · intro hsplit
    obtain ⟨j, hj, hshow⟩ := h.caught (i + 1) ((hasWord_readSoFar_succ cs i).2 (Or.inr (Or.inr hsplit)))
    rcases Nat.lt_succ_iff_lt_or_eq.1 hj with hj | rfl
    · exact absurd hshow (hfirst j hj)
    · exact ((shows_iff hlen hfirst).1 hshow).resolve_left hread
  · intro hjoin
    have hword := h.fresh i ((shows_iff hlen hfirst).2 (Or.inr hjoin))
    rw [hasWord_readSoFar_succ] at hword
    exact (hword.resolve_left hno).resolve_left hread

/-- **When the poll returns 0 on the words of the stream**: when, for every read that has no word and comes after none, a word
goes over into it exactly if it ends with the start of a word whose other bytes longer reads have left behind its end. -/
theorem ws63PollReset_iff (hlen : ∀ i, (cs i).length ≤ 32) : PollsWords cs ↔ Matched cs := by
  rw [pollsWords_iff_faithful hlen]
  exact ⟨fun h => h.matched hlen, fun h => h.faithful hlen⟩

/-- Before the first read there is nothing that a word could go over from, or be joined to. -/
theorem not_split_zero : ¬ Split cs 0 := by
  rintro ⟨_, _, a, _, ha, _, _, hsuf, _⟩
  exact ha (List.suffix_nil.1 hsuf)

theorem not_joined_zero : ¬ Joined cs 0 := by
  rintro ⟨_, _, _, b, _, hb, _, _, hleft⟩
  obtain ⟨x, b, rfl⟩ := List.exists_cons_of_ne_nil hb
  obtain ⟨j, hj, _⟩ := hleft 0 x rfl
  exact Nat.not_lt_zero j hj

/-- A word that is joined at the end of a read has the last byte of the read. -/
theorem Joined.last_mem {i : Nat} (h : Joined cs i) : ∃ w ∈ resetWords, ∃ x ∈ w, (cs i).getLast? = some x := by
  obtain ⟨_, hw, a, b, ha, _, rfl, ⟨front, hfront⟩, _⟩ := h
  refine ⟨_, hw, a.getLast ha, List.mem_append_left b (List.getLast_mem ha), ?_⟩
  rw [← hfront, List.getLast?_append, List.getLast?_eq_some_getLast ha]
  rfl

end

/-- The chunks, and then silence. -/
def chunksOf (chunks : List (List UInt8)) (i : Nat) : List UInt8 := chunks.getD i []

/-- The start of a word, a blank, and the word whole in the third read. -/
def wholeChunks : Nat → List UInt8 := chunksOf [[0x52, 0x65, 0x73], [0x20], resetWord]

/-- **A word whole in a later read** is found. -/
theorem ws63PollReset_whole : PollsWords wholeChunks := by
  refine (ws63PollReset_iff (fun i => ?_)).2 (fun i hno hread => ?_)
  · rcases i with _ | _ | _ | i
    · decide
    · decide
    · decide
    · exact Nat.zero_le 32
  · rcases i with _ | _ | _ | i
    · exact ⟨fun h => absurd h not_split_zero, fun h => absurd h not_joined_zero⟩
    · -- neither word has the blank
      have hnone : ¬ HasWord (readSoFar wholeChunks 2) := by decide
      have hblank : ¬ ∃ w ∈ resetWords, ∃ x ∈ w, (wholeChunks 1).getLast? = some x := by decide
      rw [hasWord_readSoFar_succ, not_or, not_or] at hnone
      exact ⟨fun h => absurd h hnone.2.2, fun h => absurd h.last_mem hblank⟩
    · exact absurd (by decide) hread
    · have hword : HasWord (readSoFar wholeChunks 3) := by decide
      exact absurd (hword.mono (readSoFar_mono _ (by omega)).isInfix) hno

/-- **A word that two reads share** is missed, and **one made of old bytes** is found. -/
theorem ws63PollReset_mixed :
    ¬ PollsWords (chunksOf [[0x52, 0x65, 0x73], [0x65, 0x74]]) ∧
      ¬ PollsWords (chunksOf [[0x78, 0x78, 0x73, 0x65, 0x74], [0x52, 0x65]]) := by
  have hlen : ∀ (a b : List UInt8), a.length ≤ 32 → b.length ≤ 32 → ∀ i, (chunksOf [a, b] i).length ≤ 32 := by
    intro a b ha hb i
    rcases i with _ | _ | i
    · exact ha
    · exact hb
    · exact Nat.zero_le 32
  constructor
  · intro h
    have hf := h.faithful (hlen _ _ (by decide) (by decide))
    obtain ⟨i, hi, hshow⟩ := hf.caught 2 (by decide)
    rcases (show i = 0 ∨ i = 1 by omega) with rfl | rfl
    · exact absurd hshow (by decide)
    · exact absurd hshow (by decide)
  · intro h
    have hf := h.faithful (hlen _ _ (by decide) (by decide))
    exact absurd (hf.fresh 1 (by decide)) (by decide)

end Ws63Flash
