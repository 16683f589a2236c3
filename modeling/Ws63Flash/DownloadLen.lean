import Mathlib.Order.Bounds.Basic
import Ws63Flash.FailStop
import Ws63Flash.FlashDevice
import Ws63Flash.Package
import Ws63Flash.SignMain
/-!
# DownloadLen — the length and the erase size of a DOWNLOADI frame

Three verbs round the length up to a multiple of 0x2000 and store both into 32 bits.  Nothing bounds the length: above
the last multiple below 2^32 the erase size is cut, and from 2^32 on the length too (`download_names_iff`).
-/
namespace Ws63Flash

open Octets Proc

/-- Rounding up is the least multiple. -/
theorem roundUp_isLeast {k : Nat} (hk : 0 < k) (n : Nat) : IsLeast {m | k ∣ m ∧ n ≤ m} ((n + (k - 1)) / k * k) := by
  have hdiv := Nat.div_add_mod (n + (k - 1)) k
  have hmod := Nat.mod_lt (n + (k - 1)) hk
  rw [Nat.mul_comm] at hdiv
  constructor
  · exact ⟨Nat.dvd_mul_left _ _, by omega⟩
  · rintro m ⟨⟨q, rfl⟩, hle⟩
    have hq : (n + (k - 1)) / k ≤ q := by
      rw [← Nat.lt_succ_iff, Nat.div_lt_iff_lt_mul hk, Nat.succ_mul, Nat.mul_comm q k]
      omega
    rw [Nat.mul_comm k q]
    exact Nat.mul_le_mul_right k hq

/-- The frame of `c` has the length `len`, and the least erase size that holds it. -/
structure Names (c : Cmddef) (len : Nat) : Prop where
  ilen : leNat (slice (cmdFrame c) 12 4) = len
  eras : IsLeast {m | 0x2000 ∣ m ∧ len ≤ m} (leNat (slice (cmdFrame c) 16 4))

/-- The erase size is cut from the last multiple on. -/
theorem erasSize_toNat (len : Nat) : (erasSize len).toNat = (len + 8191) / 8192 * 0x2000 % 2 ^ 32 := UInt32.toNat_ofNat' ..

theorem downloadCmd_names_iff (addr : UInt32) (len : Nat) :
    Names (downloadCmd addr (UInt32.ofNat len) (erasSize len)) len ↔ len ≤ 2 ^ 32 - 0x2000 := by
  obtain ⟨_, hlen, heras⟩ := downloadCmd_fields addr (UInt32.ofNat len) (erasSize len)
  rw [UInt32.toNat_ofNat'] at hlen
  rw [erasSize_toNat] at heras
  have hround := roundUp_isLeast (show 0 < 8192 by decide) len
  constructor
  · intro hnames
    have hlt : len < 2 ^ 32 := by
      have := hnames.ilen
      rw [hlen] at this
      rw [← this]
      exact Nat.mod_lt _ (by decide)
    have hle := hnames.eras.1.2
    rw [heras] at hle
    omega
  · intro hle
    refine ⟨?_, ?_⟩
    · rw [hlen, Nat.mod_eq_of_lt (by omega)]
    · rw [heras, Nat.mod_eq_of_lt (by omega)]
      exact hround

/-! ## The lengths of the verbs -/

/-- The lengths that can reach a DOWNLOADI frame: of a record, of a file, and of a signed program. -/
def Admits : Verb → Nat → Prop
  | .flash, len     => len < 2 ^ 32
  | .write, _       => True
  | .erase, _       => False
  | .writeProg, len => ∃ k, len = signBufLen + 16 * k

/-- In whatever plan `verb` follows, the frame before a transfer of `len` bytes names this length. -/
def LenNamed (verb : Verb) (len : Nat) : Prop :=
  ∀ (h : Host) (a : Args) (p : Plan) (j : Job) (part : Part), planOf h a verb = .ret (.ok p) → j ∈ p.jobs →
    j.part = some part → part.len = len → Names j.cmd len

theorem signFile_len (sha256 : List UInt8 → List UInt8) (bin : List UInt8) :
    (signFile sha256 bin).1.len = (bin.length + 15) / 16 * 16 := by
  rw [signFile_eq]
  rfl

/-- The three sites make the frame in one way. -/
theorem planOf_job {h : Host} {a : Args} {verb : Verb} {p : Plan} {j : Job} {part : Part}
    (hp : planOf h a verb = .ret (.ok p)) (hj : j ∈ p.jobs) (hpart : j.part = some part) :
    Admits verb part.len ∧ ∃ addr, j.cmd = downloadCmd addr (UInt32.ofNat part.len) (erasSize part.len) := by
  cases verb with
  | flash =>
    obtain ⟨fw, bins, lb, rfl⟩ := planFlash_eq_ok hp
    obtain ⟨b, _, rfl⟩ := List.mem_map.1 hj
    cases hpart
    refine ⟨b.length.toNat_lt, b.burnAddr, ?_⟩
    show downloadCmd b.burnAddr b.length _ = downloadCmd _ (UInt32.ofNat b.length.toNat) _
    rw [UInt32.ofNat_toNat]
    rfl
  | write =>
    obtain ⟨boot, wobjs, rfl⟩ := planWrite_eq_ok hp
    obtain ⟨w, _, rfl⟩ := List.mem_map.1 hj
    cases hpart
    exact ⟨trivial, UInt32.ofNat w.addr, rfl⟩
  | erase =>
    rw [planErase_eq_ok hp, List.mem_singleton] at hj
    rw [hj] at hpart
    exact nomatch hpart
  | writeProg =>
    obtain ⟨bin, rfl⟩ := planWriteProg_eq_ok hp
    rw [List.mem_singleton] at hj
    subst hj
    cases hpart
    refine ⟨⟨(bin.length + 15) / 16, ?_⟩, 0x230000, rfl⟩
    show (signFile h.sha256 bin).1.len + signBufLen = _
    rw [signFile_len]
    omega

/-- A loaderboot, and a record that claims the length `len`. -/
def lengthPackage (len : Nat) : Package where
  len := 0
  bins := [sampleBin 0x61 116 0 0, { sampleBin 0x62 116 0x230000 1 with length := UInt32.ofNat len }]
  data := []

/-- Every file has the size `len`. -/
def hostSized (len : Nat) : Host := { hostOf [] with stat := fun _ => .ok len }

/-- Each of these lengths does reach one. -/
theorem admits_reached {verb : Verb} {len : Nat} (hadm : Admits verb len) :
    ∃ h a p j part, planOf h a verb = .ret (.ok p) ∧ j ∈ p.jobs ∧ j.part = some part ∧ part.len = len := by
  cases verb with
  | flash =>
    have hacc := (lengthPackage len).accepted (show 2 < 16 by decide)
    have hplan : planOf (hostOf (lengthPackage len).bytes) plainArgs .flash
        = .ret (.ok (flashPlan plainArgs (lengthPackage len).bytes (lengthPackage len).bins (sampleBin 0x61 116 0 0))) := by
      rw [planOf, planFlash_accepted rfl rfl hacc]
      have hfind : findLoaderboot (lengthPackage len).bins = some (sampleBin 0x61 116 0 0) := rfl
      have hnamed : ¬ ¬ NamesEnd (lengthPackage len).bins := fun hn => hn (namesEnd_of_nul (by
        intro bin hbin
        rcases List.mem_cons.1 hbin with rfl | hbin
        · exact nul_of_type2 (Or.inl rfl)
        · rw [List.mem_singleton.1 hbin]
          exact nul_of_type2 (Or.inr rfl)))
      rw [hfind]
      dsimp only
      rw [if_neg hnamed, if_neg (fun ⟨_, harg, _⟩ => nomatch harg)]
    refine ⟨_, _, _, flashJob _ _, flashPart _ _, hplan, List.mem_singleton.2 rfl, rfl, ?_⟩
    show (UInt32.ofNat len).toNat = len
    rw [UInt32.toNat_ofNat', Nat.mod_eq_of_lt hadm]
  | write =>
    have hplan : planOf (hostSized len) ⟨[ttyT, fileA, atAddr fileC false 0], 115200, false⟩ .write
        = .ret (.ok ⟨writePart (hostSized len) ⟨fileA, len, 0⟩, true, [writeJob (hostSized len) ⟨fileC, len, 0⟩]⟩) := by
      have hok : parseWobjs (hostSized len) [fileA, atAddr fileC false 0] = .ok [⟨fileA, len, 0⟩, ⟨fileC, len, 0⟩] := by
        rw [parseWobjs, parseWobj_bare (by decide) rfl, List.mapM_cons,
          parseWobj_atAddr false false (by decide) rfl (by decide)]
        rfl
      rw [planOf, planWrite, List.drop_one, List.tail_cons, hok]
      rfl
    exact ⟨_, _, _, writeJob _ _, writePart _ _, hplan, List.mem_singleton.2 rfl, rfl, rfl⟩
  | erase => exact absurd hadm id
  | writeProg =>
    obtain ⟨k, rfl⟩ := hadm
    have hplan : planOf (hostOf (List.replicate (16 * k) 0)) plainArgs .writeProg = .ret (.ok
        ⟨builtinPart (hostOf (List.replicate (16 * k) 0)), true, [progJob (hostOf (List.replicate (16 * k) 0))
          (List.replicate (16 * k) 0)]⟩) := rfl
    refine ⟨_, _, _, progJob _ _, ⟨_, progName, _⟩, hplan, List.mem_singleton.2 rfl, rfl, ?_⟩
    show (signFile _ (List.replicate (16 * k) 0)).1.len + signBufLen = _
    rw [signFile_len, List.length_replicate]
    omega

theorem LenNamed.le {verb : Verb} {len : Nat} (hnamed : LenNamed verb len) (hadm : Admits verb len) :
    len ≤ 2 ^ 32 - 0x2000 := by
  obtain ⟨h, a, p, j, part, hp, hj, hpart, rfl⟩ := admits_reached hadm
  obtain ⟨_, addr, hcmd⟩ := planOf_job hp hj hpart
  have hnames := hnamed h a p j part hp hj hpart rfl
  rw [hcmd] at hnames
  exact (downloadCmd_names_iff addr _).1 hnames

/-- **When the frame names the length**: when a multiple of 0x2000 below 2^32 holds it. -/
theorem download_names_iff (verb : Verb) (len : Nat) : LenNamed verb len ↔ (Admits verb len → len ≤ 2 ^ 32 - 0x2000) := by
  constructor
  · exact LenNamed.le
  · intro hle h a p j part hp hj hpart hlen
    obtain ⟨hadm, addr, hcmd⟩ := planOf_job hp hj hpart
    subst hlen
    rw [hcmd]
    exact (downloadCmd_names_iff addr _).2 (hle hadm)

/-- **A record of 2^32 - 1 bytes** is announced with nothing to erase. -/
theorem download_names_cut : ¬ LenNamed .flash (2 ^ 32 - 1) ∧ (erasSize (2 ^ 32 - 1)).toNat = 0 := by
  have hlt : Admits .flash (2 ^ 32 - 1) := Nat.sub_lt (by decide) (by decide)
  exact ⟨fun hnamed => absurd (hnamed.le hlt) (by decide), by decide +kernel⟩

end Ws63Flash
