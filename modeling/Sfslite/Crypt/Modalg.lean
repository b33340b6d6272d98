import Sfslite.Lib.Barrett
import Mathlib.Data.Nat.Size
import Mathlib.Data.Nat.Prime.Basic
import Mathlib.Data.Int.ModEq

/-!
Barrett reduction: the class `barrett` of `modalg.C`. Big integers are integers.
-/

namespace Sfslite.Crypt

open Sfslite.Lib

/-- `mpz_bitsperlimb`. -/
def bitsperlimb : ℕ := 64

/-- `ABS (_mp_size)`. -/
def mpSize (a : ℤ) : ℕ := (a.natAbs.size + bitsperlimb - 1) / bitsperlimb

structure Barrett where
  /-- Modulus, M. -/
  m : ℤ
  /-- The number of limbs in M. -/
  k : ℕ
  bk1 : ℤ
  /-- The reciprocal. -/
  u : ℤ
deriving DecidableEq

namespace Barrett

/-- `barrett::set`; `none` where an assertion fails. -/
def set (m : ℤ) : Option Barrett :=
  if 0 < m ∧ m % 2 = 1 then
    let k := (m.natAbs.size + bitsperlimb - 1) / bitsperlimb
    some {
      m := m
      k := k
      bk1 := 2 ^ ((k + 1) * bitsperlimb)
      u := Int.tdiv (2 ^ (2 * bitsperlimb * k)) m }
  else none

/-- The `while` loop of `mpz_reduce`. -/
def reduceLoop (m : ℤ) : ℕ → ℤ → ℤ
  | 0, r => r
  | fuel + 1, r => if m < r then reduceLoop m fuel (r - m) else r

/-- `barrett::mpz_reduce`; `none` where the assertion fails. -/
def mpzReduce (t : Barrett) (a : ℤ) : Option ℤ :=
  if 0 ≤ a ∧ mpSize a ≤ 2 * t.k then
    let q := a.tdiv (2 ^ ((t.k - 1) * bitsperlimb))
    let q := q * t.u
    let q := q.tdiv (2 ^ ((t.k + 1) * bitsperlimb))
    let r1 := a.tmod (2 ^ ((t.k + 1) * bitsperlimb))
    let r2 := (q * t.m).tmod (2 ^ ((t.k + 1) * bitsperlimb))
    let r := r1 - r2
    let r := if r < 0 then r + t.bk1 else r
    some (reduceLoop t.m r.toNat r)
  else none

variable {t : Barrett} {m a r : ℤ}

theorem mpSize_le_iff (a : ℤ) (k : ℕ) : mpSize a ≤ k ↔ a.natAbs < 2 ^ (k * bitsperlimb) := by
  have hsize : a.natAbs.size ≤ k * bitsperlimb ↔ a.natAbs < 2 ^ (k * bitsperlimb) := Nat.size_le
  rw [← hsize]
  unfold mpSize bitsperlimb
  omega

/-- The loop stops at `m` or below. It comes to 0 only from 0. -/
theorem reduceLoop_spec (hm : 0 < m) (fuel : ℕ) (r : ℤ) (hfuel : r.toNat ≤ fuel) :
    reduceLoop m fuel r ≡ r [ZMOD m] ∧ reduceLoop m fuel r ≤ m ∧
      (0 < r → 0 < reduceLoop m fuel r) ∧ (r ≤ m → reduceLoop m fuel r = r) := by
  induction fuel generalizing r with
  | zero =>
    have hr : r ≤ 0 := by omega
    exact ⟨Int.ModEq.refl r, by simp only [reduceLoop]; omega, id, fun _ => rfl⟩
  | succ fuel ih =>
    rw [reduceLoop]
    split
    · rename_i hlt
      obtain ⟨hmod, hle, hpos, _⟩ := ih (r - m) (by omega)
      refine ⟨hmod.trans ?_, hle, fun _ => hpos (by omega), fun hrm => absurd hlt (by omega)⟩
      exact Int.sub_modulus_modEq_iff.mpr rfl
    · rename_i hge
      exact ⟨Int.ModEq.refl r, by omega, id, fun _ => rfl⟩

theorem sub_low {x y P : ℤ} (hle : y ≤ x) (hlt : x - y < P) :
    (if x % P - y % P < 0 then x % P - y % P + P else x % P - y % P) = x - y := by
  have hP : 0 < P := by omega
  have hx := Int.emod_nonneg x (Int.ne_of_gt hP)
  have hy := Int.emod_nonneg y (Int.ne_of_gt hP)
  have hx' := Int.emod_lt_of_pos x hP
  have hy' := Int.emod_lt_of_pos y hP
  have hmod : (x % P - y % P) % P = x - y := by
    rw [← Int.sub_emod, Int.emod_eq_of_lt (by omega) hlt]
  split
  · have hup : (x % P - y % P + P) % P = x - y := by rw [Int.add_emod_right, hmod]
    rwa [Int.emod_eq_of_lt (by omega) (by omega)] at hup
  · rwa [Int.emod_eq_of_lt (by omega) (by omega)] at hmod

/-- What `set` leaves: a modulus between two powers, and the reciprocal of their product. -/
structure Wf (t : Barrett) (M X Y : ℕ) : Prop where
  m_eq : t.m = M
  odd : M % 2 = 1
  low : X ≤ M
  high : 3 * M < Y
  power : X * Y = 2 ^ (2 * t.k * bitsperlimb)
  low_eq : 2 ^ ((t.k - 1) * bitsperlimb) = (X : ℤ)
  high_eq : 2 ^ ((t.k + 1) * bitsperlimb) = (Y : ℤ)
  bk1_eq : t.bk1 = Y
  u_eq : t.u = ((X * Y / M : ℕ) : ℤ)

theorem wf_of_set (h : set m = some t) : ∃ M X Y, Wf t M X Y ∧ m = M := by
  unfold set at h
  split at h
  · rename_i hm
    obtain ⟨M, rfl⟩ := Int.eq_ofNat_of_zero_le (Int.le_of_lt hm.1)
    have hpos : 0 < M := by omega
    cases h
    simp only [Int.natAbs_natCast]
    obtain ⟨k, hk⟩ : ∃ k, (M.size + bitsperlimb - 1) / bitsperlimb = k + 1 := by
      have hsize : 0 < M.size := Nat.size_pos.mpr hpos
      unfold bitsperlimb
      exact ⟨(M.size + 64 - 1) / 64 - 1, by omega⟩
    have hlow : 2 ^ (k * bitsperlimb) ≤ M := by
      apply Nat.lt_size.mp
      unfold bitsperlimb at hk ⊢
      omega
    have hhigh : M < 2 ^ ((k + 1) * bitsperlimb) := by
      apply Nat.size_le.mp
      unfold bitsperlimb at hk ⊢
      omega
    refine ⟨M, 2 ^ (k * bitsperlimb), 2 ^ ((k + 1 + 1) * bitsperlimb), ⟨rfl, ?_, hlow, ?_, ?_,
      ?_, ?_, ?_, ?_⟩, rfl⟩
    · omega
    · have hpow : 2 ^ ((k + 1 + 1) * bitsperlimb) =
          2 ^ bitsperlimb * 2 ^ ((k + 1) * bitsperlimb) := by
        rw [← pow_add]
        ring_nf
      have hthree : 3 ≤ 2 ^ bitsperlimb := by decide
      rw [hpow]
      calc 3 * M < 3 * 2 ^ ((k + 1) * bitsperlimb) := by omega
        _ ≤ 2 ^ bitsperlimb * 2 ^ ((k + 1) * bitsperlimb) := Nat.mul_le_mul_right _ hthree
    · rw [← pow_add, hk]
      ring_nf
    · rw [hk, Nat.add_sub_cancel]
      push_cast
      rfl
    · rw [hk]
      push_cast
      rfl
    · rw [hk]
      push_cast
      rfl
    · have hpow : 2 ^ (k * bitsperlimb) * 2 ^ ((k + 1 + 1) * bitsperlimb) =
          2 ^ (2 * bitsperlimb * (k + 1)) := by
        rw [← pow_add]
        ring_nf
      rw [hk, hpow]
      push_cast
      exact Int.tdiv_eq_ediv_of_nonneg (by positivity)
  · cases h

section

variable {M X Y a : ℕ} (hw : Wf t M X Y) (ha : mpSize a ≤ 2 * t.k)

include hw in
theorem Wf.low_pos : 0 < X := by
  have hpos : 0 < (X : ℤ) := hw.low_eq ▸ (by positivity)
  exact_mod_cast hpos

include hw ha in
theorem Wf.bounds : Barrett.estimate X Y M a * M ≤ a ∧ a - Barrett.estimate X Y M a * M < Y := by
  have hX := hw.low_pos
  have hY : 0 < Y := Nat.lt_of_le_of_lt (Nat.zero_le _) hw.high
  have hlt : a < X * Y := by
    rw [hw.power]
    exact (mpSize_le_iff _ _).mp ha
  have hle := Barrett.estimate_le (X := X) (Y := Y) (M := M) (a := a) hY
  have hthree := Barrett.lt_estimate_add_three hw.low hX hlt
  have hhigh := hw.high
  rw [Nat.add_mul] at hthree
  exact ⟨hle, by omega⟩

include hw ha in
theorem Wf.mpzReduce : ∃ r : ℕ, r + Barrett.estimate X Y M a * M = a ∧
    t.mpzReduce a = some (reduceLoop M r r) := by
  obtain ⟨hle, hlt⟩ := hw.bounds ha
  have hest : (((a : ℤ).tdiv X * t.u).tdiv Y) = (Barrett.estimate X Y M a : ℕ) := by
    rw [hw.u_eq, ← Int.ofNat_tdiv, ← Int.natCast_mul, ← Int.ofNat_tdiv]
    rfl
  have hcond : 0 ≤ (a : ℤ) ∧ mpSize a ≤ 2 * t.k := ⟨Int.natCast_nonneg a, ha⟩
  refine ⟨a - Barrett.estimate X Y M a * M, Nat.sub_add_cancel hle, ?_⟩
  unfold Barrett.mpzReduce
  rw [if_pos hcond]
  simp only [hw.low_eq, hw.high_eq, hw.bk1_eq, hw.m_eq, hest]
  rw [← Int.natCast_mul, Int.tmod_eq_emod_of_nonneg (Int.natCast_nonneg _),
    Int.tmod_eq_emod_of_nonneg (Int.natCast_nonneg _),
    sub_low (by exact_mod_cast hle) (by omega), ← Int.natCast_sub hle, Int.toNat_natCast]

end

theorem modulus_not_dvd {M X Y : ℕ} (hw : Wf t M X Y) (hM : M ≠ 1) : ¬ M ∣ X * Y := by
  intro hdvd
  rw [hw.power] at hdvd
  have hcop : Nat.Coprime M (2 ^ (2 * t.k * bitsperlimb)) :=
    Nat.Coprime.pow_right _ (Nat.coprime_two_right.mpr (Nat.odd_iff.mpr hw.odd))
  exact hM (hcop.eq_one_of_dvd hdvd)

/-- The loop leaves the modulus itself for every multiple of it but 0. -/
theorem mpzReduce_eq_emod_iff (hset : set m = some t) (ha : 0 ≤ a) (hsize : mpSize a ≤ 2 * t.k) :
    t.mpzReduce a = some (a % m) ↔ a = 0 ∨ m = 1 ∨ ¬ m ∣ a := by
  obtain ⟨M, X, Y, hw, rfl⟩ := wf_of_set hset
  obtain ⟨a, rfl⟩ := Int.eq_ofNat_of_zero_le ha
  obtain ⟨r, hsum, hreduce⟩ := hw.mpzReduce hsize
  have hM : 0 < (M : ℤ) := by
    have hodd := hw.odd
    omega
  obtain ⟨hmod, hle, hpos, hstay⟩ := reduceLoop_spec hM r r (by simp)
  have hra : (r : ℤ) ≡ a [ZMOD M] := by
    apply Int.modEq_iff_dvd.mpr
    have hsum' : (r : ℤ) + Barrett.estimate X Y M a * M = a := by exact_mod_cast hsum
    exact ⟨Barrett.estimate X Y M a, by rw [← hsum']; ring⟩
  generalize reduceLoop M r r = res at hreduce hmod hle hpos hstay
  have hres : res % M = a % M := hmod.trans hra
  have hnonneg : 0 ≤ res := by
    rcases Nat.eq_zero_or_pos r with hzero | hr
    · rw [hstay (by omega), hzero]
      exact Int.le_refl 0
    · exact Int.le_of_lt (hpos (by exact_mod_cast hr))
  have hmain : res = a % M ↔ res ≠ M := by
    rw [← hres]
    constructor
    · rintro heq rfl
      rw [Int.emod_self] at heq
      omega
    · intro hne
      exact (Int.emod_eq_of_lt hnonneg (by omega)).symm
  rw [hreduce, Option.some.injEq, hmain]
  constructor
  · intro hne
    by_contra hall
    push Not at hall
    obtain ⟨ha0, hM1, hdvd⟩ := hall
    have hlt := Barrett.estimate_lt (X := X) (Y := Y) (M := M) (a := a) (by omega)
      (modulus_not_dvd hw (by exact_mod_cast hM1))
    have hres_pos : 0 < res := hpos (by omega)
    have hdvd' : (M : ℤ) ∣ res := by
      rw [Int.dvd_iff_emod_eq_zero, hres]
      exact Int.emod_eq_zero_of_dvd hdvd
    exact hne (Int.le_antisymm hle (Int.le_of_dvd hres_pos hdvd'))
  · rintro hcase rfl
    have hdvd : (M : ℤ) ∣ a := by
      rw [Int.dvd_iff_emod_eq_zero, ← hres, Int.emod_self]
    rcases hcase with hzero | hone | hnot
    · have hr : r = 0 := by
        have hzero' : a = 0 := by exact_mod_cast hzero
        omega
      subst hr
      rw [hstay (by omega)] at hM
      exact Int.lt_irrefl _ hM
    · -- with the modulus 1 the estimate is exact
      have hM1 : M = 1 := by exact_mod_cast hone
      have hX1 : X = 1 := Nat.le_antisymm (hM1 ▸ hw.low) hw.low_pos
      have hY : 0 < Y := Nat.lt_of_le_of_lt (Nat.zero_le _) hw.high
      have hexact : Barrett.estimate X Y M a = a := by
        rw [hX1, hM1, Barrett.estimate, Nat.div_one, Nat.one_mul, Nat.div_one,
          Nat.mul_div_cancel _ hY]
      have hr : r = 0 := by
        rw [hexact, hM1] at hsum
        omega
      subst hr
      rw [hstay (by omega)] at hM
      exact Int.lt_irrefl _ hM
    · exact hnot hdvd

def three : Barrett where
  m := 3
  k := 1
  bk1 := 2 ^ 128
  u := 113427455640312821154458202477256070485

theorem set_three : set 3 = some three := by decide

theorem mpzReduce_four :
    three.mpzReduce 4 = some (4 % 3) ↔ (4 : ℤ) = 0 ∨ (3 : ℤ) = 1 ∨ ¬ (3 : ℤ) ∣ 4 :=
  mpzReduce_eq_emod_iff set_three (by decide) (by decide)

/-- Modulo 3 the number 3 stays what it is: the loop stops on `mpz_cmp (r, mp) > 0`. -/
theorem mpzReduce_three : ¬ ∀ (m : ℤ) (t : Barrett) (a : ℤ), set m = some t → 0 ≤ a →
    mpSize a ≤ 2 * t.k → t.mpzReduce a = some (a % m) := by
  intro h
  have hthree := h 3 three 3 set_three (by decide) (by decide)
  have hleft : three.mpzReduce 3 = some 3 := by decide
  rw [hleft] at hthree
  exact absurd hthree (by decide)

end Barrett

end Sfslite.Crypt
