import Mathlib.RingTheory.AdjoinRoot
import Mathlib.Algebra.Field.ZMod

/-!
Words of 128 bits as polynomials over the field of two elements, modulo
`x^128 + x^7 + x^2 + x + 1`: bit `i` of a word is the coefficient of `x^i`.
-/

namespace Sfslite.Lib.Gf128

open Polynomial

abbrev Word := BitVec 128

/-- Multiplication by `x`. -/
def double (v : Word) : Word := v <<< 1 ^^^ if v.msb then 0x87#128 else 0#128

/-- Multiplication by the polynomial whose coefficients are the bits of a number. -/
def mul (n : ℕ) (v : Word) : Word :=
  n.bits.foldr (fun b acc => double acc ^^^ if b then v else 0#128) 0#128

theorem double_zero : double 0#128 = 0#128 := by decide

theorem getLsbD_double (v : Word) {i : ℕ} (hi : i < 128) :
    (double v).getLsbD i =
      ((decide (0 < i) && v.getLsbD (i - 1)) ^^ (v.msb && (0x87#128).getLsbD i)) := by
  have hshift : (v <<< 1).getLsbD i = (decide (0 < i) && v.getLsbD (i - 1)) := by
    rw [BitVec.getLsbD_shiftLeft]
    cases i <;> simp [hi]
  unfold double
  rw [BitVec.getLsbD_xor, hshift]
  cases v.msb <;> simp

theorem double_eq_self {v : Word} (h : double v = v) : v = 0#128 := by
  have hbit : ∀ i < 128, v.getLsbD i =
      ((decide (0 < i) && v.getLsbD (i - 1)) ^^ (v.msb && (0x87#128).getLsbD i)) := by
    intro i hi
    rw [← getLsbD_double v hi, h]
  have hhigh : ∀ j, j + 7 < 128 → v.getLsbD (j + 7) = v.getLsbD 7 := by
    intro j
    induction j with
    | zero => exact fun _ => rfl
    | succ j ih =>
      intro hj
      have hmask : (0x87#128).getLsbD (j + 1 + 7) = false := by
        rw [BitVec.getLsbD_ofNat, Nat.testBit_lt_two_pow, Bool.and_false]
        exact Nat.lt_of_lt_of_le (by decide : 0x87 < 2 ^ 8)
          (Nat.pow_le_pow_right (by decide) (by omega))
      rw [hbit _ hj, hmask, Bool.and_false, Bool.xor_false]
      have hpred : j + 1 + 7 - 1 = j + 7 := by omega
      rw [hpred, ih (by omega)]
      simp
  have hmsb : v.msb = v.getLsbD 7 := by
    rw [BitVec.msb_eq_getLsbD_last]
    exact hhigh 120 (by decide)
  have hlow : ∀ i ≤ 7, v.getLsbD i = false := by
    have hmask : (0x87#128).getLsbD 0 = true ∧ (0x87#128).getLsbD 1 = true ∧
        (0x87#128).getLsbD 2 = true ∧ (0x87#128).getLsbD 7 = true ∧
        ∀ i < 7, 2 < i → (0x87#128).getLsbD i = false := by decide
    obtain ⟨m0, m1, m2, m7, mid⟩ := hmask
    have h0 : v.getLsbD 0 = v.getLsbD 7 := by rw [hbit 0 (by decide), m0, hmsb]; simp
    have h1 : v.getLsbD 1 = false := by rw [hbit 1 (by decide), m1, hmsb, h0]; simp
    have h2 : v.getLsbD 2 = v.getLsbD 7 := by rw [hbit 2 (by decide), m2, hmsb, h1]; simp
    have hmid : ∀ i < 7, 2 ≤ i → v.getLsbD i = v.getLsbD 7 := by
      intro i hi hle
      induction i, hle using Nat.le_induction with
      | base => exact h2
      | succ i hle ih =>
        rw [hbit (i + 1) (by omega), mid (i + 1) hi (by omega), Nat.add_sub_cancel,
          ih (by omega)]
        simp
    have h7 : v.getLsbD 7 = false := by
      have hlast := hbit 7 (by decide)
      rw [m7, hmsb, hmid 6 (by decide) (by decide)] at hlast
      revert hlast
      cases v.getLsbD 7 <;> decide
    intro i hi
    by_cases hi2 : 2 ≤ i
    · by_cases hi7 : i = 7
      · rw [hi7, h7]
      · rw [hmid i (by omega) hi2, h7]
    · have hcases : i = 0 ∨ i = 1 := by omega
      rcases hcases with rfl | rfl
      · rw [h0, h7]
      · exact h1
  apply BitVec.eq_of_getLsbD_eq
  intro i hi
  rw [BitVec.getLsbD_zero]
  by_cases hi7 : i ≤ 7
  · exact hlow i hi7
  · have hsplit : i = i - 7 + 7 := by omega
    rw [hsplit, hhigh (i - 7) (by omega)]
    exact hlow 7 (by omega)

theorem double_eq_zero {v : Word} (h : double v = 0#128) : v = 0#128 := by
  have hbit : ∀ i < 128, ((decide (0 < i) && v.getLsbD (i - 1)) ^^
      (v.msb && (0x87#128).getLsbD i)) = false := by
    intro i hi
    rw [← getLsbD_double v hi, h, BitVec.getLsbD_zero]
  have hmsb : v.msb = false := by
    have hone : (0x87#128).getLsbD 0 = true := by decide
    have hzero := hbit 0 (by decide)
    rw [hone] at hzero
    simpa using hzero
  apply BitVec.eq_of_getLsbD_eq
  intro i hi
  rw [BitVec.getLsbD_zero]
  by_cases hlast : i = 127
  · rw [hlast, ← hmsb, BitVec.msb_eq_getLsbD_last]
  · have hnext := hbit (i + 1) (by omega)
    rw [hmsb] at hnext
    simpa using hnext

theorem mul_zero_word (n : ℕ) : mul n 0#128 = 0#128 := by
  unfold mul
  induction n.bits with
  | nil => rfl
  | cons b bs ih =>
    rw [List.foldr_cons, ih, double_zero]
    cases b <;> rfl

noncomputable def modulus : (ZMod 2)[X] := X ^ 128 + X ^ 7 + X ^ 2 + X + 1

/-- The residue of a word's polynomial. -/
noncomputable def ofWord (v : Word) : AdjoinRoot modulus :=
  ∑ i ∈ Finset.range 128, if v.getLsbD i then AdjoinRoot.root modulus ^ i else 0

theorem add_self (a : AdjoinRoot modulus) : a + a = 0 := by
  have htwo : (1 + 1 : AdjoinRoot modulus) = 0 := by
    have hzero : ((1 + 1 : ZMod 2)) = 0 := by decide
    calc (1 + 1 : AdjoinRoot modulus) = AdjoinRoot.of modulus (1 + 1) := by simp
      _ = 0 := by rw [hzero, map_zero]
  calc a + a = (1 + 1) * a := by ring
    _ = 0 := by rw [htwo, zero_mul]

theorem ofWord_zero : ofWord 0#128 = 0 := by
  apply Finset.sum_eq_zero
  intro i _
  have hbit : (0#128).getLsbD i = false := BitVec.getLsbD_zero
  rw [hbit, if_neg Bool.false_ne_true]

theorem ofWord_xor (v w : Word) : ofWord (v ^^^ w) = ofWord v + ofWord w := by
  unfold ofWord
  rw [← Finset.sum_add_distrib]
  apply Finset.sum_congr rfl
  intro i _
  rw [BitVec.getLsbD_xor]
  cases v.getLsbD i <;> cases w.getLsbD i <;> simp [add_self]

theorem root_pow_128 : AdjoinRoot.root modulus ^ 128 = ofWord 0x87#128 := by
  have hpoly : X ^ 128 + (X ^ 7 + X ^ 2 + X + 1) = modulus := by
    unfold modulus
    simp only [add_assoc]
  have hsum : AdjoinRoot.root modulus ^ 128 + (AdjoinRoot.root modulus ^ 7 +
      AdjoinRoot.root modulus ^ 2 + AdjoinRoot.root modulus + 1) = 0 := by
    have hmk : AdjoinRoot.mk modulus (X ^ 128 + (X ^ 7 + X ^ 2 + X + 1)) = 0 := by
      rw [hpoly]
      exact AdjoinRoot.mk_self
    rwa [map_add, map_add, map_add, map_add, map_pow, map_pow, map_pow, map_one,
      AdjoinRoot.mk_X] at hmk
  have hword : ofWord 0x87#128 = AdjoinRoot.root modulus ^ 7 + AdjoinRoot.root modulus ^ 2 +
      AdjoinRoot.root modulus + 1 := by
    have hbits : (Finset.range 128).filter (fun i => (0x87#128).getLsbD i = true) =
        {0, 1, 2, 7} := by decide
    unfold ofWord
    rw [← Finset.sum_filter, hbits, Finset.sum_insert (by decide), Finset.sum_insert (by decide),
      Finset.sum_insert (by decide), Finset.sum_singleton]
    ring
  rw [hword]
  calc AdjoinRoot.root modulus ^ 128
    _ = AdjoinRoot.root modulus ^ 128 + (AdjoinRoot.root modulus ^ 7 +
        AdjoinRoot.root modulus ^ 2 + AdjoinRoot.root modulus + 1) +
        (AdjoinRoot.root modulus ^ 7 + AdjoinRoot.root modulus ^ 2 +
        AdjoinRoot.root modulus + 1) := by rw [add_assoc, add_self, add_zero]
    _ = _ := by rw [hsum, zero_add]

theorem ofWord_double (v : Word) : ofWord (double v) = AdjoinRoot.root modulus * ofWord v := by
  have hshift : ofWord (v <<< 1) =
      ∑ i ∈ Finset.range 127, if v.getLsbD i then AdjoinRoot.root modulus ^ (i + 1) else 0 := by
    have hzero : (v <<< 1).getLsbD 0 = false := by simp
    unfold ofWord
    rw [Finset.sum_range_succ', hzero, if_neg Bool.false_ne_true, add_zero]
    apply Finset.sum_congr rfl
    intro i hi
    have hi' : i + 1 < 128 := by
      have hlt := Finset.mem_range.mp hi
      omega
    have hbit : (v <<< 1).getLsbD (i + 1) = v.getLsbD i := by
      rw [BitVec.getLsbD_shiftLeft]
      simp [hi']
    rw [hbit]
  have hsplit : AdjoinRoot.root modulus * ofWord v =
      ofWord (v <<< 1) + if v.msb then AdjoinRoot.root modulus ^ 128 else 0 := by
    rw [hshift, BitVec.msb_eq_getLsbD_last]
    unfold ofWord
    rw [Finset.sum_range_succ, mul_add, Finset.mul_sum]
    have hlow : ∀ i, AdjoinRoot.root modulus *
        (if v.getLsbD i then AdjoinRoot.root modulus ^ i else 0) =
        if v.getLsbD i then AdjoinRoot.root modulus ^ (i + 1) else 0 := by
      intro i
      rw [mul_ite, mul_zero, pow_succ']
    rw [hlow, Finset.sum_congr rfl fun i _ => hlow i]
  unfold double
  rw [hsplit, ofWord_xor]
  cases v.msb
  · simp [ofWord_zero]
  · rw [root_pow_128]
    rfl

/-- The polynomial whose coefficients are the bits of a number, at the root. -/
noncomputable def ofNat (n : ℕ) : AdjoinRoot modulus :=
  n.bits.foldr (fun b acc => AdjoinRoot.root modulus * acc + if b then 1 else 0) 0

theorem ofWord_mul (n : ℕ) (v : Word) : ofWord (mul n v) = ofNat n * ofWord v := by
  unfold mul ofNat
  induction n.bits with
  | nil => rw [List.foldr_nil, List.foldr_nil, ofWord_zero, zero_mul]
  | cons b bs ih =>
    rw [List.foldr_cons, List.foldr_cons, ofWord_xor, ofWord_double, ih]
    cases b
    · simp [ofWord_zero, mul_assoc]
    · simp [add_mul, mul_assoc]

end Sfslite.Lib.Gf128
