import Mathlib.Algebra.Field.ZMod
import Mathlib.Algebra.Polynomial.Div

/-!
Words as polynomials over the field of two elements: bit `i` of a word is the coefficient of
`x^i`. Exclusive or is addition, and shifts are products with powers of `x`.
-/

namespace Sfslite.Lib.Gf2Poly

open Polynomial

variable {w : ℕ} {u v : BitVec w} {p q : (ZMod 2)[X]}

/-- The polynomial whose coefficients are the lowest `n` bits. -/
noncomputable def ofBits (v : BitVec w) (n : ℕ) : (ZMod 2)[X] :=
  ∑ i ∈ Finset.range n, if v.getLsbD i then X ^ i else 0

noncomputable def ofWord (v : BitVec w) : (ZMod 2)[X] :=
  ofBits v w

theorem ofBits_succ (v : BitVec w) (n : ℕ) :
    ofBits v (n + 1) = ofBits v n + if v.getLsbD n then X ^ n else 0 :=
  Finset.sum_range_succ _ _

theorem coeff_ofWord (v : BitVec w) (n : ℕ) :
    (ofWord v).coeff n = if v.getLsbD n then 1 else 0 := by
  have hterm : ∀ i, (if v.getLsbD i then (X : (ZMod 2)[X]) ^ i else 0).coeff n =
      if n = i then (if v.getLsbD n then 1 else 0) else 0 := by
    intro i
    split_ifs with hbit heq hbit' heq hbit'
    · rw [coeff_X_pow, if_pos heq]
    · rw [heq] at hbit'
      exact absurd hbit hbit'
    · rw [coeff_X_pow, if_neg heq]
    · rw [heq] at hbit'
      exact absurd hbit' hbit
    · exact coeff_zero n
    · exact coeff_zero n
  rw [ofWord, ofBits, finsetSum_coeff, Finset.sum_congr rfl fun i _ => hterm i,
    Finset.sum_ite_eq]
  split_ifs with hrange hbit hbit
  · rfl
  · rfl
  · rw [Finset.mem_range, Nat.not_lt] at hrange
    rw [BitVec.getLsbD_of_ge v n hrange] at hbit
    exact absurd hbit (by decide)
  · rfl

theorem ofWord_injective : Function.Injective (ofWord : BitVec w → (ZMod 2)[X]) := by
  intro u v h
  apply BitVec.eq_of_getLsbD_eq
  intro i _
  have hcoeff := congrArg (fun p => p.coeff i) h
  simp only [coeff_ofWord] at hcoeff
  cases hu : u.getLsbD i <;> cases hv : v.getLsbD i <;> simp_all

@[simp]
theorem ofWord_zero : ofWord (0#w) = 0 := by
  ext n
  simp [coeff_ofWord]

theorem ofWord_xor (u v : BitVec w) : ofWord (u ^^^ v) = ofWord u + ofWord v := by
  ext n
  rw [coeff_add, coeff_ofWord, coeff_ofWord, coeff_ofWord, BitVec.getLsbD_xor]
  cases u.getLsbD n <;> cases v.getLsbD n <;> simp [CharTwo.add_self_eq_zero]

theorem ofWord_or (h : ∀ n, u.getLsbD n = true → v.getLsbD n = false) :
    ofWord (u ||| v) = ofWord u + ofWord v := by
  ext n
  rw [coeff_add, coeff_ofWord, coeff_ofWord, coeff_ofWord, BitVec.getLsbD_or]
  have hn := h n
  cases hu : u.getLsbD n <;> cases hv : v.getLsbD n <;> simp_all

theorem ofWord_setWidth {k : ℕ} (v : BitVec w) (h : w ≤ k) : ofWord (v.setWidth k) = ofWord v := by
  ext n
  rw [coeff_ofWord, coeff_ofWord, BitVec.getLsbD_setWidth]
  rcases Nat.lt_or_ge n k with hlt | hge
  · simp [hlt]
  · rw [BitVec.getLsbD_of_ge v n (Nat.le_trans h hge), Bool.and_false]

theorem ofWord_shift (v : BitVec w) {s : ℕ} (hs : s ≤ w) :
    X ^ w * ofWord (v >>> (w - s)) + ofWord (v <<< s) = X ^ s * ofWord v := by
  ext n
  rw [coeff_add, coeff_X_pow_mul', coeff_X_pow_mul']
  simp only [coeff_ofWord, BitVec.getLsbD_ushiftRight, BitVec.getLsbD_shiftLeft]
  rcases Nat.lt_or_ge n w with hlt | hge
  · rw [if_neg (Nat.not_le.mpr hlt), zero_add]
    rcases Nat.lt_or_ge n s with hns | hns
    · rw [if_neg (Nat.not_le.mpr hns)]
      simp [hns]
    · rw [if_pos hns]
      simp [hlt, Nat.not_lt.mpr hns]
  · rw [if_pos hge, if_pos (Nat.le_trans hs hge)]
    have hindex : w - s + (n - w) = n - s := by
      omega
    rw [hindex]
    simp [Nat.not_lt.mpr hge]

theorem ofWord_shiftLeft {s : ℕ} (hs : s ≤ w) (h : v.toNat < 2 ^ (w - s)) :
    ofWord (v <<< s) = X ^ s * ofWord v := by
  have hzero : v >>> (w - s) = 0#w := by
    apply BitVec.eq_of_toNat_eq
    rw [BitVec.toNat_ushiftRight, Nat.shiftRight_eq_div_pow, Nat.div_eq_of_lt h]
    rfl
  rw [← ofWord_shift v hs, hzero, ofWord_zero, mul_zero, zero_add]

theorem degree_ofWord_lt {n : ℕ} : (ofWord v).degree < n ↔ v.toNat < 2 ^ n := by
  rw [degree_lt_iff_coeff_zero]
  constructor
  · intro h
    apply Nat.lt_pow_two_of_testBit
    intro i hi
    have hcoeff := h i hi
    rw [coeff_ofWord] at hcoeff
    split_ifs at hcoeff with hbit
    · exact absurd hcoeff one_ne_zero
    · exact Bool.eq_false_iff.mpr hbit
  · intro h i hi
    rw [coeff_ofWord, BitVec.getLsbD, Nat.testBit_lt_two_pow (Nat.lt_of_lt_of_le h
      (Nat.pow_le_pow_right (by decide) hi)), if_neg (by decide)]

theorem monic_ofWord {k : ℕ} (htop : v.getLsbD k = true) (h : v.toNat < 2 ^ (k + 1)) :
    (ofWord v).Monic ∧ (ofWord v).degree = k := by
  have hcoeff : (ofWord v).coeff k = 1 := by
    rw [coeff_ofWord, if_pos htop]
  have hle : (ofWord v).degree ≤ k := by
    rw [degree_le_iff_coeff_zero]
    intro n hn
    have hlt := (degree_lt_iff_coeff_zero _ _).mp (degree_ofWord_lt.mpr h)
    exact hlt n (by exact_mod_cast hn)
  refine ⟨monic_of_degree_le k hle hcoeff, le_antisymm hle (le_degree_of_ne_zero ?_)⟩
  rw [hcoeff]
  exact one_ne_zero

theorem add_mul_mod (hq : q.Monic) (p c : (ZMod 2)[X]) : (p + c * q) %ₘ q = p %ₘ q := by
  rw [add_modByMonic, mul_comm, (modByMonic_eq_zero_iff_dvd hq).mpr (dvd_mul_right q c), add_zero]

theorem mul_mod (hq : q.Monic) (p c : (ZMod 2)[X]) : c * (p %ₘ q) %ₘ q = c * p %ₘ q := by
  have hdiv : c * p = c * (p %ₘ q) + c * (p /ₘ q) * q := by
    conv_lhs => rw [← modByMonic_add_div p q]
    ring
  rw [hdiv, add_mul_mod hq]

theorem add_mod (hq : q.Monic) (p c : (ZMod 2)[X]) : (p + c %ₘ q) %ₘ q = (p + c) %ₘ q := by
  have hdiv : p + c = p + c %ₘ q + (c /ₘ q) * q := by
    conv_lhs => rw [← modByMonic_add_div c q]
    ring
  rw [hdiv, add_mul_mod hq]

theorem mul_add_mod (hq : q.Monic) (p c b : (ZMod 2)[X]) :
    ((p %ₘ q) * c + b) %ₘ q = (p * c + b) %ₘ q := by
  have hdiv : p * c + b = (p %ₘ q) * c + b + c * (p /ₘ q) * q := by
    conv_lhs => rw [← modByMonic_add_div p q]
    ring
  rw [hdiv, add_mul_mod hq]

/-- The first byte has the highest coefficients. -/
noncomputable def ofBytes (l : List (BitVec 8)) : (ZMod 2)[X] :=
  l.foldl (fun p b => p * X ^ 8 + ofWord b) 0

theorem ofBytes_foldl (l : List (BitVec 8)) (p : (ZMod 2)[X]) :
    l.foldl (fun p b => p * X ^ 8 + ofWord b) p = p * X ^ (8 * l.length) + ofBytes l := by
  induction l generalizing p with
  | nil => simp [ofBytes]
  | cons b l ih =>
    rw [ofBytes, List.foldl_cons, List.foldl_cons, ih, ih, List.length_cons, Nat.mul_succ]
    ring

theorem ofBytes_cons (b : BitVec 8) (l : List (BitVec 8)) :
    ofBytes (b :: l) = ofWord b * X ^ (8 * l.length) + ofBytes l := by
  rw [ofBytes, List.foldl_cons, ofBytes_foldl, zero_mul, zero_add]

theorem ofBytes_concat (l : List (BitVec 8)) (b : BitVec 8) :
    ofBytes (l ++ [b]) = ofBytes l * X ^ 8 + ofWord b := by
  rw [ofBytes, List.foldl_append]
  rfl

theorem ofBytes_replicate_append (n : ℕ) (l : List (BitVec 8)) :
    ofBytes (List.replicate n 0 ++ l) = ofBytes l := by
  induction n with
  | zero => rfl
  | succ n ih =>
    have hzero : ofWord (0 : BitVec 8) = 0 := ofWord_zero
    rw [List.replicate_succ, List.cons_append, ofBytes_cons, ih, hzero, zero_mul, zero_add]

end Sfslite.Lib.Gf2Poly
