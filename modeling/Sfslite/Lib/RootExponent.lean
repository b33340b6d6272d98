import Mathlib.NumberTheory.LegendreSymbol.JacobiSymbol

/-!
Square roots modulo two primes by one exponent. With `(p - 1) / 2` and `(q - 1) / 2` odd,
raising a square to `((p - 1) (q - 1) + 4) / 8` gives a root of it modulo both, and the sign
of the root is the Legendre symbol of what was squared.
-/

namespace Sfslite

def rootExponent (p q : ℕ) : ℕ := ((p - 1) * (q - 1) + 4) / 8

theorem rootExponent_comm (p q : ℕ) : rootExponent p q = rootExponent q p := by
  rw [rootExponent, rootExponent, Nat.mul_comm]

section

variable {p q : ℕ}

/-- The primes are 3 and 7 modulo 8, in either order. -/
def WilliamsPair (p q : ℕ) : Prop := p % 8 = 3 ∧ q % 8 = 7 ∨ p % 8 = 7 ∧ q % 8 = 3

instance : Decidable (WilliamsPair p q) := inferInstanceAs (Decidable (_ ∨ _))

theorem WilliamsPair.symm (h : WilliamsPair p q) : WilliamsPair q p := by
  unfold WilliamsPair at *
  omega

theorem WilliamsPair.mul_mod_eight (h : WilliamsPair p q) : p * q % 8 = 5 := by
  rw [Nat.mul_mod]
  rcases h with ⟨hp, hq⟩ | ⟨hp, hq⟩ <;> rw [hp, hq]

theorem WilliamsPair.odd_half (h : WilliamsPair p q) : Odd (q / 2) := by
  unfold WilliamsPair at h
  rw [Nat.odd_iff]
  omega

theorem WilliamsPair.two_mul_rootExponent (h : WilliamsPair p q) :
    2 * rootExponent p q = p / 2 * (q / 2) + 1 := by
  have hhalf : (p / 2) * (q / 2) % 4 = 3 := by
    rw [Nat.mul_mod]
    rcases h with ⟨hp, hq⟩ | ⟨hp, hq⟩
    · rw [show p / 2 % 4 = 1 by omega, show q / 2 % 4 = 3 by omega]
    · rw [show p / 2 % 4 = 3 by omega, show q / 2 % 4 = 1 by omega]
  have hp : p - 1 = 2 * (p / 2) := by
    unfold WilliamsPair at h
    omega
  have hq : q - 1 = 2 * (q / 2) := by
    unfold WilliamsPair at h
    omega
  have hprod : (p - 1) * (q - 1) = 4 * (p / 2 * (q / 2)) := by
    rw [hp, hq]
    ring
  rw [rootExponent, hprod]
  omega

variable [Fact p.Prime]

theorem pow_mod_pred {x : ZMod p} (hx : x ≠ 0) (e : ℕ) : x ^ (e % (p - 1)) = x ^ e :=
  (pow_eq_pow_mod e (ZMod.pow_card_sub_one_eq_one hx)).symm

theorem WilliamsPair.pow_two_mul (h : WilliamsPair p q) {x : ℤ} (hx : (x : ZMod p) ≠ 0) :
    (x : ZMod p) ^ (2 * rootExponent p q) = (legendreSym p x : ZMod p) * x := by
  have hodd := h.odd_half
  rw [h.two_mul_rootExponent, pow_succ, pow_mul, ← legendreSym.eq_pow]
  rcases legendreSym.eq_one_or_neg_one p hx with hsym | hsym
  · rw [hsym, Int.cast_one, one_pow]
  · rw [hsym, Int.cast_neg, Int.cast_one, hodd.neg_one_pow]

theorem WilliamsPair.pow_four_mul (h : WilliamsPair p q) {x : ZMod p} (hx : x ≠ 0) :
    (x ^ 4) ^ rootExponent p q = x ^ 2 := by
  have hpred : p - 1 = 2 * (p / 2) := by
    unfold WilliamsPair at h
    omega
  have hexp : 4 * rootExponent p q = (p - 1) * (q / 2) + 2 := by
    have := h.two_mul_rootExponent
    rw [hpred, Nat.mul_assoc]
    omega
  rw [← pow_mul, hexp, pow_add, pow_mul, ZMod.pow_card_sub_one_eq_one hx, one_pow, one_mul]

theorem WilliamsPair.unblind (h : WilliamsPair p q) {r x c : ZMod p} (hr : r ≠ 0) (hx : x ≠ 0)
    (hc : r * x ^ 4 = c) : r ^ (rootExponent p q % (p - 1)) * x ^ 2 = c ^ rootExponent p q := by
  rw [pow_mod_pred hr, ← h.pow_four_mul hx, ← mul_pow, hc]

end

theorem legendreSym_eq_of_jacobiSym {p q : ℕ} [Fact p.Prime] [Fact q.Prime] {x : ℤ}
    (h : jacobiSym x (p * q) = 1) : legendreSym p x = legendreSym q x := by
  have hp : NeZero p := ⟨(Fact.out : p.Prime).ne_zero⟩
  have hq : NeZero q := ⟨(Fact.out : q.Prime).ne_zero⟩
  rw [jacobiSym.mul_right, ← jacobiSym.legendreSym.to_jacobiSym,
    ← jacobiSym.legendreSym.to_jacobiSym] at h
  rcases Int.eq_one_or_neg_one_of_mul_eq_one' h with ⟨hp, hq⟩ | ⟨hp, hq⟩ <;> rw [hp, hq]

theorem WilliamsPair.jacobiSym_two {p q : ℕ} (h : WilliamsPair p q) : jacobiSym 2 (p * q) = -1 := by
  have hmod := h.mul_mod_eight
  have hodd : Odd (p * q) := by
    rw [Nat.odd_iff]
    omega
  have hcast : ((p * q : ℕ) : ZMod 8) = (5 : ℕ) := by
    rw [ZMod.natCast_eq_natCast_iff]
    exact hmod
  rw [jacobiSym.at_two hodd, hcast]
  rfl

end Sfslite
