import Mathlib.FieldTheory.Finite.Basic

/-!
Two criteria for primes: a case of Pocklington's, and the square roots of 1 that the test of
Miller and Rabin looks for.
-/

namespace Sfslite.Lib.PrimeTests

variable {n p q y : ℕ}

/-- The powers of 2 modulo a prime repeat after `p - 1` steps, and after any other exponent
that gives 1. -/
theorem two_pow_gcd (hp : p.Prime) (hp2 : p ≠ 2) {k : ℕ} (hk : 2 ^ k ≡ 1 [MOD p]) :
    (2 : ZMod p) ^ Nat.gcd k (p - 1) = 1 := by
  have hfact : Fact p.Prime := ⟨hp⟩
  have htwo : (2 : ZMod p) ≠ 0 := by
    intro hzero
    have hdvd : p ∣ 2 := (ZMod.natCast_eq_zero_iff 2 p).mp (by exact_mod_cast hzero)
    exact hp2 ((Nat.prime_dvd_prime_iff_eq hp Nat.prime_two).mp hdvd)
  have hk' : (2 : ZMod p) ^ k = 1 := by
    have hcast := (ZMod.natCast_eq_natCast_iff (2 ^ k) 1 p).mpr hk
    exact_mod_cast hcast
  exact pow_gcd_eq_one.mpr ⟨hk', ZMod.pow_card_sub_one_eq_one htwo⟩

/-- A prime factor `p` of `n` other than `n` is below `q`, so `p - 1` has at most the factor 2 in
common with `n - 1`, and 4 is 1 modulo `p`. -/
theorem pocklington_two (hq : q.Prime) (hn : n = 2 * q + 1) (h3 : ¬ 3 ∣ n)
    (hfermat : 2 ^ (n - 1) ≡ 1 [MOD n]) : n.Prime := by
  have hq2 := hq.two_le
  have hne : n ≠ 1 := by omega
  have hp := Nat.minFac_prime hne
  have hdvd := Nat.minFac_dvd n
  by_contra hcomp
  have hsq := Nat.minFac_sq_le_self (by omega) hcomp
  generalize n.minFac = p at hp hdvd hsq
  have hp2 : p ≠ 2 := by
    rintro rfl
    omega
  have hp3 : p ≠ 3 := by
    rintro rfl
    exact h3 hdvd
  have hp4 : p ≠ 4 := by
    rintro rfl
    exact absurd hp (by decide)
  have hp5 : 5 ≤ p := by
    have hle := hp.two_le
    omega
  have hlt : p - 1 < q := by
    have hmul := Nat.mul_le_mul_right p hp5
    rw [pow_two] at hsq
    omega
  have hgcd : Nat.gcd (n - 1) (p - 1) ∣ 2 := by
    have hcop : Nat.Coprime q (p - 1) := Nat.coprime_of_lt_prime (by omega) hlt hq
    rw [hn, Nat.add_sub_cancel, hcop.gcd_mul_right_cancel 2]
    exact Nat.gcd_dvd_left _ _
  have hone := two_pow_gcd hp hp2 (hfermat.of_dvd hdvd)
  have hfour : (2 : ZMod p) ^ 2 = 1 := by
    obtain ⟨c, hc⟩ := hgcd
    rw [hc, pow_mul, hone, one_pow]
  have h3p : p ∣ 3 := by
    apply (ZMod.natCast_eq_zero_iff 3 p).mp
    linear_combination hfour
  exact hp3 ((Nat.prime_dvd_prime_iff_eq hp Nat.prime_three).mp h3p)

theorem eq_of_sq_modEq_one (hp : p.Prime) (hy : y < p) (hsq : y * y ≡ 1 [MOD p]) :
    y = 1 ∨ y = p - 1 := by
  have hfact : Fact p.Prime := ⟨hp⟩
  have hsq' : (y : ZMod p) * y = 1 := by
    have hcast := (ZMod.natCast_eq_natCast_iff (y * y) 1 p).mpr hsq
    exact_mod_cast hcast
  rcases mul_self_eq_one_iff.mp hsq' with hone | hneg
  · left
    have hmod : y ≡ 1 [MOD p] := (ZMod.natCast_eq_natCast_iff y 1 p).mp (by exact_mod_cast hone)
    exact Nat.ModEq.eq_of_lt_of_lt hmod hy hp.one_lt
  · right
    have hsucc : ((y + 1 : ℕ) : ZMod p) = 0 := by
      rw [Nat.cast_add, Nat.cast_one, hneg, neg_add_cancel]
    have hdvd := (ZMod.natCast_eq_zero_iff (y + 1) p).mp hsucc
    have hle := Nat.le_of_dvd (Nat.succ_pos y) hdvd
    omega

end Sfslite.Lib.PrimeTests
