import Mathlib.Data.Nat.ModEq
import Mathlib.Data.Nat.Bitwise
import Mathlib.Tactic.Ring
import Mathlib.Tactic.Linarith

/-!
Barrett's estimate of a quotient: the dividend is divided by a power near the modulus, multiplied
with a reciprocal that has been computed before, and divided by the rest of the power.
-/

namespace Sfslite.Lib.Barrett

/-- The estimate of `a / M`, where `X * Y` is the power that the reciprocal is of. -/
def estimate (X Y M a : ℕ) : ℕ := a / X * (X * Y / M) / Y

variable {X Y M a : ℕ}

theorem estimate_mul_le (X Y M a : ℕ) : estimate X Y M a * M * Y ≤ a / X * (X * Y / M * M) := by
  have h := Nat.div_mul_le_self (a / X * (X * Y / M)) Y
  calc estimate X Y M a * M * Y
      = a / X * (X * Y / M) / Y * Y * M := by
        unfold estimate
        ring
    _ ≤ a / X * (X * Y / M) * M := Nat.mul_le_mul_right M h
    _ = a / X * (X * Y / M * M) := by ring

theorem estimate_le (hY : 0 < Y) : estimate X Y M a * M ≤ a := by
  apply Nat.le_of_mul_le_mul_right _ hY
  calc estimate X Y M a * M * Y
      ≤ a / X * (X * Y / M * M) := estimate_mul_le X Y M a
    _ ≤ a / X * (X * Y) := Nat.mul_le_mul_left _ (Nat.div_mul_le_self _ _)
    _ = a / X * X * Y := by ring
    _ ≤ a * Y := Nat.mul_le_mul_right Y (Nat.div_mul_le_self a X)

theorem estimate_lt (ha : 0 < a) (hM : ¬ M ∣ X * Y) : estimate X Y M a * M < a := by
  rcases Nat.eq_zero_or_pos (a / X) with hzero | hpos
  · unfold estimate
    rw [hzero, Nat.zero_mul, Nat.zero_div, Nat.zero_mul]
    exact ha
  · have hlt : X * Y / M * M < X * Y := by
      apply Nat.lt_of_le_of_ne (Nat.div_mul_le_self _ _)
      intro heq
      exact hM ⟨X * Y / M, by rw [Nat.mul_comm M, heq]⟩
    apply Nat.lt_of_mul_lt_mul_right (a := Y)
    calc estimate X Y M a * M * Y
        ≤ a / X * (X * Y / M * M) := estimate_mul_le X Y M a
      _ < a / X * (X * Y) := Nat.mul_lt_mul_of_pos_left hlt hpos
      _ = a / X * X * Y := by ring
      _ ≤ a * Y := Nat.mul_le_mul_right Y (Nat.div_mul_le_self a X)

theorem lt_estimate_add_three (hXM : X ≤ M) (hX : 0 < X) (ha : a < X * Y) :
    a < (estimate X Y M a + 3) * M := by
  have hM : 0 < M := Nat.lt_of_lt_of_le hX hXM
  have hY : 0 < Y := by
    apply Nat.pos_of_ne_zero
    rintro rfl
    rw [Nat.mul_zero] at ha
    exact Nat.not_lt_zero _ ha
  obtain ⟨p, hp⟩ : ∃ p, a / X = p := ⟨_, rfl⟩
  obtain ⟨u, hu⟩ : ∃ u, X * Y / M = u := ⟨_, rfl⟩
  obtain ⟨q, hq⟩ : ∃ q, estimate X Y M a = q := ⟨_, rfl⟩
  have hpa : a < (p + 1) * X := by
    rw [← hp, Nat.mul_comm]
    exact Nat.lt_mul_div_succ a hX
  have huN : X * Y < (u + 1) * M := by
    rw [← hu, Nat.mul_comm (X * Y / M + 1)]
    exact Nat.lt_mul_div_succ _ hM
  have hqY : p * u < (q + 1) * Y := by
    have h := Nat.lt_mul_div_succ (a / X * (X * Y / M)) hY
    rw [hp, hu] at h
    rw [← hq, estimate, hp, hu, Nat.mul_comm (p * u / Y + 1)]
    exact h
  have hpY : p < Y := by
    rw [← hp]
    exact Nat.div_lt_of_lt_mul ha
  rw [hq]
  have hround : p * (X * Y) ≤ p * u * M + p * M := by
    calc p * (X * Y) ≤ p * ((u + 1) * M) := Nat.mul_le_mul_left p (Nat.le_of_lt huN)
      _ = p * u * M + p * M := by ring
  have hquot : (p * u + 1) * M ≤ (q + 1) * Y * M := Nat.mul_le_mul_right M hqY
  have hrecip : p * M ≤ Y * M := Nat.mul_le_mul_right M (Nat.le_of_lt hpY)
  have hdiv : a * Y < (p + 1) * X * Y := Nat.mul_lt_mul_of_pos_right hpa hY
  have hXY : X * Y ≤ M * Y := Nat.mul_le_mul_right Y hXM
  apply Nat.lt_of_mul_lt_mul_right (a := Y)
  linarith

end Sfslite.Lib.Barrett
