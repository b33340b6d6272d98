import Mathlib.Data.Nat.ModEq
import Mathlib.Data.Nat.Bitwise
import Mathlib.Tactic.Ring
import Mathlib.Tactic.Linarith

/-!
Montgomery's reduction: numbers in base `B`, a modulus `M`, and a `mi` with
`M * mi + 1 ≡ 0 [MOD B]`. The powers of `B` are divided out one digit at a time.
-/

namespace Sfslite.Lib.Montgomery

variable {B M mi i q u T K R x : ℕ}

/-- With the multiple `u` of the modulus the lowest digit that is left becomes 0. -/
theorem dvd_add_mul (hmi : B ∣ M * mi + 1) (hu : u ≡ q * mi [MOD B]) : B ∣ q + M * u := by
  have hmod : q + M * u ≡ q * (M * mi + 1) [MOD B] := by
    calc q + M * u ≡ q + M * (q * mi) [MOD B] := (hu.mul_left M).add_left q
      _ = q * (M * mi + 1) := by ring
  exact (Nat.modEq_zero_iff_dvd.mp
    (hmod.trans (Nat.modEq_zero_iff_dvd.mpr (Dvd.dvd.mul_left hmi q))))

theorem pow_dvd_step (hB : 0 < B) (hmi : B ∣ M * mi + 1) (hT : B ^ i ∣ T)
    (hu : u ≡ T / B ^ i * mi [MOD B]) : B ^ (i + 1) ∣ T + B ^ i * (M * u) := by
  obtain ⟨q, rfl⟩ := hT
  rw [Nat.mul_div_cancel_left _ (Nat.pow_pos hB)] at hu
  rw [← Nat.mul_add, pow_succ]
  exact Nat.mul_dvd_mul_left _ (dvd_add_mul hmi hu)

theorem add_digit_lt (hK : K < B ^ i) (hu : u < B) : K + B ^ i * u < B ^ (i + 1) := by
  calc K + B ^ i * u < B ^ i * (u + 1) := by
        rw [Nat.mul_succ]
        omega
    _ ≤ B ^ (i + 1) := by
        rw [pow_succ]
        exact Nat.mul_le_mul_left _ hu

def subOnce (M a : ℕ) : ℕ := if M ≤ a then a - M else a

theorem subOnce_spec (hT : T < M * R) (hK : K < R) (hdvd : R ∣ T + M * K) :
    subOnce M ((T + M * K) / R) < M ∧ subOnce M ((T + M * K) / R) * R ≡ T [MOD M] := by
  obtain ⟨a, ha⟩ := hdvd
  have hR : 0 < R := Nat.zero_lt_of_lt hK
  have hlt : R * a < R * (2 * M) := by
    calc R * a = T + M * K := ha.symm
      _ < M * R + M * R := Nat.add_lt_add_of_lt_of_le hT (Nat.mul_le_mul_left M (Nat.le_of_lt hK))
      _ = R * (2 * M) := by ring
  have hbound : a < 2 * M := Nat.lt_of_mul_lt_mul_left hlt
  have hmod : a * R ≡ T [MOD M] := by
    have hmul : M * K ≡ 0 [MOD M] := Nat.modEq_zero_iff_dvd.mpr (Nat.dvd_mul_right M K)
    calc a * R = T + M * K := by rw [ha, Nat.mul_comm]
      _ ≡ T [MOD M] := hmul.add_left T
  rw [ha, Nat.mul_div_cancel_left _ hR, subOnce]
  split
  · rename_i hge
    obtain ⟨e, rfl⟩ := Nat.exists_eq_add_of_le hge
    rw [Nat.add_sub_cancel_left]
    refine ⟨by omega, ?_⟩
    calc e * R ≡ e * R + M * R [MOD M] :=
          ((Nat.modEq_zero_iff_dvd.mpr (Nat.dvd_mul_right M R)).add_left _).symm
      _ = (M + e) * R := by ring
      _ ≡ T [MOD M] := hmod
  · rename_i hlt
    exact ⟨Nat.lt_of_not_le hlt, hmod⟩

theorem product_modEq {y r X Y : ℕ} (hcop : Nat.Coprime M R) (hx : x ≡ X * R [MOD M])
    (hy : y ≡ Y * R [MOD M]) (hr : r * R ≡ x * y [MOD M]) : r ≡ X * Y * R [MOD M] := by
  apply Nat.ModEq.cancel_right_of_coprime hcop
  calc r * R ≡ x * y [MOD M] := hr
    _ ≡ X * R * (Y * R) [MOD M] := hx.mul hy
    _ = X * Y * R * R := by ring

theorem shift_succ (e i : ℕ) : e / 2 ^ i = 2 * (e / 2 ^ (i + 1)) + (e.testBit i).toNat := by
  rw [pow_succ, ← Nat.div_div_eq_div_mul, Nat.testBit_eq_decide_div_mod_eq]
  rcases Nat.mod_two_eq_zero_or_one (e / 2 ^ i) with h | h
  · simp only [h, Nat.zero_ne_one, decide_false, Bool.toNat_false]
    omega
  · simp only [h, decide_true, Bool.toNat_true]
    omega

end Sfslite.Lib.Montgomery
