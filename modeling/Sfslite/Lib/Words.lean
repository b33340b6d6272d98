import Mathlib.Data.List.DropRight
import Mathlib.Data.Nat.ModEq
import Mathlib.Tactic.Ring
import Mathlib.Tactic.Positivity

/-!
Numbers as words of one width, the least significant word first.
-/

namespace Sfslite.Lib.Words

variable {w : ℕ}

def val : List (BitVec w) → ℕ
  | [] => 0
  | v :: vs => v.toNat + 2 ^ w * val vs

@[simp] theorem val_nil : val ([] : List (BitVec w)) = 0 := rfl

@[simp] theorem val_cons (v : BitVec w) (vs : List (BitVec w)) :
    val (v :: vs) = v.toNat + 2 ^ w * val vs := rfl

theorem val_append (vs us : List (BitVec w)) :
    val (vs ++ us) = val vs + (2 ^ w) ^ vs.length * val us := by
  induction vs with
  | nil => simp
  | cons v vs ih =>
    rw [List.cons_append, val_cons, val_cons, ih, List.length_cons, pow_succ]
    ring

theorem val_lt (vs : List (BitVec w)) : val vs < (2 ^ w) ^ vs.length := by
  induction vs with
  | nil => exact Nat.one_pos
  | cons v vs ih =>
    have hv : v.toNat < 2 ^ w := v.isLt
    rw [val_cons, List.length_cons, pow_succ']
    calc v.toNat + 2 ^ w * val vs
        < 2 ^ w + 2 ^ w * val vs := by omega
      _ = 2 ^ w * (val vs + 1) := by ring
      _ ≤ 2 ^ w * (2 ^ w) ^ vs.length := Nat.mul_le_mul_left _ ih

theorem val_take (vs : List (BitVec w)) (k : ℕ) : val (vs.take k) = val vs % (2 ^ w) ^ k := by
  by_cases hk : k ≤ vs.length
  · have hsplit := val_append (vs.take k) (vs.drop k)
    have hlt := val_lt (vs.take k)
    rw [List.take_append_drop, List.length_take_of_le hk] at hsplit
    rw [List.length_take_of_le hk] at hlt
    rw [hsplit, Nat.add_mul_mod_self_left, Nat.mod_eq_of_lt hlt]
  · have hle : (2 ^ w) ^ vs.length ≤ (2 ^ w) ^ k :=
      Nat.pow_le_pow_right (Nat.two_pow_pos w) (by omega)
    rw [List.take_of_length_le (by omega), Nat.mod_eq_of_lt (Nat.lt_of_lt_of_le (val_lt vs) hle)]

@[simp] theorem val_replicate_zero (k : ℕ) : val (List.replicate k 0#w) = 0 := by
  induction k with
  | zero => rfl
  | succ k ih => rw [List.replicate_succ, val_cons, ih, BitVec.toNat_zero, Nat.mul_zero]

theorem val_map_not (vs : List (BitVec w)) :
    val vs + val (vs.map (~~~·)) + 1 = (2 ^ w) ^ vs.length := by
  induction vs with
  | nil => rfl
  | cons v vs ih =>
    have hnot : (~~~v).toNat = 2 ^ w - 1 - v.toNat := BitVec.toNat_not
    have hv : v.toNat < 2 ^ w := v.isLt
    have hword : v.toNat + (~~~v).toNat + 1 = 2 ^ w := by omega
    rw [List.map_cons, val_cons, val_cons, List.length_cons, pow_succ', ← ih]
    calc v.toNat + 2 ^ w * val vs + ((~~~v).toNat + 2 ^ w * val (vs.map (~~~·))) + 1
        = v.toNat + (~~~v).toNat + 1 + 2 ^ w * (val vs + val (vs.map (~~~·))) := by ring
      _ = 2 ^ w + 2 ^ w * (val vs + val (vs.map (~~~·))) := by rw [hword]
      _ = 2 ^ w * (val vs + val (vs.map (~~~·)) + 1) := by ring

theorem val_rdropWhile (vs : List (BitVec w)) : val (vs.rdropWhile (· == 0#w)) = val vs := by
  induction vs using List.reverseRecOn with
  | nil => rfl
  | append_singleton vs v ih =>
    rw [List.rdropWhile_concat]
    split
    · rename_i hv
      rw [beq_iff_eq] at hv
      rw [ih, val_append, hv]
      simp
    · rfl

theorem getLast?_rdropWhile (vs : List (BitVec w)) :
    (vs.rdropWhile (· == 0#w)).getLast? ≠ some 0#w := by
  intro h
  obtain ⟨init, hinit⟩ := List.getLast?_eq_some_iff.mp h
  have hne : vs.rdropWhile (· == 0#w) ≠ [] := by simp [hinit]
  have hlast := List.rdropWhile_last_not (· == 0#w) vs hne
  simp [hinit] at hlast

theorem val_inj {vs us : List (BitVec w)} (hlen : vs.length = us.length) (h : val vs = val us) :
    vs = us := by
  induction vs generalizing us with
  | nil => exact (List.length_eq_zero_iff.mp hlen.symm).symm
  | cons v vs ih =>
    cases us with
    | nil => exact absurd hlen (Nat.succ_ne_zero _)
    | cons u us =>
      rw [val_cons, val_cons] at h
      have hpos := Nat.two_pow_pos w
      have hv := congrArg (· % 2 ^ w) h
      have hvs := congrArg (· / 2 ^ w) h
      simp only [Nat.add_mul_mod_self_left, Nat.mod_eq_of_lt v.isLt,
        Nat.mod_eq_of_lt u.isLt] at hv
      simp only [Nat.add_mul_div_left _ _ hpos, Nat.div_eq_of_lt v.isLt,
        Nat.div_eq_of_lt u.isLt, Nat.zero_add] at hvs
      rw [BitVec.eq_of_toNat_eq hv, ih (Nat.succ.inj hlen) hvs]

theorem pow_le_val {vs : List (BitVec w)} {v : BitVec w} (hlast : vs.getLast? = some v)
    (hv : v ≠ 0#w) : (2 ^ w) ^ (vs.length - 1) * v.toNat ≤ val vs ∧ 0 < v.toNat := by
  obtain ⟨init, rfl⟩ : ∃ init, vs = init ++ [v] := by
    rw [List.getLast?_eq_some_iff] at hlast
    exact hlast
  have hpos : 0 < v.toNat := by
    apply Nat.pos_of_ne_zero
    intro hzero
    exact hv (BitVec.eq_of_toNat_eq (hzero.trans BitVec.toNat_zero.symm))
  refine ⟨?_, hpos⟩
  rw [val_append, List.length_append, List.length_singleton, Nat.add_sub_cancel, val_cons, val_nil,
    Nat.mul_zero, Nat.add_zero]
  exact Nat.le_add_left _ _

theorem val_inj_of_top {vs us : List (BitVec w)} (htop : vs.getLast? ≠ some 0#w)
    (htop' : us.getLast? ≠ some 0#w) (h : val vs = val us) : vs = us := by
  have hlen : ∀ {vs us : List (BitVec w)}, vs.getLast? ≠ some 0#w → val vs = val us →
      vs.length ≤ us.length := by
    intro vs us htop h
    cases hlast : vs.getLast? with
    | none =>
      rw [List.getLast?_eq_none_iff.mp hlast]
      exact Nat.zero_le _
    | some v =>
      have hv : v ≠ 0#w := fun hzero => htop (hlast.trans (congrArg some hzero))
      obtain ⟨hle, hpos⟩ := pow_le_val hlast hv
      by_contra hlt
      have hpow : (2 ^ w) ^ us.length ≤ (2 ^ w) ^ (vs.length - 1) :=
        Nat.pow_le_pow_right (Nat.two_pow_pos w) (by omega)
      have hmul := Nat.le_mul_of_pos_right ((2 ^ w) ^ (vs.length - 1)) hpos
      have hus := val_lt us
      omega
  exact val_inj (Nat.le_antisymm (hlen htop h) (hlen htop' h.symm)) h

/-- The low `k` words. -/
def ofNat : ℕ → ℕ → List (BitVec w)
  | 0, _ => []
  | k + 1, m => BitVec.ofNat w m :: ofNat k (m / 2 ^ w)

@[simp] theorem length_ofNat (k m : ℕ) : (ofNat k m : List (BitVec w)).length = k := by
  induction k generalizing m with
  | zero => rfl
  | succ k ih => rw [ofNat, List.length_cons, ih]

theorem val_ofNat (k m : ℕ) : val (ofNat k m : List (BitVec w)) = m % (2 ^ w) ^ k := by
  induction k generalizing m with
  | zero => rw [ofNat, val_nil, pow_zero, Nat.mod_one]
  | succ k ih => rw [ofNat, val_cons, ih, BitVec.toNat_ofNat, pow_succ', Nat.mod_mul]

theorem ofNat_val (vs : List (BitVec w)) : ofNat vs.length (val vs) = vs := by
  apply val_inj (length_ofNat _ _)
  rw [val_ofNat, Nat.mod_eq_of_lt (val_lt vs)]

end Sfslite.Lib.Words
