import Sfslite.Lib.Words

/-!
Words with a borrow or a carry that runs through them, word by word operations, words written in
the midst of others, and the square of a number.
-/

namespace Sfslite.Lib.Words

variable {w : ℕ}

theorem val_mod (v : BitVec w) (vs : List (BitVec w)) : val (v :: vs) % 2 ^ w = v.toNat := by
  rw [val_cons, Nat.add_mul_mod_self_left, Nat.mod_eq_of_lt v.isLt]

/-- One is taken from the words where there is a borrow. -/
def dec : Bool → List (BitVec w) → List (BitVec w)
  | false, vs => vs
  | true, [] => []
  | true, v :: vs => (v - 1#w) :: dec (v == 0#w) vs

/-- One is added to the words, with the carry out of them. -/
def inc : List (BitVec w) → List (BitVec w) × Bool
  | [] => ([], true)
  | v :: vs => if v + 1#w = 0#w then (0#w :: (inc vs).1, (inc vs).2) else ((v + 1#w) :: vs, false)

@[simp] theorem length_inc (vs : List (BitVec w)) : (inc vs).1.length = vs.length := by
  induction vs with
  | nil => rfl
  | cons v vs ih =>
    rw [inc]
    split
    · rw [List.length_cons, ih, List.length_cons]
    · rfl

theorem val_inc (vs : List (BitVec w)) :
    val (inc vs).1 + (2 ^ w) ^ vs.length * (inc vs).2.toNat = val vs + 1 := by
  induction vs with
  | nil => rfl
  | cons v vs ih =>
    have hlt := v.isLt
    have hsum : (v + 1#w).toNat = (v.toNat + 1) % 2 ^ w := by
      rw [BitVec.toNat_add, BitVec.toNat_ofNat, Nat.add_mod_mod]
    rw [inc]
    split
    · rename_i hzero
      have hfull : v.toNat + 1 = 2 ^ w := by
        rw [hzero, BitVec.toNat_zero] at hsum
        by_contra hne
        rw [Nat.mod_eq_of_lt (by omega)] at hsum
        omega
      rw [val_cons, BitVec.toNat_zero, Nat.zero_add, List.length_cons, pow_succ', Nat.mul_assoc,
        ← Nat.mul_add, ih, val_cons, Nat.mul_succ]
      omega
    · rename_i hne
      have hnofull : v.toNat + 1 ≠ 2 ^ w := by
        intro hfull
        apply hne
        apply BitVec.eq_of_toNat_eq
        rw [hsum, hfull, Nat.mod_self, BitVec.toNat_zero]
      rw [Nat.mod_eq_of_lt (by omega)] at hsum
      rw [val_cons, val_cons, hsum, Bool.toNat_false, Nat.mul_zero]
      omega

/-- One behind the last word that is not zero, in words that start at place `i`, or `k`. -/
def lastUsed : ℕ → ℕ → List (BitVec w) → ℕ
  | _, k, [] => k
  | i, k, v :: vs => lastUsed (i + 1) (if v ≠ 0#w then i + 1 else k) vs

theorem lastUsed_append (i k : ℕ) (vs us : List (BitVec w)) :
    lastUsed i k (vs ++ us) = lastUsed (i + vs.length) (lastUsed i k vs) us := by
  induction vs generalizing i k with
  | nil => rfl
  | cons v vs ih =>
    rw [List.cons_append, lastUsed, ih, lastUsed, List.length_cons]
    congr 1
    omega

theorem lastUsed_eq (vs : List (BitVec w)) :
    lastUsed 0 0 vs = (vs.rdropWhile (· == 0#w)).length := by
  induction vs using List.reverseRecOn with
  | nil => rfl
  | append_singleton vs v ih =>
    rw [lastUsed_append, ih, List.rdropWhile_concat, Nat.zero_add]
    unfold lastUsed lastUsed
    by_cases hv : v = 0#w
    · simp [hv]
    · simp [hv]

theorem take_lastUsed (vs : List (BitVec w)) :
    vs.take (lastUsed 0 0 vs) = vs.rdropWhile (· == 0#w) := by
  rw [lastUsed_eq]
  exact (List.prefix_iff_eq_take.mp (List.rdropWhile_prefix _ _)).symm

theorem lastUsed_le (vs : List (BitVec w)) : lastUsed 0 0 vs ≤ vs.length := by
  rw [lastUsed_eq]
  exact (List.rdropWhile_prefix _ _).length_le

theorem lastUsed_concat (vs : List (BitVec w)) {v : BitVec w} (hv : v ≠ 0#w) :
    lastUsed 0 0 (vs ++ [v]) = (vs ++ [v]).length := by
  rw [lastUsed_append]
  simp [lastUsed, hv]

/-- The words `out` in place of as many from place `i` on. -/
def splice (vs : List (BitVec w)) (i : ℕ) (out : List (BitVec w)) : List (BitVec w) :=
  vs.take i ++ (out ++ vs.drop (i + out.length))

theorem exists_split {vs : List (BitVec w)} {i n : ℕ} (h : i + n ≤ vs.length) :
    ∃ lo mid hi, vs = lo ++ (mid ++ hi) ∧ lo.length = i ∧ mid.length = n := by
  refine ⟨vs.take i, (vs.drop i).take n, (vs.drop i).drop n, ?_, ?_, ?_⟩
  · rw [List.take_append_drop, List.take_append_drop]
  · exact List.length_take_of_le (by omega)
  · rw [List.length_take, List.length_drop]
    omega

theorem take_drop_split (lo mid hi : List (BitVec w)) :
    ((lo ++ (mid ++ hi)).drop lo.length).take mid.length = mid := by
  rw [List.drop_left, List.take_left]

theorem splice_split {mid out : List (BitVec w)} (lo hi : List (BitVec w))
    (hlen : out.length = mid.length) :
    splice (lo ++ (mid ++ hi)) lo.length out = lo ++ (out ++ hi) := by
  rw [splice, List.take_left, ← List.drop_drop, List.drop_left, hlen, List.drop_left]

theorem val_split (lo mid hi : List (BitVec w)) :
    val (lo ++ (mid ++ hi)) =
      val lo + (2 ^ w) ^ lo.length * (val mid + (2 ^ w) ^ mid.length * val hi) := by
  rw [val_append, val_append]

theorem toNat_getElem? {vs : List (BitVec w)} {i : ℕ} {v : BitVec w} (h : vs[i]? = some v) :
    v.toNat = val vs / (2 ^ w) ^ i % 2 ^ w := by
  obtain ⟨hi, rfl⟩ := List.getElem?_eq_some_iff.mp h
  have hsplit : vs = vs.take i ++ vs[i] :: vs.drop (i + 1) := by
    rw [← List.drop_eq_getElem_cons hi, List.take_append_drop]
  have hlt := val_lt (vs.take i)
  have hval := congrArg val hsplit
  rw [val_append, List.length_take_of_le (Nat.le_of_lt hi)] at hval
  rw [List.length_take_of_le (Nat.le_of_lt hi)] at hlt
  rw [hval, Nat.add_mul_div_left _ _ (Nat.pow_pos (Nat.two_pow_pos w)), Nat.div_eq_of_lt hlt,
    Nat.zero_add, val_mod]

theorem toNat_getD (vs : List (BitVec w)) (i : ℕ) :
    (vs[i]?.getD 0#w).toNat = val vs / (2 ^ w) ^ i % 2 ^ w := by
  cases hv : vs[i]? with
  | some v => exact toNat_getElem? hv
  | none =>
    have hlen := List.getElem?_eq_none_iff.mp hv
    have hlt : val vs < (2 ^ w) ^ i :=
      Nat.lt_of_lt_of_le (val_lt vs) (Nat.pow_le_pow_right (Nat.two_pow_pos w) hlen)
    rw [Option.getD_none, BitVec.toNat_zero, Nat.div_eq_of_lt hlt, Nat.zero_mod]

def offDiag : List (BitVec w) → ℕ
  | [] => 0
  | v :: vs => 2 ^ w * (val vs * v.toNat) + (2 ^ w) ^ 2 * offDiag vs

def diag : List (BitVec w) → ℕ
  | [] => 0
  | v :: vs => v.toNat * v.toNat + (2 ^ w) ^ 2 * diag vs

theorem two_mul_offDiag_add_diag (vs : List (BitVec w)) :
    2 * offDiag vs + diag vs = val vs * val vs := by
  induction vs with
  | nil => rfl
  | cons v vs ih =>
    calc 2 * offDiag (v :: vs) + diag (v :: vs)
        = v.toNat * v.toNat + 2 * (2 ^ w * (val vs * v.toNat)) +
            (2 ^ w) ^ 2 * (2 * offDiag vs + diag vs) := by
          rw [offDiag, diag]
          ring
      _ = val (v :: vs) * val (v :: vs) := by
          rw [ih, val_cons]
          ring

end Sfslite.Lib.Words
