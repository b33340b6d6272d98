import Mathlib.Order.Nat
import Mathlib.Algebra.BigOperators.Group.List.Basic
import Mathlib.Algebra.Ring.Nat

/-!
Marks in a stream. A stream is made of items of some sizes, and some of the items are marks.
A mark is passed when the last unit of its item is.
-/

namespace Sfslite.Lib

variable {ι : Type*} {size : ι → ℕ} {flag : ι → Bool} {is js : List ι} {i : ι} {n n' : ℕ}

/-- How many marks the first `n` units of a stream have whole. -/
def marks (size : ι → ℕ) (flag : ι → Bool) : List ι → ℕ → ℕ
  | [], _ => 0
  | i :: is, n =>
    if size i ≤ n then (if flag i then 1 else 0) + marks size flag is (n - size i) else 0

theorem marks_mono (h : n ≤ n') : marks size flag is n ≤ marks size flag is n' := by
  induction is generalizing n n' with
  | nil => exact Nat.le_refl _
  | cons i is ih =>
    have hrest := ih (Nat.sub_le_sub_right h (size i))
    rw [marks, marks]
    by_cases hi : size i ≤ n
    · have hi' : size i ≤ n' := by omega
      rw [if_pos hi, if_pos hi']
      exact Nat.add_le_add_left hrest _
    · rw [if_neg hi]
      exact Nat.zero_le _

theorem marks_all (h : (is.map size).sum ≤ n) : marks size flag is n = is.countP flag := by
  induction is generalizing n with
  | nil => rfl
  | cons i is ih =>
    rw [List.map_cons, List.sum_cons] at h
    rw [marks, if_pos (by omega), ih (by omega), List.countP_cons, Nat.add_comm]

theorem marks_le : marks size flag is n ≤ is.countP flag := by
  rw [← marks_all (Nat.le_max_right n (is.map size).sum)]
  exact marks_mono (Nat.le_max_left _ _)

theorem marks_append (h : (is.map size).sum ≤ n) :
    marks size flag (is ++ js) n =
      is.countP flag + marks size flag js (n - (is.map size).sum) := by
  induction is generalizing n with
  | nil => simp
  | cons i is ih =>
    rw [List.map_cons, List.sum_cons] at h
    rw [List.cons_append, marks, if_pos (by omega), ih (by omega), List.countP_cons,
      List.map_cons, List.sum_cons, Nat.sub_sub]
    omega

theorem marks_concat : marks size flag (is ++ [i]) n =
    marks size flag is n + if (is.map size).sum + size i ≤ n ∧ flag i = true then 1 else 0 := by
  induction is generalizing n with
  | nil =>
    simp only [List.nil_append, marks, List.map_nil, List.sum_nil, Nat.zero_add, Nat.add_zero]
    by_cases hn : size i ≤ n <;> simp [hn]
  | cons j is ih =>
    rw [List.cons_append, marks, ih, marks, List.map_cons, List.sum_cons]
    by_cases hj : size j ≤ n
    · rw [if_pos hj, if_pos hj, Nat.add_assoc]
      congr 2
      have hiff : (is.map size).sum + size i ≤ n - size j ↔
          size j + (is.map size).sum + size i ≤ n := by omega
      simp only [hiff]
    · rw [if_neg hj, if_neg hj, if_neg (by omega)]

theorem countP_shift (k : ℕ) (ends : List ℕ) :
    ends.countP (· ≤ k) + ((ends.filter (k < ·)).map (· - k)).countP (· ≤ n) =
      ends.countP (· ≤ k + n) := by
  induction ends with
  | nil => rfl
  | cons e ends ih =>
    by_cases hk : e ≤ k
    · have hn : e ≤ k + n := by omega
      have hnot : ¬ k < e := by omega
      simp only [List.countP_cons, List.filter_cons, hk, hn, hnot, decide_true, decide_false,
        if_true, Bool.false_eq_true, if_false]
      omega
    · have hlt : k < e := by omega
      have hiff : e - k ≤ n ↔ e ≤ k + n := by omega
      simp only [List.countP_cons, List.filter_cons, hk, hlt, decide_true, decide_false,
        if_true, Bool.false_eq_true, if_false, List.map_cons, hiff]
      omega

theorem length_filter_lt (k : ℕ) (ends : List ℕ) :
    ends.countP (· ≤ k) + (ends.filter (k < ·)).length = ends.length := by
  induction ends with
  | nil => rfl
  | cons e ends ih =>
    by_cases hk : e ≤ k
    · have hnot : ¬ k < e := by omega
      simp only [List.countP_cons, List.filter_cons, hk, hnot, decide_true, decide_false,
        if_true, Bool.false_eq_true, if_false, List.length_cons]
      omega
    · have hlt : k < e := by omega
      simp only [List.countP_cons, List.filter_cons, hk, hlt, decide_true, decide_false,
        if_true, Bool.false_eq_true, if_false, List.length_cons]
      omega

theorem countP_le_one {k : ℕ} {ends : List ℕ} (hsorted : ends.Pairwise (· < ·))
    (hk : ∀ e ∈ ends, k ≤ e) : ends.countP (· ≤ k) ≤ 1 := by
  cases hsorted with
  | nil => exact Nat.zero_le _
  | @cons e ends hlt _ =>
    have hrest : ends.countP (· ≤ k) = 0 := by
      rw [List.countP_eq_zero]
      intro e' he'
      have h₁ := hlt e' he'
      have h₂ := hk e (List.mem_cons_self ..)
      simp
      omega
    rw [List.countP_cons, hrest]
    split <;> omega

end Sfslite.Lib
