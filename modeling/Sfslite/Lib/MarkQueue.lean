import Mathlib.Order.Nat
import Mathlib.Algebra.BigOperators.Group.List.Basic
import Mathlib.Algebra.Ring.Nat

/-!
A queue of elements with marks between them. A mark that is added behind some elements leaves
with the last of them: elements are removed from the front, and every mark that comes to the
front goes.
-/

namespace Sfslite.Lib

inductive Item (α μ : Type*)
  | elem (a : α)
  | mark (m : μ)
deriving DecidableEq, Repr

abbrev MarkQueue (α μ : Type*) := List (Item α μ)

namespace MarkQueue

variable {α μ : Type*}

def count : MarkQueue α μ → ℕ
  | [] => 0
  | .elem _ :: q => count q + 1
  | .mark _ :: q => count q

/-- The marks in order, each with the number of elements in front of it. -/
def marks : MarkQueue α μ → List (ℕ × μ)
  | [] => []
  | .elem _ :: q => (marks q).map fun p => (p.1 + 1, p.2)
  | .mark m :: q => (0, m) :: marks q

def append (q : MarkQueue α μ) (as : List α) : MarkQueue α μ := q ++ as.map .elem

/-- A mark behind no element goes at once. -/
def addMark (q : MarkQueue α μ) (m : μ) : List μ × MarkQueue α μ :=
  if count q = 0 then ([m], q) else ([], q ++ [.mark m])

/-- The marks at the front go. -/
def release : MarkQueue α μ → List μ × MarkQueue α μ
  | [] => ([], [])
  | .elem a :: q => ([], .elem a :: q)
  | .mark m :: q => (m :: (release q).1, (release q).2)

/-- Some elements are removed, and the marks that come to the front go, in order. -/
def remove : ℕ → MarkQueue α μ → Option (List μ × MarkQueue α μ)
  | 0, q => some (release q)
  | _ + 1, [] => none
  | n + 1, .elem _ :: q => remove n q
  | n + 1, .mark m :: q => (remove (n + 1) q).map fun r => (m :: r.1, r.2)

section

variable {q q' : MarkQueue α μ} {as : List α} {m : μ} {n : ℕ}

@[simp] theorem count_append : count (q ++ q') = count q + count q' := by
  induction q with
  | nil => simp [count]
  | cons i q ih =>
    cases i with
    | elem a =>
      rw [List.cons_append, count, ih, count]
      omega
    | mark m => rw [List.cons_append, count, ih, count]

theorem marks_append :
    marks (q ++ q') = marks q ++ (marks q').map fun p => (p.1 + count q, p.2) := by
  induction q with
  | nil => simp [marks, count]
  | cons i q ih =>
    cases i with
    | elem a =>
      rw [List.cons_append, marks, ih, marks, List.map_append, List.map_map, count]
      rfl
    | mark m => rw [List.cons_append, marks, ih, marks, count, List.cons_append]

@[simp] theorem count_elems : count (as.map Item.elem : MarkQueue α μ) = as.length := by
  induction as with
  | nil => rfl
  | cons a as ih => rw [List.map_cons, count, ih, List.length_cons]

@[simp] theorem marks_elems : marks (as.map Item.elem : MarkQueue α μ) = [] := by
  induction as with
  | nil => rfl
  | cons a as ih =>
    rw [List.map_cons, marks, ih]
    rfl

@[simp] theorem count_append_elems : count (append q as) = count q + as.length := by
  rw [append, count_append, count_elems]

@[simp] theorem marks_append_elems : marks (append q as) = marks q := by
  rw [append, marks_append, marks_elems, List.map_nil, List.append_nil]

theorem count_addMark : count (addMark q m).2 = count q := by
  rw [addMark]
  split
  · rfl
  · rw [count_append]
    rfl

theorem marks_addMark (h : count q ≠ 0) : addMark q m = ([], q ++ [.mark m]) ∧
    marks (addMark q m).2 = marks q ++ [(count q, m)] := by
  rw [addMark, if_neg h]
  refine ⟨rfl, ?_⟩
  rw [marks_append]
  simp [marks]

theorem release_spec : (release q).1 = ((marks q).filter fun p => p.1 ≤ 0).map Prod.snd ∧
    count (release q).2 = count q ∧ marks (release q).2 = (marks q).filter fun p => 0 < p.1 := by
  induction q with
  | nil => exact ⟨rfl, rfl, rfl⟩
  | cons i q ih =>
    cases i with
    | elem a =>
      refine ⟨?_, rfl, ?_⟩
      · simp [release, marks, List.filter_map, Function.comp_def]
      · simp [release, marks, List.filter_map, Function.comp_def]
    | mark m =>
      obtain ⟨hgone, hcount, hmarks⟩ := ih
      refine ⟨?_, hcount, ?_⟩
      · simp [release, marks, hgone]
      · simp [release, marks, hmarks]

theorem remove_spec (h : n ≤ count q) : ∃ q',
    remove n q = some (((marks q).filter fun p => p.1 ≤ n).map Prod.snd, q') ∧
      count q' = count q - n ∧
      marks q' = ((marks q).filter fun p => n < p.1).map fun p => (p.1 - n, p.2) := by
  induction q generalizing n with
  | nil =>
    obtain rfl : n = 0 := Nat.le_zero.mp h
    exact ⟨[], rfl, rfl, rfl⟩
  | cons i q ih =>
    cases n with
    | zero =>
      obtain ⟨hgone, hcount, hmarks⟩ := release_spec (q := i :: q)
      refine ⟨(release (i :: q)).2, ?_, hcount, ?_⟩
      · rw [remove, ← hgone]
      · rw [hmarks]
        simp
    | succ n =>
      cases i with
      | elem a =>
        rw [count] at h
        obtain ⟨q', hremove, hcount, hmarks⟩ := ih (n := n) (by omega)
        refine ⟨q', ?_, by rw [hcount, count]; omega, ?_⟩
        · rw [remove, hremove, marks, List.filter_map, List.map_map]
          simp [Function.comp_def]
        · rw [hmarks, marks, List.filter_map, List.map_map]
          simp [Function.comp_def]
      | mark m =>
        obtain ⟨q', hremove, hcount, hmarks⟩ := ih (n := n + 1) h
        refine ⟨q', ?_, hcount, ?_⟩
        · rw [remove, hremove, marks]
          simp
        · rw [hmarks, marks]
          simp

end

end MarkQueue

end Sfslite.Lib
