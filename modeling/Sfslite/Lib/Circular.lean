import Mathlib.Data.List.Basic
import Mathlib.Data.Nat.ModEq

/-!
Windows of a circular buffer: the elements from some place on, where the index wraps at the
length of the buffer.
-/

namespace Sfslite.Lib

variable {β : Type*} {buf buf' : ℕ → β} {n k a b len : ℕ}

def segment (buf : ℕ → β) (k len : ℕ) : List β := (List.range len).map fun i => buf (k + i)

/-- Some elements of a buffer of `n` elements, in order, from the place `k` on. -/
def window (buf : ℕ → β) (n k len : ℕ) : List β :=
  (List.range len).map fun i => buf ((k + i) % n)

@[simp] theorem length_segment : (segment buf k len).length = len := by simp [segment]

@[simp] theorem length_window : (window buf n k len).length = len := by simp [window]

@[simp] theorem segment_zero : segment buf k 0 = [] := rfl

@[simp] theorem window_zero : window buf n k 0 = [] := rfl

theorem getElem?_window {i : ℕ} (h : i < len) :
    (window buf n k len)[i]? = some (buf ((k + i) % n)) := by
  simp [window, h]

theorem segment_add : segment buf k (a + b) = segment buf k a ++ segment buf (k + a) b := by
  simp [segment, List.range_add, Nat.add_assoc, Function.comp_def]

theorem window_add : window buf n k (a + b) = window buf n k a ++ window buf n (k + a) b := by
  simp [window, List.range_add, Nat.add_assoc, Function.comp_def]

theorem window_mod : window buf n (k % n) len = window buf n k len := by
  simp [window]

theorem window_add_length : window buf n (k + n) len = window buf n k len := by
  rw [← window_mod, Nat.add_mod_right, window_mod]

theorem window_eq_segment (h : k + len ≤ n) : window buf n k len = segment buf k len := by
  apply List.map_congr_left
  intro i hi
  rw [List.mem_range] at hi
  rw [Nat.mod_eq_of_lt (by omega)]

theorem window_eq_segments (hk : k ≤ n) (h : n ≤ k + len) (hlen : len ≤ n) :
    window buf n k len = segment buf k (n - k) ++ segment buf 0 (k + len - n) := by
  have hsplit : len = (n - k) + (k + len - n) := by omega
  conv_lhs => rw [hsplit]
  rw [window_add, window_eq_segment (by omega)]
  have hback : k + (n - k) = 0 + n := by omega
  rw [hback, window_add_length, window_eq_segment (by omega)]

theorem window_congr (h : ∀ i < len, buf ((k + i) % n) = buf' ((k + i) % n)) :
    window buf n k len = window buf' n k len := by
  apply List.map_congr_left
  intro i hi
  exact h i (List.mem_range.mp hi)

theorem drop_window : (window buf n k (a + b)).drop a = window buf n (k + a) b := by
  rw [window_add, List.drop_left' length_window]

theorem take_window : (window buf n k (a + b)).take a = window buf n k a := by
  rw [window_add, List.take_left' length_window]

def store (buf : ℕ → β) (k : ℕ) (d : List β) : ℕ → β :=
  fun j => if k ≤ j then (d[j - k]?).getD (buf j) else buf j

theorem store_of_lt {d : List β} {j : ℕ} (h : j < k ∨ k + d.length ≤ j) :
    store buf k d j = buf j := by
  unfold store
  split
  · rw [List.getElem?_eq_none (by omega), Option.getD_none]
  · rfl

end Sfslite.Lib
