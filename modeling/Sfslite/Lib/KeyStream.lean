import Mathlib.Data.List.Basic

/-!
Masking with a running stream. The symbol at each place is combined with the next symbol of
a stream, so two ends that start at the same position and mask as many symbols stay in step.
-/

namespace Sfslite.Lib

variable {α : Type*} (op : α → α → α) (ks : ℕ → α)

/-- Mask the symbols of a list with the stream from a position on. -/
def mask : (pos : ℕ) → List α → List α
  | _, [] => []
  | pos, x :: xs => op x (ks pos) :: mask (pos + 1) xs

def streamTake (pos n : ℕ) : List α := (List.range' pos n).map ks

variable {op ks} {pos : ℕ} {xs ys : List α}

@[simp] theorem length_mask : (mask op ks pos xs).length = xs.length := by
  induction xs generalizing pos with
  | nil => rfl
  | cons x xs ih => rw [mask, List.length_cons, ih, List.length_cons]

theorem mask_append :
    mask op ks pos (xs ++ ys) = mask op ks pos xs ++ mask op ks (pos + xs.length) ys := by
  induction xs generalizing pos with
  | nil => rfl
  | cons x xs ih =>
    have hpos : pos + 1 + xs.length = pos + (x :: xs).length := by
      rw [List.length_cons]
      omega
    rw [List.cons_append, mask, ih, hpos, mask, List.cons_append]

theorem mask_mask (hop : ∀ a k, op (op a k) k = a) : mask op ks pos (mask op ks pos xs) = xs := by
  induction xs generalizing pos with
  | nil => rfl
  | cons x xs ih => rw [mask, mask, hop, ih]

end Sfslite.Lib
