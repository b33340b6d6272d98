import Mathlib.Data.List.Basic
import Mathlib.Algebra.Order.Ring.Nat

/-!
Streams of frames. The code of a frame may depend on a state that goes from frame to frame.
A reader that has the beginning of a stream has whole frames and then a part of the next.
-/

namespace Sfslite.Lib

variable {σ μ β : Type*}

section

variable (enc : σ → μ → List β) (next : σ → μ → σ)

/-- The code of some frames in a row. -/
def frames : σ → List μ → List β
  | _, [] => []
  | s, m :: ms => enc s m ++ frames (next s m) ms

/-- The state behind some frames. -/
def framesEnd : σ → List μ → σ
  | s, [] => s
  | s, m :: ms => framesEnd (next s m) ms

end

/-- How much is left of `n` symbols when the whole frames at their beginning are taken. -/
def leftOver : (lens : List ℕ) → (n : ℕ) → ℕ
  | [], n => n
  | l :: lens, n => if l ≤ n then leftOver lens (n - l) else n

variable {enc : σ → μ → List β} {next : σ → μ → σ} {s : σ} {m : μ} {ms ms' : List μ}
  {b later : List β}

theorem frames_append :
    frames enc next s (ms ++ ms') =
      frames enc next s ms ++ frames enc next (framesEnd next s ms) ms' := by
  induction ms generalizing s with
  | nil => rfl
  | cons m ms ih => rw [List.cons_append, frames, ih, frames, framesEnd, List.append_assoc]

theorem framesEnd_append :
    framesEnd next s (ms ++ ms') = framesEnd next (framesEnd next s ms) ms' := by
  induction ms generalizing s with
  | nil => rfl
  | cons m ms ih => rw [List.cons_append, framesEnd, ih, framesEnd]

theorem frames_cut (h : b ++ later = frames enc next s (m :: ms)) :
    (b.length < (enc s m).length ∧ ∃ b', b' ≠ [] ∧ b ++ b' = enc s m) ∨
      ∃ b', b = enc s m ++ b' ∧ b' ++ later = frames enc next (next s m) ms := by
  rw [frames] at h
  rcases List.append_eq_append_iff.mp h with ⟨b', hframe, hrest⟩ | ⟨b', hframe, hrest⟩
  · by_cases hb' : b' = []
    · subst hb'
      rw [List.append_nil] at hframe
      exact Or.inr ⟨[], by rw [hframe, List.append_nil], hrest⟩
    · have hpos := List.length_pos_iff.mpr hb'
      have hlen := congrArg List.length hframe
      rw [List.length_append] at hlen
      exact Or.inl ⟨by omega, b', hb', hframe.symm⟩
  · exact Or.inr ⟨b', hframe, hrest.symm⟩

end Sfslite.Lib
