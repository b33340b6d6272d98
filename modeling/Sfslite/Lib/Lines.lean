import Mathlib.Data.List.Basic
import Mathlib.Algebra.Order.Ring.Nat

/-!
Lines of a stream: each is ended by a separator that it does not contain. A reader has a part of
the stream, the rest of which is behind it.
-/

namespace Sfslite.Lib

variable {β : Type*} {sep : β} {l r held rest : List β} {ls : List (List β)}

def lineStream (sep : β) (ls : List (List β)) : List β := ls.flatMap (· ++ [sep])

@[simp] theorem lineStream_nil : lineStream sep [] = [] := rfl

@[simp] theorem lineStream_cons : lineStream sep (l :: ls) = l ++ sep :: lineStream sep ls := by
  simp [lineStream]

theorem mem_held_iff (hl : sep ∉ l) (h : held ++ rest = l ++ sep :: r) :
    sep ∈ held ↔ l.length < held.length := by
  obtain ⟨as, rfl, hrest⟩ | ⟨cs, rfl, hrest⟩ := List.append_eq_append_iff.mp h
  · constructor
    · intro hmem
      exact absurd (List.mem_append_left as hmem) hl
    · intro hlt
      rw [List.length_append] at hlt
      omega
  · cases cs with
    | nil => simpa using hl
    | cons c cs =>
      obtain ⟨rfl, -⟩ := List.cons.inj hrest
      simp

theorem held_eq (hl : sep ∉ l) (h : held ++ rest = l ++ sep :: r) (hmem : sep ∈ held) :
    ∃ more, held = l ++ sep :: more ∧ more ++ rest = r := by
  obtain ⟨as, rfl, hrest⟩ | ⟨cs, rfl, hrest⟩ := List.append_eq_append_iff.mp h
  · exact absurd (List.mem_append_left as hmem) hl
  · cases cs with
    | nil => exact absurd (by simpa using hmem) hl
    | cons c cs =>
      obtain ⟨rfl, hr⟩ := List.cons.inj hrest
      exact ⟨cs, rfl, hr.symm⟩

theorem idxOf?_line [DecidableEq β] (hl : sep ∉ l) :
    (l ++ sep :: r).idxOf? sep = some l.length := by
  rw [List.idxOf?_eq_some_iff]
  refine ⟨by simp, by simp, fun j hj => ?_⟩
  rw [List.getElem_append_left hj]
  intro heq
  exact hl (heq ▸ List.getElem_mem hj)

end Sfslite.Lib
