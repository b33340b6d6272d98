import Mathlib.Data.List.Basic
import Mathlib.Algebra.Order.Ring.Nat

/-!
A stream of elements cut into blocks of one size, with less than a block left.
-/

namespace Sfslite.Lib.Blocks

variable {α : Type} {n : ℕ} {l l' r r' : List α} {bs bs' : List (List α)}

/-- `bs` are the whole blocks of `l`, and `r` is what is left behind them. -/
structure Cut (n : ℕ) (l : List α) (bs : List (List α)) (r : List α) : Prop where
  flatten : bs.flatten ++ r = l
  length_block : ∀ b ∈ bs, b.length = n
  length_rest : r.length < n

def blocks (n : ℕ) (l : List α) : List (List α) :=
  (List.range (l.length / n)).map fun k => (l.drop (k * n)).take n

namespace Cut

theorem nil (hn : 0 < n) : Cut n ([] : List α) [] [] where
  flatten := rfl
  length_block := by simp
  length_rest := hn

theorem of_lt (h : l.length < n) : Cut n l [] l where
  flatten := rfl
  length_block := by simp
  length_rest := h

theorem cons {b : List α} (hb : b.length = n) (h : Cut n l bs r) : Cut n (b ++ l) (b :: bs) r where
  flatten := by rw [List.flatten_cons, List.append_assoc, h.flatten]
  length_block := by
    intro c hc
    rcases List.mem_cons.mp hc with rfl | hc
    · exact hb
    · exact h.length_block c hc
  length_rest := h.length_rest

theorem append (h : Cut n l bs r) (h' : Cut n (r ++ l') bs' r') :
    Cut n (l ++ l') (bs ++ bs') r' where
  flatten := by
    rw [List.flatten_append, List.append_assoc, h'.flatten, ← List.append_assoc, h.flatten]
  length_block := by
    intro b hb
    rcases List.mem_append.mp hb with hb | hb
    · exact h.length_block b hb
    · exact h'.length_block b hb
  length_rest := h'.length_rest

theorem length_flatten (h : Cut n l bs r) : bs.flatten.length = bs.length * n := by
  rw [List.length_flatten, List.eq_replicate_of_mem (a := n) (l := bs.map List.length)]
  · simp
  · intro k hk
    obtain ⟨b, hb, rfl⟩ := List.mem_map.mp hk
    exact h.length_block b hb

theorem length_eq (h : Cut n l bs r) : l.length = bs.length * n + r.length := by
  rw [← h.flatten, List.length_append, h.length_flatten]

theorem length_rest_eq (h : Cut n l bs r) : r.length = l.length % n := by
  rw [h.length_eq, Nat.mul_comm, Nat.mul_add_mod, Nat.mod_eq_of_lt h.length_rest]

theorem unique (h : Cut n l bs r) (h' : Cut n l bs' r') : bs = bs' ∧ r = r' := by
  induction bs generalizing l bs' with
  | nil =>
    cases bs' with
    | nil => exact ⟨rfl, h.flatten.trans h'.flatten.symm⟩
    | cons b' bs' =>
      have hlen := h.length_eq
      have hlen' := h'.length_eq
      have hrest := h.length_rest
      rw [List.length_nil, Nat.zero_mul] at hlen
      rw [List.length_cons, Nat.succ_mul] at hlen'
      omega
  | cons b bs ih =>
    cases bs' with
    | nil =>
      have hlen := h.length_eq
      have hlen' := h'.length_eq
      have hrest := h'.length_rest
      rw [List.length_cons, Nat.succ_mul] at hlen
      rw [List.length_nil, Nat.zero_mul] at hlen'
      omega
    | cons b' bs' =>
      have heq := h.flatten.trans h'.flatten.symm
      rw [List.flatten_cons, List.flatten_cons, List.append_assoc, List.append_assoc] at heq
      have hb := h.length_block b (List.mem_cons_self ..)
      have hb' := h'.length_block b' (List.mem_cons_self ..)
      obtain ⟨rfl, htail⟩ := List.append_inj heq (hb.trans hb'.symm)
      have hcut : Cut n (bs.flatten ++ r) bs r :=
        ⟨rfl, fun c hc => h.length_block c (List.mem_cons_of_mem _ hc), h.length_rest⟩
      have hcut' : Cut n (bs.flatten ++ r) bs' r' :=
        ⟨htail.symm, fun c hc => h'.length_block c (List.mem_cons_of_mem _ hc),
          h'.length_rest⟩
      obtain ⟨hbs, hr⟩ := ih hcut hcut'
      exact ⟨by rw [hbs], hr⟩

end Cut

theorem flatten_take_blocks (l : List α) (n : ℕ) :
    ∀ k, k * n ≤ l.length →
      ((List.range k).map fun i => (l.drop (i * n)).take n).flatten = l.take (k * n) := by
  intro k
  induction k with
  | zero => simp
  | succ k ih =>
    intro hk
    have hle : k * n ≤ l.length := by
      rw [Nat.succ_mul] at hk
      omega
    rw [List.range_succ, List.map_append, List.flatten_append, ih hle, Nat.succ_mul,
      List.take_add]
    simp

theorem cut_blocks (hn : 0 < n) (l : List α) :
    Cut n l (blocks n l) (l.drop (l.length / n * n)) where
  flatten := by
    rw [blocks, flatten_take_blocks l n _ (Nat.div_mul_le_self _ _), List.take_append_drop]
  length_block := by
    intro b hb
    obtain ⟨k, hk, rfl⟩ := List.mem_map.mp hb
    have hlt := List.mem_range.mp hk
    have hle : (k + 1) * n ≤ l.length :=
      Nat.le_trans (Nat.mul_le_mul_right n hlt) (Nat.div_mul_le_self _ _)
    rw [Nat.succ_mul] at hle
    rw [List.length_take, List.length_drop]
    omega
  length_rest := by
    have hmod := Nat.mod_lt l.length hn
    have hdiv := Nat.div_add_mod l.length n
    rw [List.length_drop, Nat.mul_comm]
    omega

theorem Cut.eq_blocks (h : Cut n l bs r) : bs = blocks n l :=
  (h.unique (cut_blocks (Nat.zero_lt_of_lt h.length_rest) l)).1

end Sfslite.Lib.Blocks
