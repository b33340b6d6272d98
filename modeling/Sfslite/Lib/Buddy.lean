import Mathlib.Data.Set.Insert
import Mathlib.Algebra.Group.Nat.Defs
import Mathlib.Tactic.ByContra

/-!
Tilings by aligned blocks. The block `(k, p)` is made of the places `x` with
`x / 2 ^ k = p`, so every level cuts the line into blocks of one size and each block
is made of two buddies of the level below. A tiling is a set of blocks such that
every place below a bound lies in exactly one of them.
-/

namespace Sfslite.Lib.Buddy

/-- The block of level `k` that contains `x`. -/
def blockOf (x k : ℕ) : ℕ × ℕ := (k, x / 2 ^ k)

theorem blockOf_start (k p : ℕ) : blockOf (p * 2 ^ k) k = (k, p) := by
  rw [blockOf, Nat.mul_div_cancel _ (Nat.two_pow_pos k)]

theorem div_pow_succ (x k : ℕ) : x / 2 ^ (k + 1) = x / 2 ^ k / 2 := by
  rw [Nat.div_div_eq_div_mul, Nat.pow_succ]

/-- Every place below `total` lies in exactly one block of `B`, and no other place
lies in any. -/
structure Tiles (B : Set (ℕ × ℕ)) (total : ℕ) : Prop where
  inside : ∀ x k, blockOf x k ∈ B → x < total
  cover : ∀ x < total, ∃ k, blockOf x k ∈ B
  unique : ∀ x k j, blockOf x k ∈ B → blockOf x j ∈ B → k = j

variable {B : Set (ℕ × ℕ)} {total k p : ℕ}

theorem tiles_empty : Tiles ∅ 0 where
  inside _ _ h := h.elim
  cover x hx := absurd hx (Nat.not_lt_zero x)
  unique _ _ _ h := h.elim

theorem halves_iff (x j k p : ℕ) :
    (blockOf x j = (k, 2 * p) ∨ blockOf x j = (k, 2 * p + 1)) ↔
      j = k ∧ blockOf x (k + 1) = (k + 1, p) := by
  simp only [blockOf, Prod.mk.injEq, div_pow_succ, true_and]
  constructor
  · rintro (⟨rfl, h⟩ | ⟨rfl, h⟩) <;> exact ⟨rfl, by omega⟩
  · rintro ⟨rfl, h⟩
    omega

theorem mem_halves (x j : ℕ) :
    blockOf x j ∈ insert (k, 2 * p) (insert (k, 2 * p + 1) B) ↔
      (j = k ∧ blockOf x (k + 1) = (k + 1, p)) ∨ blockOf x j ∈ B := by
  rw [Set.mem_insert_iff, Set.mem_insert_iff, ← or_assoc, halves_iff]

theorem Tiles.split (h : Tiles (insert (k + 1, p) B) total) (hp : (k + 1, p) ∉ B) :
    Tiles (insert (k, 2 * p) (insert (k, 2 * p + 1) B)) total ∧
      (k, 2 * p) ∉ B ∧ (k, 2 * p + 1) ∉ B := by
  have hmem := mem_halves (k := k) (p := p) (B := B)
  have hnot : ∀ x j, blockOf x (k + 1) = (k + 1, p) → blockOf x j ∉ B := by
    intro x j hx hB
    have hj := h.unique x (k + 1) j (Or.inl hx) (Or.inr hB)
    subst hj
    exact hp (hx ▸ hB)
  refine ⟨⟨fun x j hx => ?_, fun x hx => ?_, fun x i j hi hj => ?_⟩, ?_, ?_⟩
  · rcases (hmem x j).mp hx with ⟨-, hx⟩ | hx
    · exact h.inside x (k + 1) (Or.inl hx)
    · exact h.inside x j (Or.inr hx)
  · obtain ⟨j, hj | hj⟩ := h.cover x hx
    · refine ⟨k, (hmem x k).mpr (Or.inl ⟨rfl, ?_⟩)⟩
      have hjk : j = k + 1 := congrArg Prod.fst hj
      exact hjk ▸ hj
    · exact ⟨j, (hmem x j).mpr (Or.inr hj)⟩
  · rcases (hmem x i).mp hi with ⟨hik, hi'⟩ | hi' <;>
      rcases (hmem x j).mp hj with ⟨hjk, hj'⟩ | hj'
    · rw [hik, hjk]
    · exact absurd hj' (hnot x j hi')
    · exact absurd hi' (hnot x i hj')
    · exact h.unique x i j (Or.inr hi') (Or.inr hj')
  · rw [← blockOf_start k (2 * p)]
    exact hnot _ k ((halves_iff ..).mp (Or.inl (blockOf_start ..))).2
  · rw [← blockOf_start k (2 * p + 1)]
    exact hnot _ k ((halves_iff ..).mp (Or.inr (blockOf_start ..))).2

theorem Tiles.merge (h : Tiles (insert (k, 2 * p) (insert (k, 2 * p + 1) B)) total)
    (hl : (k, 2 * p) ∉ B) (hr : (k, 2 * p + 1) ∉ B) :
    Tiles (insert (k + 1, p) B) total ∧ (k + 1, p) ∉ B := by
  have hmem := mem_halves (k := k) (p := p) (B := B)
  have hnot : ∀ x j, blockOf x (k + 1) = (k + 1, p) → blockOf x j ∉ B := by
    intro x j hx hB
    have hj := h.unique x k j ((hmem x k).mpr (Or.inl ⟨rfl, hx⟩)) ((hmem x j).mpr (Or.inr hB))
    subst hj
    rcases (halves_iff x k k p).mpr ⟨rfl, hx⟩ with hx | hx
    · exact hl (hx ▸ hB)
    · exact hr (hx ▸ hB)
  have hlevel : ∀ x j, blockOf x j = (k + 1, p) → j = k + 1 := fun x j hx => congrArg Prod.fst hx
  refine ⟨⟨fun x j hx => ?_, fun x hx => ?_, fun x i j hi hj => ?_⟩, ?_⟩
  · rcases hx with hx | hx
    · have hj := hlevel x j hx
      exact h.inside x k ((hmem x k).mpr (Or.inl ⟨rfl, hj ▸ hx⟩))
    · exact h.inside x j ((hmem x j).mpr (Or.inr hx))
  · obtain ⟨j, hj⟩ := h.cover x hx
    rcases (hmem x j).mp hj with ⟨-, hj⟩ | hj
    · exact ⟨k + 1, Or.inl hj⟩
    · exact ⟨j, Or.inr hj⟩
  · rcases hi with hi | hi <;> rcases hj with hj | hj
    · rw [hlevel x i hi, hlevel x j hj]
    · exact absurd hj (hnot x j (hlevel x i hi ▸ hi))
    · exact absurd hi (hnot x i (hlevel x j hj ▸ hj))
    · exact h.unique x i j ((hmem x i).mpr (Or.inr hi)) ((hmem x j).mpr (Or.inr hj))
  · rw [← blockOf_start (k + 1) p]
    exact hnot _ _ (blockOf_start ..)

theorem Tiles.merge_halves {q b : ℕ} (h : Tiles (insert (k, p) (insert (k, b) B)) total)
    (hp : (k, p) ∉ B) (hb : (k, b) ∉ B)
    (hq : (p = 2 * q ∧ b = 2 * q + 1) ∨ (p = 2 * q + 1 ∧ b = 2 * q)) :
    Tiles (insert (k + 1, q) B) total ∧ (k + 1, q) ∉ B := by
  rcases hq with ⟨rfl, rfl⟩ | ⟨rfl, rfl⟩
  · exact h.merge hp hb
  · rw [Set.insert_comm] at h
    exact h.merge hb hp

theorem Tiles.grow {n : ℕ} (h : Tiles B (n * 2 ^ k)) :
    Tiles (insert (k, n) B) ((n + 1) * 2 ^ k) ∧ (k, n) ∉ B := by
  have hpos : 0 < 2 ^ k := Nat.two_pow_pos k
  have hlast : ∀ x, x / 2 ^ k = n ↔ n * 2 ^ k ≤ x ∧ x < (n + 1) * 2 ^ k := by
    intro x
    rw [← Nat.le_div_iff_mul_le hpos, ← Nat.div_lt_iff_lt_mul hpos]
    omega
  have hmono : n * 2 ^ k ≤ (n + 1) * 2 ^ k := Nat.mul_le_mul_right _ (Nat.le_succ n)
  have hblock : ∀ x j, blockOf x j = (k, n) → j = k ∧ n * 2 ^ k ≤ x ∧ x < (n + 1) * 2 ^ k := by
    intro x j hx
    simp only [blockOf, Prod.mk.injEq] at hx
    obtain ⟨rfl, hx⟩ := hx
    exact ⟨rfl, (hlast x).mp hx⟩
  refine ⟨⟨fun x j hx => ?_, fun x hx => ?_, fun x i j hi hj => ?_⟩, fun hB => ?_⟩
  · rcases hx with hx | hx
    · exact (hblock x j hx).2.2
    · exact Nat.lt_of_lt_of_le (h.inside x j hx) hmono
  · by_cases hlt : x < n * 2 ^ k
    · obtain ⟨j, hj⟩ := h.cover x hlt
      exact ⟨j, Or.inr hj⟩
    · refine ⟨k, Or.inl ?_⟩
      rw [blockOf, (hlast x).mpr ⟨Nat.le_of_not_lt hlt, hx⟩]
  · rcases hi with hi | hi <;> rcases hj with hj | hj
    · rw [(hblock x i hi).1, (hblock x j hj).1]
    · exact absurd (h.inside x j hj) (Nat.not_lt_of_le (hblock x i hi).2.1)
    · exact absurd (h.inside x i hi) (Nat.not_lt_of_le (hblock x j hj).2.1)
    · exact h.unique x i j hi hj
  · rw [← blockOf_start k n] at hB
    exact Nat.lt_irrefl _ (h.inside _ _ hB)

theorem Tiles.lt_of_mem (h : Tiles B total) (hB : (k, p) ∈ B) (hk : 2 ^ k ∣ total) :
    p < total / 2 ^ k := by
  rw [← blockOf_start k p] at hB
  have hlt := h.inside _ _ hB
  obtain ⟨m, rfl⟩ := hk
  rw [Nat.mul_div_cancel_left _ (Nat.two_pow_pos k)]
  rw [Nat.mul_comm] at hlt
  exact Nat.lt_of_mul_lt_mul_left hlt

variable {F F' L : Set (ℕ × ℕ)} {lo hi : ℕ}

/-- A region that only free blocks touch lies in one of them, if no two buddies below
the level `hi` are free. -/
theorem exists_free_block (hlo : ∀ b ∈ F, lo ≤ b.1)
    (hbuddy : ∀ k p, k < hi → (k, 2 * p) ∈ F → (k, 2 * p + 1) ∉ F) (hk : lo ≤ k) (hkhi : k ≤ hi)
    (hregion : ∀ x, x / 2 ^ k = p → ∃ j, blockOf x j ∈ F) :
    ∃ j, k ≤ j ∧ blockOf (p * 2 ^ k) j ∈ F := by
  induction k, hk using Nat.le_induction generalizing p with
  | base =>
    obtain ⟨j, hj⟩ := hregion (p * 2 ^ lo) (Nat.mul_div_cancel _ (Nat.two_pow_pos lo))
    exact ⟨j, hlo _ hj, hj⟩
  | succ k hk ih =>
    have hhalf : ∀ q, q / 2 = p →
        (∃ j, k + 1 ≤ j ∧ blockOf (p * 2 ^ (k + 1)) j ∈ F) ∨ (k, q) ∈ F := by
      intro q hq
      obtain ⟨j, hj, hmem⟩ := ih (p := q) (by omega)
        (fun x hx => hregion x (by rw [div_pow_succ, hx, hq]))
      rcases Nat.lt_or_eq_of_le hj with hlt | rfl
      · refine Or.inl ⟨j, hlt, ?_⟩
        have hstart : blockOf (p * 2 ^ (k + 1)) j = blockOf (q * 2 ^ k) j := by
          obtain ⟨i, rfl⟩ := Nat.exists_eq_add_of_le hlt
          have hq' : q * 2 ^ k / 2 ^ (k + 1) = p := by
            rw [div_pow_succ, Nat.mul_div_cancel _ (Nat.two_pow_pos k), hq]
          have hdiv : ∀ y, y / 2 ^ (k.succ + i) = y / 2 ^ (k + 1) / 2 ^ i := fun y => by
            rw [Nat.div_div_eq_div_mul, ← Nat.pow_add]
          rw [blockOf, blockOf, hdiv, hdiv, hq', Nat.mul_div_cancel _ (Nat.two_pow_pos _)]
        rw [hstart]
        exact hmem
      · rw [blockOf_start] at hmem
        exact Or.inr hmem
    rcases hhalf (2 * p) (by omega) with hfree | hl
    · exact hfree
    · rcases hhalf (2 * p + 1) (by omega) with hfree | hr
      · exact hfree
      · exact absurd hr (hbuddy k p (by omega) hl)

/-- What is free beside the blocks `L`: with them it tiles the space, and no two buddies below
the level `hi` are free. -/
structure Joined (F L : Set (ℕ × ℕ)) (total lo hi : ℕ) : Prop where
  tiles : Tiles (F ∪ L) total
  excl : ∀ b ∈ F, b ∉ L
  buddy : ∀ k p, k < hi → (k, 2 * p) ∈ F → (k, 2 * p + 1) ∉ F
  level : ∀ b ∈ F, lo ≤ b.1 ∧ b.1 ≤ hi

theorem Joined.exists_above (h : Joined F L total lo hi)
    (h' : Joined F' L total lo hi) {x : ℕ} (hx : blockOf x k ∈ F) :
    ∃ j, k ≤ j ∧ blockOf x j ∈ F' := by
  have hmem : (k, x / 2 ^ k) ∈ F := hx
  have hregion : ∀ y, y / 2 ^ k = x / 2 ^ k → ∃ j, blockOf y j ∈ F' := by
    intro y hy
    have hyF : blockOf y k ∈ F := by rwa [blockOf, hy]
    obtain ⟨j, hj | hj⟩ := h'.tiles.cover y (h.tiles.inside y k (.inl hyF))
    · exact ⟨j, hj⟩
    · obtain rfl := h.tiles.unique y k j (.inl hyF) (.inr hj)
      exact absurd hj (h.excl _ hyF)
  obtain ⟨hlo, hhi⟩ := h.level _ hmem
  obtain ⟨j, hj, hfree⟩ := exists_free_block (fun b hb => (h'.level b hb).1) h'.buddy hlo hhi hregion
  refine ⟨j, hj, ?_⟩
  have hstart : blockOf (x / 2 ^ k * 2 ^ k) j = blockOf x j := by
    obtain ⟨i, rfl⟩ := Nat.exists_eq_add_of_le hj
    rw [blockOf, blockOf, Nat.pow_add, ← Nat.div_div_eq_div_mul, ← Nat.div_div_eq_div_mul,
      Nat.mul_div_cancel _ (Nat.two_pow_pos k)]
  rwa [hstart] at hfree

theorem Joined.subset (h : Joined F L total lo hi) (h' : Joined F' L total lo hi) : F ⊆ F' := by
  rintro ⟨k, p⟩ hp
  rw [← blockOf_start k p] at hp ⊢
  obtain ⟨j, hkj, hj⟩ := h.exists_above h' hp
  obtain ⟨i, hji, hi⟩ := h'.exists_above h hj
  obtain rfl := h.tiles.unique _ k i (.inl hp) (.inl hi)
  obtain rfl : k = j := by omega
  exact hj

theorem Joined.eq (h : Joined F L total lo hi) (h' : Joined F' L total lo hi) : F = F' :=
  Set.Subset.antisymm (h.subset h') (h'.subset h)

end Sfslite.Lib.Buddy
