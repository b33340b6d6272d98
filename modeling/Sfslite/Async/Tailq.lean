import Sfslite.Lib.ByteMemory

/-!
The tail queue of `list.h`, in memory. A queue at `q` has `first` there and `plast` behind it. An
element has its entry, `next` and `pprev`, at the offset `field`.
-/

namespace Sfslite.Tailq

open Lib

section

variable (field : ℕ) (m : Memory) (q elm : ℕ)

/-- The constructor of `tailq`. -/
def tailq : Memory :=
  (m.store 8 q 0).store 8 (q + 8) q

/-- `next` -/
def next : ℕ :=
  m.load 8 (elm + field)

/-- `pprev` of an entry -/
def pprev : ℕ :=
  m.load 8 (elm + field + 8)

/-- `insert_tail` -/
def insertTail : Memory :=
  let m := m.store 8 (elm + field) 0
  let m := m.store 8 (elm + field + 8) (m.load 8 (q + 8))
  let m := m.store 8 (m.load 8 (q + 8)) elm
  m.store 8 (q + 8) (elm + field)

/-- `remove` -/
def remove : Memory :=
  let m := if next field m elm ≠ 0 then
      m.store 8 (next field m elm + field + 8) (pprev field m elm)
    else m.store 8 (q + 8) (pprev field m elm)
  m.store 8 (pprev field m elm) (next field m elm)

end

variable {field : ℕ} {m m' : Memory} {q elm c x y b k : ℕ} {xs ys : List ℕ}

/-- The address of the pointer behind the elements of a list that starts at the pointer `c`. -/
def endOf (field : ℕ) : ℕ → List ℕ → ℕ
  | c, [] => c
  | _, x :: xs => endOf field (x + field) xs

/-- From the pointer at `c` on, the elements are `xs`, and each knows the pointer to it. -/
def Linked (field : ℕ) (m : Memory) : ℕ → List ℕ → Prop
  | _, [] => True
  | c, x :: xs => m.load 8 c = x ∧ pprev field m x = c ∧ Linked field m (x + field) xs

/-- The queue at `q` has the elements `xs`. -/
structure IsQueue (field : ℕ) (m : Memory) (q : ℕ) (xs : List ℕ) : Prop where
  linked : Linked field m q xs
  last : m.load 8 (endOf field q xs) = 0
  plast : m.load 8 (q + 8) = endOf field q xs

/-- Where the entry of an element is apart from `k` bytes at `b`. -/
def Clear (field b k x : ℕ) : Prop :=
  b + k ≤ x + field ∨ x + field + 16 ≤ b

/-- The queue and the entries of its elements do not overlap, and they have addresses. -/
structure Apart (field q : ℕ) (xs : List ℕ) : Prop where
  pairwise : xs.Pairwise (fun x y => x + 16 ≤ y ∨ y + 16 ≤ x)
  clear : ∀ x ∈ xs, Clear field q 16 x
  pos : ∀ x ∈ xs, x ≠ 0
  bound : ∀ x ∈ xs, x + field + 16 < 2 ^ 64
  bound_head : q < 2 ^ 64

theorem endOf_append : endOf field c (xs ++ ys) = endOf field (endOf field c xs) ys := by
  induction xs generalizing c with
  | nil => rfl
  | cons x xs ih => exact ih

theorem endOf_cases (field c : ℕ) (xs : List ℕ) :
    endOf field c xs = c ∨ ∃ x ∈ xs, endOf field c xs = x + field := by
  induction xs generalizing c with
  | nil => exact Or.inl rfl
  | cons x xs ih =>
    right
    rcases ih (x + field) with h | ⟨y, hy, h⟩
    · exact ⟨x, List.mem_cons_self, h⟩
    · exact ⟨y, List.mem_cons_of_mem _ hy, h⟩

theorem linked_append :
    Linked field m c (xs ++ ys) ↔ Linked field m c xs ∧ Linked field m (endOf field c xs) ys := by
  induction xs generalizing c with
  | nil => simp [Linked, endOf]
  | cons x xs ih => simp only [List.cons_append, Linked, endOf, ih, and_assoc]

theorem Linked.congr (h : Linked field m c xs) (hc : Memory.Same m m' c 8)
    (hx : ∀ x ∈ xs, Memory.Same m m' (x + field) 16) : Linked field m' c xs := by
  induction xs generalizing c with
  | nil => trivial
  | cons x xs ih =>
    obtain ⟨hget, hback, hrest⟩ := h
    have hown := hx x List.mem_cons_self
    have hback' : Memory.Same m m' (x + field + 8) 8 := hown.sub (by omega) (by omega)
    refine ⟨hc.load.trans hget, hback'.load.trans hback, ?_⟩
    apply ih hrest
    · exact hown.sub (le_refl _) (by omega)
    · intro y hy
      exact hx y (List.mem_cons_of_mem _ hy)

theorem Linked.store_end {v : ℕ} (h : Linked field m c xs)
    (hp : xs.Pairwise (fun x y => x + 16 ≤ y ∨ y + 16 ≤ x))
    (hc : ∀ x ∈ xs, Clear field c 8 x) : Linked field (m.store 8 (endOf field c xs) v) c xs := by
  induction xs generalizing c with
  | nil => trivial
  | cons x xs ih =>
    obtain ⟨hget, hback, hrest⟩ := h
    obtain ⟨hx, hp⟩ := List.pairwise_cons.mp hp
    have hend : endOf field (x + field) xs = x + field ∨
        ∃ y ∈ xs, endOf field (x + field) xs = y + field := endOf_cases _ _ _
    have hxc : Clear field c 8 x := hc x List.mem_cons_self
    refine ⟨?_, ?_, ih hrest hp ?_⟩
    · refine (Memory.load_store_of_ne ?_).trans hget
      rw [endOf]
      rcases hend with hend | ⟨y, hy, hend⟩
      · rw [hend]
        unfold Clear at hxc
        omega
      · have hyc : Clear field c 8 y := hc y (List.mem_cons_of_mem _ hy)
        rw [hend]
        unfold Clear at hyc
        omega
    · refine (Memory.load_store_of_ne ?_).trans hback
      rw [endOf]
      rcases hend with hend | ⟨y, hy, hend⟩
      · rw [hend]
        omega
      · have hxy := hx y hy
        rw [hend]
        omega
    · intro y hy
      have hxy := hx y hy
      unfold Clear
      omega

theorem IsQueue.load_first (h : IsQueue field m q (x :: xs)) : m.load 8 q = x :=
  h.linked.1

theorem IsQueue.next_eq (h : IsQueue field m q (xs ++ x :: ys)) : next field m x = ys.headD 0 := by
  have hback := (linked_append.mp h.linked).2.2.2
  cases ys with
  | nil =>
    have hlast := h.last
    rw [endOf_append] at hlast
    exact hlast
  | cons y ys => exact hback.1

theorem IsQueue.pprev_eq (h : IsQueue field m q (xs ++ x :: ys)) :
    pprev field m x = endOf field q xs :=
  (linked_append.mp h.linked).2.2.1

theorem endOf_clear (hq : b + k ≤ q ∨ q + 16 ≤ b) (hx : ∀ x ∈ xs, Clear field b k x) :
    b + k ≤ endOf field q xs ∨ endOf field q xs + 8 ≤ b := by
  rcases endOf_cases field q xs with hend | ⟨x, hmem, hend⟩
  · rw [hend]
    omega
  · have hclear := hx x hmem
    rw [hend]
    unfold Clear at hclear
    omega

theorem Apart.endOf_lt (h : Apart field q xs) : endOf field q xs < 2 ^ 64 := by
  rcases endOf_cases field q xs with hend | ⟨x, hmem, hend⟩
  · rw [hend]
    exact h.bound_head
  · have hbound := h.bound x hmem
    rw [hend]
    omega

theorem IsQueue.congr (h : IsQueue field m q xs) (hq : Memory.Same m m' q 16)
    (hx : ∀ x ∈ xs, Memory.Same m m' (x + field) 16) : IsQueue field m' q xs := by
  have hfirst : Memory.Same m m' q 8 := hq.sub (le_refl q) (by omega)
  have hsecond : Memory.Same m m' (q + 8) 8 := hq.sub (by omega) (by omega)
  refine ⟨h.linked.congr hfirst hx, ?_, hsecond.load.trans h.plast⟩
  have hend : Memory.Same m m' (endOf field q xs) 8 := by
    rcases endOf_cases field q xs with hend | ⟨x, hmem, hend⟩
    · rw [hend]
      exact hfirst
    · rw [hend]
      exact (hx x hmem).sub (le_refl _) (by omega)
  exact hend.load.trans h.last

theorem isQueue_tailq (hq : q < 2 ^ 64) : IsQueue field (tailq m q) q [] where
  linked := trivial
  last := by
    have hkeep : (tailq m q).load 8 q = (m.store 8 q 0).load 8 q :=
      Memory.load_store_of_ne (by omega)
    exact hkeep.trans (Memory.load_store_of_lt (by omega))
  plast := Memory.load_store_of_lt (by norm_num; omega)

theorem same_tailq (h : b + k ≤ q ∨ q + 16 ≤ b) : Memory.Same m (tailq m q) b k := by
  have hone : Memory.Same m (m.store 8 q 0) b k := Memory.same_store (by omega)
  exact hone.trans (Memory.same_store (by omega))

theorem IsQueue.insertTail_eq (h : IsQueue field m q xs) (hq : Clear field q 16 elm) :
    insertTail field m q elm =
      ((((m.store 8 (elm + field) 0).store 8 (elm + field + 8) (endOf field q xs)).store 8
        (endOf field q xs) elm).store 8 (q + 8) (elm + field)) := by
  unfold Clear at hq
  have hone : (m.store 8 (elm + field) 0).load 8 (q + 8) = endOf field q xs :=
    (Memory.load_store_of_ne (by omega)).trans h.plast
  have htwo : ((m.store 8 (elm + field) 0).store 8 (elm + field + 8) (endOf field q xs)).load 8
      (q + 8) = endOf field q xs :=
    (Memory.load_store_of_ne (by omega)).trans hone
  simp only [insertTail]
  rw [hone, htwo]

theorem IsQueue.same_insertTail (h : IsQueue field m q xs) (hqe : Clear field q 16 elm)
    (hq : b + k ≤ q ∨ q + 16 ≤ b) (hx : ∀ x ∈ xs, Clear field b k x)
    (he : Clear field b k elm) : Memory.Same m (insertTail field m q elm) b k := by
  have hend := endOf_clear hq hx
  unfold Clear at he
  rw [h.insertTail_eq hqe]
  have h1 : Memory.Same m (m.store 8 (elm + field) 0) b k := Memory.same_store (by omega)
  apply h1.trans
  have h2 : Memory.Same (m.store 8 (elm + field) 0)
      ((m.store 8 (elm + field) 0).store 8 (elm + field + 8) (endOf field q xs)) b k :=
    Memory.same_store (by omega)
  apply h2.trans
  generalize (m.store 8 (elm + field) 0).store 8 (elm + field + 8) (endOf field q xs) = m₂
  have h3 : Memory.Same m₂ (m₂.store 8 (endOf field q xs) elm) b k := Memory.same_store hend
  exact h3.trans (Memory.same_store (by omega))

theorem IsQueue.insertTail (h : IsQueue field m q xs) (ha : Apart field q (xs ++ [elm])) :
    IsQueue field (insertTail field m q elm) q (xs ++ [elm]) := by
  obtain ⟨hp, -, hpe⟩ := List.pairwise_append.mp ha.pairwise
  have hqe : Clear field q 16 elm := ha.clear elm (by simp)
  have hqx : ∀ x ∈ xs, Clear field q 16 x := fun x hx => ha.clear x (by simp [hx])
  have hxe : ∀ x ∈ xs, x + 16 ≤ elm ∨ elm + 16 ≤ x := fun x hx => hpe x hx elm (by simp)
  have hbound := ha.bound elm (by simp)
  have hendq : q + 16 ≤ endOf field q xs ∨ endOf field q xs + 8 ≤ q + 8 := by
    rcases endOf_cases field q xs with hend | ⟨x, hx, hend⟩
    · omega
    · have hclear := hqx x hx
      unfold Clear at hclear
      omega
  have hende : elm + field + 16 ≤ endOf field q xs ∨ endOf field q xs + 8 ≤ elm + field := by
    rcases endOf_cases field q xs with hend | ⟨x, hx, hend⟩
    · unfold Clear at hqe
      omega
    · have hclear := hxe x hx
      omega
  have hendlt : endOf field q xs < 2 ^ 64 := by
    refine Apart.endOf_lt ⟨hp, hqx, ?_, ?_, ha.bound_head⟩
    · exact fun x hx => ha.pos x (by simp [hx])
    · exact fun x hx => ha.bound x (by simp [hx])
  rw [h.insertTail_eq hqe]
  generalize hm₁ : m.store 8 (elm + field) 0 = m₁
  generalize hm₂ : m₁.store 8 (elm + field + 8) (endOf field q xs) = m₂
  generalize hm₃ : m₂.store 8 (endOf field q xs) elm = m₃
  unfold Clear at hqe
  have hkeep : ∀ x ∈ xs, Memory.Same m m₂ (x + field) 16 := by
    intro x hx
    have hclear := hxe x hx
    rw [← hm₂, ← hm₁]
    have h1 : Memory.Same m (m.store 8 (elm + field) 0) (x + field) 16 :=
      Memory.same_store (by omega)
    exact h1.trans (Memory.same_store (by omega))
  have hkeepq : Memory.Same m m₂ q 16 := by
    rw [← hm₂, ← hm₁]
    have h1 : Memory.Same m (m.store 8 (elm + field) 0) q 16 := Memory.same_store (by omega)
    exact h1.trans (Memory.same_store (by omega))
  have hlinked₂ : Linked field m₂ q xs :=
    h.linked.congr (hkeepq.sub (le_refl q) (by omega)) hkeep
  have hlinked₃ : Linked field m₃ q xs := by
    rw [← hm₃]
    apply hlinked₂.store_end hp
    intro x hx
    have hclear := hqx x hx
    unfold Clear at hclear ⊢
    omega
  have hlinked : Linked field (m₃.store 8 (q + 8) (elm + field)) q xs := by
    apply hlinked₃.congr
    · exact Memory.same_store (by omega)
    · intro x hx
      have hclear : Clear field q 16 x := hqx x hx
      unfold Clear at hclear
      exact Memory.same_store (by omega)
  refine ⟨linked_append.mpr ⟨hlinked, ?_, ?_, trivial⟩, ?_, ?_⟩
  · have hget : m₃.load 8 (endOf field q xs) = elm := by
      rw [← hm₃]
      exact Memory.load_store_of_lt (by norm_num; omega)
    exact (Memory.load_store_of_ne (by omega)).trans hget
  · have hget : m₂.load 8 (elm + field + 8) = endOf field q xs := by
      rw [← hm₂]
      exact Memory.load_store_of_lt (by norm_num; omega)
    have hget₃ : m₃.load 8 (elm + field + 8) = endOf field q xs := by
      rw [← hm₃]
      exact (Memory.load_store_of_ne (by omega)).trans hget
    exact (Memory.load_store_of_ne (by omega)).trans hget₃
  · have hget : m₂.load 8 (elm + field) = 0 := by
      rw [← hm₂, ← hm₁]
      refine (Memory.load_store_of_ne (by omega)).trans ?_
      exact Memory.load_store_of_lt (by omega)
    have hget₃ : m₃.load 8 (elm + field) = 0 := by
      rw [← hm₃]
      exact (Memory.load_store_of_ne (by omega)).trans hget
    rw [endOf_append, endOf, endOf]
    exact (Memory.load_store_of_ne (by omega)).trans hget₃
  · rw [endOf_append, endOf, endOf]
    exact Memory.load_store_of_lt (by norm_num; omega)

theorem IsQueue.remove_last_eq (h : IsQueue field m q (xs ++ [x]))
    (ha : Apart field q (xs ++ [x])) :
    remove field m q x = (m.store 8 (q + 8) (endOf field q xs)).store 8 (endOf field q xs) 0 := by
  have hnext : next field m x = 0 := h.next_eq
  have hpprev : pprev field m x = endOf field q xs := h.pprev_eq
  have hq : Clear field q 16 x := ha.clear x (by simp)
  unfold Clear at hq
  have hkeep : Memory.Same m (m.store 8 (q + 8) (endOf field q xs)) (x + field) 16 :=
    Memory.same_store (by omega)
  have hnext' : next field (m.store 8 (q + 8) (endOf field q xs)) x = 0 :=
    (hkeep.sub (le_refl _) (by omega)).load.trans hnext
  have hpprev' : pprev field (m.store 8 (q + 8) (endOf field q xs)) x = endOf field q xs :=
    (hkeep.sub (by omega) (by omega)).load.trans hpprev
  rw [remove, hnext, hpprev, if_neg (fun hne => hne rfl)]
  simp only [hnext', hpprev']

theorem IsQueue.remove_inner_eq (h : IsQueue field m q (xs ++ x :: y :: ys))
    (ha : Apart field q (xs ++ x :: y :: ys)) :
    remove field m q x =
      (m.store 8 (y + field + 8) (endOf field q xs)).store 8 (endOf field q xs) y := by
  have hnext : next field m x = y := h.next_eq
  have hpprev : pprev field m x = endOf field q xs := h.pprev_eq
  have hxy := (List.pairwise_cons.mp (List.pairwise_append.mp ha.pairwise).2.1).1 y (by simp)
  have hkeep : Memory.Same m (m.store 8 (y + field + 8) (endOf field q xs)) (x + field) 16 :=
    Memory.same_store (by omega)
  have hnext' : next field (m.store 8 (y + field + 8) (endOf field q xs)) x = y :=
    (hkeep.sub (le_refl _) (by omega)).load.trans hnext
  have hpprev' : pprev field (m.store 8 (y + field + 8) (endOf field q xs)) x =
      endOf field q xs :=
    (hkeep.sub (by omega) (by omega)).load.trans hpprev
  rw [remove, hnext, hpprev, if_pos (ha.pos y (by simp))]
  simp only [hnext', hpprev']

theorem IsQueue.same_remove (h : IsQueue field m q (xs ++ x :: ys))
    (ha : Apart field q (xs ++ x :: ys)) (hq : b + k ≤ q ∨ q + 16 ≤ b)
    (hx : ∀ z ∈ xs ++ x :: ys, Clear field b k z) : Memory.Same m (remove field m q x) b k := by
  have hend : b + k ≤ endOf field q xs ∨ endOf field q xs + 8 ≤ b :=
    endOf_clear hq (fun z hz => hx z (by simp [hz]))
  cases ys with
  | nil =>
    rw [h.remove_last_eq ha]
    have h1 : Memory.Same m (m.store 8 (q + 8) (endOf field q xs)) b k :=
      Memory.same_store (by omega)
    exact h1.trans (Memory.same_store hend)
  | cons y ys =>
    have hy : Clear field b k y := hx y (by simp)
    unfold Clear at hy
    rw [h.remove_inner_eq ha]
    have h1 : Memory.Same m (m.store 8 (y + field + 8) (endOf field q xs)) b k :=
      Memory.same_store (by omega)
    exact h1.trans (Memory.same_store hend)

theorem Apart.of_sublist (ha : Apart field q ys) (h : xs.Sublist ys) : Apart field q xs where
  pairwise := ha.pairwise.sublist h
  clear x hx := ha.clear x (h.mem hx)
  pos x hx := ha.pos x (h.mem hx)
  bound x hx := ha.bound x (h.mem hx)
  bound_head := ha.bound_head

theorem IsQueue.remove (h : IsQueue field m q (xs ++ x :: ys))
    (ha : Apart field q (xs ++ x :: ys)) : IsQueue field (remove field m q x) q (xs ++ ys) := by
  obtain ⟨hp, hpx, hpy⟩ := List.pairwise_append.mp ha.pairwise
  obtain ⟨hlinked, -, -, hrest⟩ := linked_append.mp h.linked
  have hqx : ∀ z ∈ xs, Clear field q 16 z := fun z hz => ha.clear z (by simp [hz])
  have hsub : Apart field q xs := ha.of_sublist (List.sublist_append_left _ _)
  have hendlt := hsub.endOf_lt
  have hendq : q + 16 ≤ endOf field q xs ∨ endOf field q xs + 8 ≤ q + 8 := by
    rcases endOf_cases field q xs with hend | ⟨z, hz, hend⟩
    · omega
    · have hclear := hqx z hz
      unfold Clear at hclear
      omega
  have hendy : ∀ y ∈ ys, y + field + 16 ≤ endOf field q xs ∨
      endOf field q xs + 8 ≤ y + field := by
    intro y hy
    rcases endOf_cases field q xs with hend | ⟨z, hz, hend⟩
    · have hclear := ha.clear y (by simp [hy])
      unfold Clear at hclear
      omega
    · have hzy := hpy z hz y (by simp [hy])
      omega
  cases ys with
  | nil =>
    rw [h.remove_last_eq ha, List.append_nil]
    generalize hm₁ : m.store 8 (q + 8) (endOf field q xs) = m₁
    have hlinked₁ : Linked field m₁ q xs := by
      rw [← hm₁]
      apply hlinked.congr
      · exact Memory.same_store (by omega)
      · intro z hz
        have hclear := hqx z hz
        unfold Clear at hclear
        exact Memory.same_store (by omega)
    refine ⟨?_, Memory.load_store_of_lt (by omega), ?_⟩
    · apply hlinked₁.store_end hp
      intro z hz
      have hclear := hqx z hz
      unfold Clear at hclear ⊢
      omega
    · refine (Memory.load_store_of_ne (by omega)).trans ?_
      rw [← hm₁]
      exact Memory.load_store_of_lt (by norm_num; omega)
  | cons y ys =>
    have hqy := ha.clear y (by simp)
    have hyx : ∀ z ∈ xs, z + 16 ≤ y ∨ y + 16 ≤ z := fun z hz => hpy z hz y (by simp)
    obtain ⟨hyy, -⟩ := List.pairwise_cons.mp (List.pairwise_cons.mp hpx).2
    have hendy₀ := hendy y (by simp)
    unfold Clear at hqy
    rw [h.remove_inner_eq ha]
    generalize hm₁ : m.store 8 (y + field + 8) (endOf field q xs) = m₁
    have hkeep : ∀ z ∈ xs ++ ys, Memory.Same m m₁ (z + field) 16 := by
      intro z hz
      rw [← hm₁]
      rcases List.mem_append.mp hz with hz | hz
      · have hclear := hyx z hz
        exact Memory.same_store (by omega)
      · have hclear := hyy z hz
        exact Memory.same_store (by omega)
    have hkeepq : Memory.Same m m₁ q 16 := by
      rw [← hm₁]
      exact Memory.same_store (by omega)
    have hkeepy : Memory.Same m m₁ (y + field) 8 := by
      rw [← hm₁]
      exact Memory.same_store (by omega)
    have hlinked₁ : Linked field m₁ q xs := hlinked.congr (hkeepq.sub (le_refl q) (by omega))
      (fun z hz => hkeep z (by simp [hz]))
    have hrest₁ : Linked field m₁ (y + field) ys := hrest.2.2.congr hkeepy
      (fun z hz => hkeep z (by simp [hz]))
    refine ⟨linked_append.mpr ⟨?_, ?_, ?_, ?_⟩, ?_, ?_⟩
    · apply hlinked₁.store_end hp
      intro z hz
      have hclear := hqx z hz
      unfold Clear at hclear ⊢
      omega
    · have hlt := ha.bound y (by simp)
      exact Memory.load_store_of_lt (by norm_num; omega)
    · refine (Memory.load_store_of_ne (by omega)).trans ?_
      rw [← hm₁]
      exact Memory.load_store_of_lt (by norm_num; omega)
    · apply hrest₁.congr
      · exact Memory.same_store (by omega)
      · intro z hz
        have hclear := hendy z (by simp [hz])
        exact Memory.same_store (by omega)
    · have hlast : m.load 8 (endOf field (y + field) ys) = 0 := by
        have hlast := h.last
        rw [endOf_append] at hlast
        exact hlast
      rw [endOf_append]
      have hsame : Memory.Same m (m₁.store 8 (endOf field q xs) y)
          (endOf field (y + field) ys) 8 := by
        rcases endOf_cases field (y + field) ys with heq | ⟨z, hz, heq⟩
        · rw [heq]
          exact hkeepy.trans (Memory.same_store (by omega))
        · have hclear := hendy z (by simp [hz])
          have hz₁ := hkeep z (by simp [hz])
          rw [heq]
          exact (hz₁.sub (le_refl _) (by omega)).trans (Memory.same_store (by omega))
      exact hsame.load.trans hlast
    · have hplast := h.plast
      rw [endOf_append] at hplast ⊢
      have hsame : Memory.Same m (m₁.store 8 (endOf field q xs) y) (q + 8) 8 :=
        (hkeepq.sub (by omega) (by omega)).trans (Memory.same_store (by omega))
      exact hsame.load.trans hplast

end Sfslite.Tailq
