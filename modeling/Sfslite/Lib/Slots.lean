import Mathlib.Tactic.Ring

/-!
Elements of one size at consecutive addresses. Memory gives the element that starts at an
address, if one does; two arrays that lie apart are laid over each other.
-/

namespace Sfslite.Lib

variable {α : Type*}

/-- The memory of an array: the elements of `l` in slots of `sz` bytes from the address `p` on. -/
def slots (sz p : ℕ) (l : List α) (q : ℕ) : Option α :=
  if p ≤ q ∧ sz ∣ q - p then l[(q - p) / sz]? else none

/-- What either memory holds. -/
def overlay (m m' : ℕ → Option α) (q : ℕ) : Option α := (m q).or (m' q)

/-- No element of the memory shares a byte with the slot at `p`. -/
def Vacant (sz : ℕ) (m : ℕ → Option α) (p : ℕ) : Prop :=
  ∀ q < p + sz, p < q + sz → m q = none

instance (sz : ℕ) (m : ℕ → Option α) (p : ℕ) : Decidable (Vacant sz m p) :=
  inferInstanceAs (Decidable (∀ q < p + sz, p < q + sz → m q = none))

variable {sz p q d s : ℕ} {l xs ys : List α} {x : α} {m m' : ℕ → Option α}

theorem bytes_cons (x : α) (l : List α) (sz : ℕ) : (x :: l).length * sz = sz + l.length * sz := by
  rw [List.length_cons, Nat.add_mul, Nat.one_mul, Nat.add_comm]

theorem bytes_concat (l : List α) (x : α) (sz : ℕ) :
    (l ++ [x]).length * sz = l.length * sz + sz := by
  rw [List.length_append, List.length_singleton, Nat.add_mul, Nat.one_mul]

theorem slots_at (hsz : 0 < sz) (i : ℕ) : slots sz p l (p + i * sz) = l[i]? := by
  have hdvd : p ≤ p + i * sz ∧ sz ∣ p + i * sz - p := by
    constructor
    · exact Nat.le_add_right _ _
    · rw [Nat.add_sub_cancel_left]
      exact Nat.dvd_mul_left _ _
  rw [slots, if_pos hdvd, Nat.add_sub_cancel_left, Nat.mul_div_cancel _ hsz]

theorem slots_eq_some (hsz : 0 < sz) :
    slots sz p l q = some x ↔ ∃ i, q = p + i * sz ∧ l[i]? = some x := by
  constructor
  · intro h
    unfold slots at h
    split_ifs at h with hq
    obtain ⟨hle, i, hi⟩ := hq
    have hq' : q = p + i * sz := by
      rw [Nat.mul_comm i sz, ← hi]
      omega
    rw [hi, Nat.mul_div_cancel_left _ hsz] at h
    exact ⟨i, hq', h⟩
  · rintro ⟨i, rfl, hi⟩
    rw [slots_at hsz, hi]

@[simp] theorem slots_nil : slots sz p ([] : List α) = fun _ => none := by
  funext q
  simp [slots]

theorem slots_range (hsz : 0 < sz) (h : slots sz p l q ≠ none) :
    p ≤ q ∧ q + sz ≤ p + l.length * sz := by
  obtain ⟨x, hx⟩ := Option.ne_none_iff_exists'.mp h
  obtain ⟨i, rfl, hi⟩ := (slots_eq_some hsz).mp hx
  have hlt : i + 1 ≤ l.length := (List.getElem?_eq_some_iff.mp hi).1
  have hmul : (i + 1) * sz ≤ l.length * sz := Nat.mul_le_mul_right _ hlt
  rw [Nat.add_mul, Nat.one_mul] at hmul
  omega

theorem memory_ext (h : ∀ q x, m q = some x ↔ m' q = some x) : m = m' :=
  funext fun q => Option.ext (h q)

theorem slots_append (hsz : 0 < sz) :
    Function.update (slots sz p l) (p + l.length * sz) (some x) = slots sz p (l ++ [x]) := by
  funext q
  by_cases hq : q = p + l.length * sz
  · subst hq
    rw [Function.update_self, slots_at hsz, List.getElem?_append_right (Nat.le_refl _),
      Nat.sub_self]
    rfl
  · rw [Function.update_of_ne hq]
    refine Option.ext fun y => ?_
    rw [slots_eq_some hsz, slots_eq_some hsz]
    refine exists_congr fun i => and_congr_right fun hi => ?_
    have hne : i ≠ l.length := by
      rintro rfl
      exact hq hi
    rcases Nat.lt_or_ge i l.length with hlt | hge
    · rw [List.getElem?_append_left hlt]
    · rw [List.getElem?_eq_none hge, List.getElem?_eq_none (by simp; omega)]

theorem slots_end (hsz : 0 < sz) : slots sz p l (p + l.length * sz) = none := by
  rw [slots_at hsz, List.getElem?_eq_none (Nat.le_refl _)]

theorem slots_erase_last (hsz : 0 < sz) :
    Function.update (slots sz p (l ++ [x])) (p + l.length * sz) none = slots sz p l := by
  rw [← slots_append hsz, Function.update_idem, Function.update_eq_self_iff]
  exact (slots_end hsz).symm

theorem slots_erase_first (hsz : 0 < sz) :
    Function.update (slots sz p (x :: l)) p none = slots sz (p + sz) l := by
  refine memory_ext fun q y => ?_
  rw [slots_eq_some hsz]
  by_cases hq : q = p
  · subst hq
    rw [Function.update_self]
    constructor
    · exact (nomatch ·)
    · rintro ⟨i, hi, -⟩
      omega
  · rw [Function.update_of_ne hq, slots_eq_some hsz]
    constructor
    · rintro ⟨i, rfl, hi⟩
      cases i with
      | zero =>
        exact absurd (by rw [Nat.zero_mul, Nat.add_zero]) hq
      | succ i =>
        exact ⟨i, by ring, hi⟩
    · rintro ⟨i, rfl, hi⟩
      exact ⟨i + 1, by ring, hi⟩

theorem overlay_write : Function.update (overlay m m') p (some x) =
    overlay (Function.update m p (some x)) m' := by
  funext q
  by_cases hq : q = p
  · subst hq
    simp [overlay]
  · simp [overlay, Function.update_of_ne hq]

theorem overlay_erase (h : m p = none) :
    Function.update (overlay m m') p none = overlay m (Function.update m' p none) := by
  funext q
  by_cases hq : q = p
  · subst hq
    simp [overlay, h]
  · simp [overlay, Function.update_of_ne hq]

@[simp] theorem overlay_none : overlay m (fun _ => none) = m := by
  funext q
  simp [overlay]

@[simp] theorem none_overlay : overlay (fun _ => none) m = m := by
  funext q
  simp [overlay]

theorem vacant_slots (hsz : 0 < sz) (h : q + sz ≤ p ∨ p + l.length * sz ≤ q) :
    Vacant sz (slots sz p l) q := by
  intro r hr hr'
  by_contra hne
  have hrange := slots_range hsz hne
  omega

theorem Vacant.overlay (h : Vacant sz m p) (h' : Vacant sz m' p) : Vacant sz (overlay m m') p := by
  intro q hq hq'
  simp [Lib.overlay, h q hq hq', h' q hq hq']

end Sfslite.Lib
