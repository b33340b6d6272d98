import Mathlib.Data.List.Nodup

/-!
Lists whose elements hold the next element and the address of the pointer to themselves. An
element leaves its list without a search, and without knowing which list it is in.
-/

namespace Sfslite.Lib.Hlist

/-- Where a pointer to an element is held: at the front of a list or in an element. -/
inductive Place (κ α : Type*) where
  | head (k : κ)
  | next (a : α)
deriving DecidableEq

/-- The pointers of the lists, one list for every `k`. -/
structure Links (κ α : Type*) where
  head : κ → Option α
  next : α → Option α
  pprev : α → Place κ α

variable {κ α : Type*}

namespace Links

/-- The pointer that is held at a place. -/
def get (m : Links κ α) : Place κ α → Option α
  | .head k => m.head k
  | .next a => m.next a

/-- From the place `p` on, the elements are those of the list, and each holds the address of
the pointer to it. -/
def IsList (m : Links κ α) : Place κ α → List α → Prop
  | p, [] => m.get p = none
  | p, a :: l => m.get p = some a ∧ m.pprev a = p ∧ m.IsList (.next a) l

/-- The elements that follow a pointer, whatever the back pointers are. -/
def Path (m : Links κ α) : Option α → List α → Prop
  | o, [] => o = none
  | o, a :: l => o = some a ∧ m.Path (m.next a) l

variable {m m' : Links κ α} {p : Place κ α} {o : Option α} {l l₁ l₂ : List α} {a b : α}

theorem IsList.behind (h : m.IsList p (l₁ ++ a :: l₂)) : m.IsList (.next a) l₂ := by
  induction l₁ generalizing p with
  | nil => exact h.2.2
  | cons b l ih => exact ih h.2.2

theorem IsList.get_eq (h : m.IsList p l) : m.get p = l.head? := by
  cases l with
  | nil => exact h
  | cons a l => exact h.1

theorem IsList.congr (h : m.IsList p l) (hp : m'.get p = m.get p)
    (hnext : ∀ b ∈ l, m'.next b = m.next b) (hpprev : ∀ b ∈ l, m'.pprev b = m.pprev b) :
    m'.IsList p l := by
  induction l generalizing p with
  | nil => exact hp.trans h
  | cons b l ih =>
    obtain ⟨hget, hback, hrest⟩ := h
    exact ⟨hp.trans hget, (hpprev b List.mem_cons_self).trans hback,
      ih hrest (hnext b List.mem_cons_self)
        (fun c hc => hnext c (List.mem_cons_of_mem _ hc))
        (fun c hc => hpprev c (List.mem_cons_of_mem _ hc))⟩

theorem IsList.path (h : m.IsList p l) : m.Path (m.get p) l := by
  induction l generalizing p with
  | nil => exact h
  | cons a l ih => exact ⟨h.1, ih h.2.2⟩

theorem Path.congr (h : m.Path o l) (hnext : ∀ b ∈ l, m'.next b = m.next b) : m'.Path o l := by
  induction l generalizing o with
  | nil => exact h
  | cons b l ih =>
    refine ⟨h.1, ?_⟩
    rw [hnext b List.mem_cons_self]
    exact ih h.2 fun c hc => hnext c (List.mem_cons_of_mem _ hc)

theorem IsList.get_pprev (h : m.IsList p l) (ha : a ∈ l) : m.get (m.pprev a) = some a := by
  induction l generalizing p with
  | nil => cases ha
  | cons b l ih =>
    obtain ⟨hget, hback, hrest⟩ := h
    rcases List.mem_cons.mp ha with rfl | ha
    · rw [hback, hget]
    · exact ih hrest ha

theorem IsList.pprev_cases (h : m.IsList p l) (ha : a ∈ l) :
    m.pprev a = p ∨ ∃ b ∈ l, m.pprev a = .next b := by
  induction l generalizing p with
  | nil => cases ha
  | cons b l ih =>
    obtain ⟨-, hback, hrest⟩ := h
    rcases List.mem_cons.mp ha with rfl | ha
    · exact .inl hback
    · rcases ih hrest ha with hb | ⟨c, hc, hback⟩
      · exact .inr ⟨b, List.mem_cons_self, hb⟩
      · exact .inr ⟨c, List.mem_cons_of_mem _ hc, hback⟩

theorem IsList.next_eq (h : m.IsList p (l₁ ++ a :: l₂)) : m.next a = l₂.head? :=
  h.behind.get_eq

theorem IsList.mem_of_get (h : m.IsList p l) (ha : m.get p = some a) : a ∈ l :=
  List.mem_of_mem_head? (h.get_eq.symm.trans ha)

section Update

variable [DecidableEq κ] [DecidableEq α] {k k' : κ}

/-- The element `a` becomes the front of the list of `k`. -/
def push (m : Links κ α) (k : κ) (a : α) : Links κ α where
  head := Function.update m.head k (some a)
  next := Function.update m.next a (m.head k)
  pprev b := if b = a then .head k else if m.head k = some b then .next a else m.pprev b

/-- The element `a` leaves its list. -/
def unlink (m : Links κ α) (a : α) : Links κ α where
  head k := if m.pprev a = .head k then m.next a else m.head k
  next b := if m.pprev a = .next b then m.next a else m.next b
  pprev b := if m.next a = some b then m.pprev a else m.pprev b

section

variable (m) (k : κ) (a b : α)

@[simp] theorem head_push : (m.push k a).head = Function.update m.head k (some a) := rfl

@[simp] theorem next_push : (m.push k a).next b = if b = a then m.head k else m.next b := by
  simp only [push, Function.update_apply]

@[simp] theorem pprev_push : (m.push k a).pprev b =
    if b = a then .head k else if m.head k = some b then .next a else m.pprev b := rfl

@[simp] theorem head_unlink :
    (m.unlink a).head k = if m.pprev a = .head k then m.next a else m.head k := rfl

@[simp] theorem next_unlink :
    (m.unlink a).next b = if m.pprev a = .next b then m.next a else m.next b := rfl

@[simp] theorem pprev_unlink :
    (m.unlink a).pprev b = if m.next a = some b then m.pprev a else m.pprev b := rfl

end

theorem IsList.push_of_ne (h : m.IsList (.head k') l) (hk : k' ≠ k) (ha : a ∉ l)
    (hfront : ∀ b ∈ l, m.head k ≠ some b) : (m.push k a).IsList (.head k') l := by
  refine h.congr (Function.update_of_ne hk _ _) ?_ ?_
  · intro b hb
    exact Function.update_of_ne (ne_of_mem_of_not_mem hb ha) _ _
  · intro b hb
    simp only [Links.push, if_neg (ne_of_mem_of_not_mem hb ha), if_neg (hfront b hb)]

theorem IsList.push (h : m.IsList (.head k) l) (ha : a ∉ l) (hl : l.Nodup) :
    (m.push k a).IsList (.head k) (a :: l) := by
  refine ⟨Function.update_self _ _ _, if_pos rfl, ?_⟩
  have hnext : (m.push k a).get (.next a) = m.head k := Function.update_self _ _ _
  cases l with
  | nil => exact hnext.trans h
  | cons b l =>
    obtain ⟨hget, hback, hrest⟩ := h
    have hhead : m.head k = some b := hget
    have hba : b ≠ a := ne_of_mem_of_not_mem List.mem_cons_self ha
    obtain ⟨hbl, hl⟩ := List.nodup_cons.mp hl
    refine ⟨hnext.trans hget, ?_, ?_⟩
    · simp only [Links.push, if_neg hba, if_pos hhead]
    · have hal : a ∉ l := fun hmem => ha (List.mem_cons_of_mem _ hmem)
      refine hrest.congr (Function.update_of_ne hba _ _) ?_ ?_
      · intro c hc
        exact Function.update_of_ne (ne_of_mem_of_not_mem hc hal) _ _
      · intro c hc
        have hbc : m.head k ≠ some c := by
          rw [hhead]
          exact fun heq => hbl (Option.some.inj heq ▸ hc)
        simp only [Links.push, if_neg (ne_of_mem_of_not_mem hc hal), if_neg hbc]

theorem Path.push (h : m.Path o l) (ha : a ∉ l) : (m.push k a).Path o l :=
  h.congr fun _ hb => Function.update_of_ne (ne_of_mem_of_not_mem hb ha) _ _

theorem IsList.unlink_of_notMem (h : m.IsList p l) (hself : m.get (m.pprev a) = some a)
    (ha : a ∉ l) (hnext : ∀ b ∈ l, m.next a ≠ some b) : (m.unlink a).IsList p l := by
  have hplace : ∀ q, m.get q ≠ some a → (m.unlink a).get q = m.get q := by
    intro q hq
    have hne : m.pprev a ≠ q := fun heq => hq (heq ▸ hself)
    cases q with
    | head k => exact if_neg hne
    | next b => exact if_neg hne
  induction l generalizing p with
  | nil =>
    have hget : m.get p = none := h
    exact (hplace p (by rw [hget]; exact nofun)).trans hget
  | cons b l ih =>
    obtain ⟨hget, hback, hrest⟩ := h
    have hba : b ≠ a := ne_of_mem_of_not_mem List.mem_cons_self ha
    refine ⟨(hplace p ?_).trans hget, ?_, ?_⟩
    · rw [hget]
      exact fun heq => hba (Option.some.inj heq)
    · exact (if_neg (hnext b List.mem_cons_self)).trans hback
    · exact ih hrest (fun hmem => ha (List.mem_cons_of_mem _ hmem))
        fun c hc => hnext c (List.mem_cons_of_mem _ hc)

theorem IsList.unlink (h : m.IsList p (l₁ ++ a :: l₂)) (hl : (l₁ ++ a :: l₂).Nodup) :
    (m.unlink a).IsList p (l₁ ++ l₂) := by
  have hself : m.get (m.pprev a) = some a := h.get_pprev (by simp)
  have hnext : m.next a = l₂.head? := h.next_eq
  induction l₁ generalizing p with
  | nil =>
    obtain ⟨hget, hback, hrest⟩ := h
    obtain ⟨ha, hl₂⟩ := List.nodup_cons.mp hl
    have hp : (m.unlink a).get p = m.next a := by
      cases p with
      | head k => exact if_pos hback
      | next b => exact if_pos hback
    cases l₂ with
    | nil => exact hp.trans hnext
    | cons b l =>
      obtain ⟨-, hbackb, hrest⟩ := hrest
      obtain ⟨hb, -⟩ := List.nodup_cons.mp hl₂
      refine ⟨hp.trans hnext, ?_, ?_⟩
      · exact (if_pos hnext).trans hback
      · refine hrest.unlink_of_notMem hself (fun hmem => ha (List.mem_cons_of_mem _ hmem)) ?_
        intro c hc heq
        rw [hnext] at heq
        exact hb (Option.some.inj heq ▸ hc)
  | cons c l ih =>
    obtain ⟨hget, hback, hrest⟩ := h
    obtain ⟨hc, hl⟩ := List.nodup_cons.mp hl
    have hca : c ≠ a := fun heq => hc (heq ▸ by simp)
    have hplace : m.pprev a ≠ p := by
      intro heq
      rw [heq, hget] at hself
      exact hca (Option.some.inj hself)
    refine ⟨?_, ?_, ih hrest hl⟩
    · rw [← hget]
      cases p with
      | head k => exact if_neg hplace
      | next b => exact if_neg hplace
    · refine (if_neg ?_).trans hback
      rw [hnext]
      intro heq
      exact hc (List.mem_append_right _ (List.mem_cons_of_mem _ (List.mem_of_mem_head? heq)))

end Update

/-- The first `n` lists share the elements of `L`, in the order of `L`: each element is in the
list that its key names. -/
structure Buckets (m : Links κ α) (slot : ℕ → κ) (n : ℕ) (key : α → ℕ) (L : List α) : Prop where
  nodup : L.Nodup
  isList : ∀ j < n, m.IsList (.head (slot j)) (L.filter fun a => key a = j)

variable {slot : ℕ → κ} {n : ℕ} {key key' : α → ℕ} {L : List α}

theorem Buckets.nil (h : ∀ j < n, m.head (slot j) = none) : m.Buckets slot n key [] :=
  ⟨List.nodup_nil, h⟩

theorem Buckets.congr_key (h : m.Buckets slot n key L) (hkey : ∀ a ∈ L, key' a = key a) :
    m.Buckets slot n key' L := by
  refine ⟨h.nodup, fun j hj => ?_⟩
  have heq : (L.filter fun a => key' a = j) = L.filter fun a => key a = j :=
    List.filter_congr fun a ha => by rw [hkey a ha]
  rw [heq]
  exact h.isList j hj

theorem Buckets.perm (h : m.Buckets slot n key L) (hkey : ∀ a ∈ L, key a < n) :
    ((List.range n).flatMap fun j => L.filter fun a => key a = j).Perm L := by
  refine (List.perm_ext_iff_of_nodup (List.nodup_flatMap.mpr ⟨?_, ?_⟩) h.nodup).mpr ?_
  · intro j _
    exact h.nodup.filter _
  · refine List.nodup_range.imp ?_
    intro i j hij a hi hj
    have hkeyi : key a = i := by simpa using (List.mem_filter.mp hi).2
    have hkeyj : key a = j := by simpa using (List.mem_filter.mp hj).2
    exact hij (hkeyi.symm.trans hkeyj)
  · intro a
    simp only [List.mem_flatMap, List.mem_range, List.mem_filter, decide_eq_true_eq]
    constructor
    · rintro ⟨j, -, ha, -⟩
      exact ha
    · intro ha
      exact ⟨key a, hkey a ha, ha, rfl⟩

section Update

variable [DecidableEq κ] [DecidableEq α]

theorem Buckets.push (h : m.Buckets slot n key L) (hslot : Function.Injective slot)
    (hlt : key a < n) (ha : a ∉ L) : (m.push (slot (key a)) a).Buckets slot n key (a :: L) := by
  refine ⟨List.nodup_cons.mpr ⟨ha, h.nodup⟩, ?_⟩
  intro j hj
  have haj : a ∉ L.filter fun b => key b = j := fun hmem => ha (List.mem_filter.mp hmem).1
  by_cases hkey : key a = j
  · rw [List.filter_cons_of_pos (by simpa using hkey), hkey]
    exact (h.isList j hj).push haj (h.nodup.filter _)
  · rw [List.filter_cons_of_neg (by simpa using hkey)]
    refine (h.isList j hj).push_of_ne (fun heq => hkey (hslot heq).symm) haj ?_
    intro b hb hfront
    have hmem := (h.isList (key a) hlt).mem_of_get hfront
    have hkeyb : key b = key a := by simpa using (List.mem_filter.mp hmem).2
    have hkeyj : key b = j := by simpa using (List.mem_filter.mp hb).2
    exact hkey (hkeyb.symm.trans hkeyj)

theorem Buckets.unlink (h : m.Buckets slot n key L) (hlt : key a < n) (ha : a ∈ L) :
    (m.unlink a).Buckets slot n key (L.filter (· ≠ a)) := by
  refine ⟨h.nodup.filter _, ?_⟩
  intro j hj
  have hown := h.isList (key a) hlt
  obtain ⟨l₁, l₂, hsplit⟩ := List.append_of_mem
    (List.mem_filter.mpr ⟨ha, decide_eq_true rfl⟩ : a ∈ L.filter fun b => key b = key a)
  have hnd : (l₁ ++ a :: l₂).Nodup := hsplit ▸ h.nodup.filter _
  rw [hsplit] at hown
  rw [List.filter_comm]
  by_cases hkey : key a = j
  · have hne : a ∉ l₁ ++ l₂ := (List.nodup_cons.mp (List.nodup_middle.mp hnd)).1
    have hdrop : (l₁ ++ a :: l₂).filter (· ≠ a) = l₁ ++ l₂ := by
      rw [List.filter_append, List.filter_cons_of_neg (by simp), ← List.filter_append,
        List.filter_eq_self]
      exact fun b hb => decide_eq_true (ne_of_mem_of_not_mem hb hne)
    rw [← hkey, hsplit, hdrop]
    exact hown.unlink hnd
  · have hkeys : ∀ b ∈ L.filter (fun b => key b = j), key b ≠ key a := by
      intro b hb heq
      have hkeyb : key b = j := by simpa using (List.mem_filter.mp hb).2
      exact hkey (heq.symm.trans hkeyb)
    have hstay : (L.filter fun b => key b = j).filter (· ≠ a) = L.filter fun b => key b = j :=
      List.filter_eq_self.mpr fun b hb => decide_eq_true fun heq => hkeys b hb (heq ▸ rfl)
    rw [hstay]
    refine (h.isList j hj).unlink_of_notMem (hown.get_pprev (by simp))
      (fun hmem => hkeys a hmem rfl) ?_
    intro b hb hnext
    rw [hown.next_eq] at hnext
    have hmem : b ∈ L.filter fun b => key b = key a := by
      rw [hsplit]
      exact List.mem_append_right _ (List.mem_cons_of_mem _ (List.mem_of_mem_head? hnext))
    exact hkeys b hb (by simpa using (List.mem_filter.mp hmem).2)

end Update

end Links

end Sfslite.Lib.Hlist
