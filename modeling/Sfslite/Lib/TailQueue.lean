import Sfslite.Lib.Hlist

/-!
Queues whose elements hold the address of the pointer to themselves. A queue also has the address
of the null pointer at its end, where the next element goes.
-/

namespace Sfslite.Lib.Hlist

variable {κ α : Type*}

/-- Where the null pointer behind a list is held. -/
def endOf (p : Place κ α) : List α → Place κ α
  | [] => p
  | a :: l => endOf (.next a) l

theorem endOf_append (p : Place κ α) (l l' : List α) :
    endOf p (l ++ l') = endOf (endOf p l) l' := by
  induction l generalizing p with
  | nil => rfl
  | cons a l ih => exact ih (.next a)

theorem endOf_cases (p : Place κ α) (l : List α) :
    endOf p l = p ∨ ∃ a ∈ l, endOf p l = .next a := by
  induction l generalizing p with
  | nil => exact .inl rfl
  | cons a l ih =>
    rcases ih (.next a) with h | ⟨b, hb, h⟩
    · exact .inr ⟨a, List.mem_cons_self, h⟩
    · exact .inr ⟨b, List.mem_cons_of_mem _ hb, h⟩

theorem Links.IsList.pprev_eq {m : Links κ α} {p : Place κ α} {l₁ l₂ : List α} {a : α}
    (h : m.IsList p (l₁ ++ a :: l₂)) : m.pprev a = endOf p l₁ := by
  induction l₁ generalizing p with
  | nil => exact h.2.1
  | cons b l ih => exact ih h.2.2

/-- The pointers of the queues, one queue for every `k`. -/
structure Queues (κ α : Type*) where
  links : Links κ α
  last : κ → Place κ α

namespace Queues

/-- The elements of each queue. No element is in two queues, or in one of them twice. -/
structure Hold (q : Queues κ α) (Q : κ → List α) : Prop where
  isList : ∀ k, q.links.IsList (.head k) (Q k)
  last : ∀ k, q.last k = endOf (.head k) (Q k)
  nodup : ∀ k, (Q k).Nodup
  disjoint : ∀ j k a, a ∈ Q j → a ∈ Q k → j = k

variable {q : Queues κ α} {Q : κ → List α} {k : κ} {a : α}

theorem Hold.head_eq (h : q.Hold Q) (k : κ) : q.links.head k = (Q k).head? :=
  (h.isList k).get_eq

theorem Hold.get_last (h : q.Hold Q) (k : κ) : q.links.get (q.last k) = none := by
  have hend (p : Place κ α) (l : List α) (hl : q.links.IsList p l) :
      q.links.get (endOf p l) = none := by
    induction l generalizing p with
    | nil => exact hl
    | cons b l ih => exact ih (.next b) hl.2.2
  rw [h.last k]
  exact hend _ _ (h.isList k)

variable [DecidableEq κ] [DecidableEq α]

/-- A pointer is written. -/
def set (m : Links κ α) : Place κ α → Option α → Links κ α
  | .head k, o => { m with head := Function.update m.head k o }
  | .next b, o => { m with next := Function.update m.next b o }

/-- The element `a` goes to the end of the queue `k`. -/
def append (q : Queues κ α) (k : κ) (a : α) : Queues κ α where
  links := set
    { q.links with
      next := Function.update q.links.next a none
      pprev := Function.update q.links.pprev a (q.last k) } (q.last k) (some a)
  last := Function.update q.last k (.next a)

/-- The element `a` goes to the front of the queue `k`. -/
def prepend (q : Queues κ α) (k : κ) (a : α) : Queues κ α where
  links := q.links.push k a
  last := if q.links.head k = none then Function.update q.last k (.next a) else q.last

/-- The element `a` leaves the queue `k`. -/
def remove (q : Queues κ α) (k : κ) (a : α) : Queues κ α where
  links := q.links.unlink a
  last := if q.links.next a = none then Function.update q.last k (q.links.pprev a) else q.last

theorem get_set_of_ne (m : Links κ α) {p p' : Place κ α} (o : Option α) (h : p ≠ p') :
    (set m p o).get p' = m.get p' := by
  cases p with
  | head k =>
    cases p' with
    | head k' => exact Function.update_of_ne (fun heq => h (congrArg _ heq.symm)) _ _
    | next b => rfl
  | next b =>
    cases p' with
    | head k' => rfl
    | next b' => exact Function.update_of_ne (fun heq => h (congrArg _ heq.symm)) _ _

theorem get_set_self (m : Links κ α) (p : Place κ α) (o : Option α) : (set m p o).get p = o := by
  cases p <;> exact Function.update_self _ _ _

theorem pprev_set (m : Links κ α) (p : Place κ α) (o : Option α) : (set m p o).pprev = m.pprev := by
  cases p <;> rfl

theorem isList_append_of_ne {k' : κ} {l : List α} (h : q.links.IsList (.head k') l) (ha : a ∉ l)
    (hhead : q.last k ≠ .head k') (hnext : ∀ b ∈ l, q.last k ≠ .next b) :
    (q.append k a).links.IsList (.head k') l := by
  refine h.congr (get_set_of_ne _ _ hhead) ?_ ?_
  · intro b hb
    have hset : (q.append k a).links.next b = Function.update q.links.next a none b :=
      get_set_of_ne _ (some a) (hnext b hb)
    exact hset.trans (Function.update_of_ne (ne_of_mem_of_not_mem hb ha) _ _)
  · intro b hb
    refine (congrFun (pprev_set _ _ _) b).trans ?_
    exact Function.update_of_ne (ne_of_mem_of_not_mem hb ha) _ _

theorem isList_append_self {p : Place κ α} {l : List α} (h : q.links.IsList p l) (ha : a ∉ l)
    (hl : l.Nodup) (hp : ∀ b ∈ a :: l, p ≠ .next b) (hlast : q.last k = endOf p l) :
    (q.append k a).links.IsList p (l ++ [a]) := by
  have hown : (q.append k a).links.get (.next a) = none := by
    have hne : q.last k ≠ .next a := by
      intro heq
      rcases endOf_cases p l with hend | ⟨b, hb, hend⟩
      · exact hp a List.mem_cons_self (hend.symm.trans (hlast.symm.trans heq))
      · have hba : b = a := Place.next.inj (hend.symm.trans (hlast.symm.trans heq))
        exact ha (hba ▸ hb)
    exact (get_set_of_ne _ _ hne).trans (Function.update_self _ _ _)
  induction l generalizing p with
  | nil =>
    have hlast : q.last k = p := hlast
    refine ⟨?_, ?_, hown⟩
    · rw [← hlast]
      exact get_set_self _ _ _
    · rw [← hlast]
      exact (congrFun (pprev_set _ _ _) a).trans (Function.update_self _ _ _)
  | cons b l ih =>
    obtain ⟨hget, hback, hrest⟩ := h
    obtain ⟨hbl, hl⟩ := List.nodup_cons.mp hl
    have hba : b ≠ a := ne_of_mem_of_not_mem List.mem_cons_self ha
    have hne : q.last k ≠ p := by
      intro heq
      rcases endOf_cases (.next b) l with hend | ⟨c, hc, hend⟩
      · exact hp b (by simp) (heq.symm.trans (hlast.trans hend))
      · exact hp c (by simp [hc]) (heq.symm.trans (hlast.trans hend))
    refine ⟨?_, ?_, ih hrest (fun hmem => ha (List.mem_cons_of_mem _ hmem)) hl ?_ hlast⟩
    · refine (get_set_of_ne _ _ hne).trans ?_
      rw [← hget]
      cases p with
      | head k' => rfl
      | next c => exact Function.update_of_ne (fun heq => hp a (by simp) (congrArg _ heq)) _ _
    · refine (congrFun (pprev_set _ _ _) b).trans ?_
      exact (Function.update_of_ne hba _ _).trans hback
    · rintro c hc heq
      rcases List.mem_cons.mp hc with rfl | hc
      · exact hba (Place.next.inj heq)
      · exact hbl (Place.next.inj heq ▸ hc)

theorem Hold.append (h : q.Hold Q) (k : κ) (ha : ∀ j, a ∉ Q j) :
    (q.append k a).Hold (Function.update Q k (Q k ++ [a])) := by
  have hlast := h.last k
  constructor
  · intro j
    by_cases hj : j = k
    · subst hj
      rw [Function.update_self]
      exact isList_append_self (h.isList j) (ha j) (h.nodup j) (fun _ _ => nofun) hlast
    · rw [Function.update_of_ne hj]
      refine isList_append_of_ne (h.isList j) (ha j) ?_ ?_
      · rw [hlast]
        intro heq
        rcases endOf_cases (.head k) (Q k) with hend | ⟨b, -, hend⟩
        · exact hj (Place.head.inj (heq.symm.trans hend))
        · exact nomatch heq.symm.trans hend
      · rw [hlast]
        intro b hb heq
        rcases endOf_cases (.head k) (Q k) with hend | ⟨c, hc, hend⟩
        · exact nomatch heq.symm.trans hend
        · have hcb : c = b := Place.next.inj (hend.symm.trans heq)
          exact hj (h.disjoint j k b hb (hcb ▸ hc))
  · intro j
    by_cases hj : j = k
    · subst hj
      rw [Function.update_self, endOf_append]
      exact Function.update_self _ _ _
    · rw [Function.update_of_ne hj, ← h.last j]
      exact Function.update_of_ne hj _ _
  · intro j
    by_cases hj : j = k
    · subst hj
      rw [Function.update_self, List.nodup_append]
      refine ⟨h.nodup j, List.nodup_singleton a, fun b hb c hc => ?_⟩
      rw [List.mem_singleton.mp hc]
      exact ne_of_mem_of_not_mem hb (ha j)
    · rw [Function.update_of_ne hj]
      exact h.nodup j
  · have hmem : ∀ j b, b ∈ Function.update Q k (Q k ++ [a]) j → b ∈ Q j ∨ b = a ∧ j = k := by
      intro j b hb
      by_cases hj : j = k
      · subst hj
        rw [Function.update_self, List.mem_append, List.mem_singleton] at hb
        exact hb.imp_right fun hba => ⟨hba, rfl⟩
      · rw [Function.update_of_ne hj] at hb
        exact .inl hb
    intro i j b hi hj
    rcases hmem i b hi with hi | ⟨hba, hik⟩
    · rcases hmem j b hj with hj | ⟨hba, -⟩
      · exact h.disjoint i j b hi hj
      · exact absurd (hba ▸ hi) (ha i)
    · rcases hmem j b hj with hj | ⟨-, hjk⟩
      · exact absurd (hba ▸ hj) (ha j)
      · exact hik.trans hjk.symm

theorem Hold.prepend (h : q.Hold Q) (k : κ) (ha : ∀ j, a ∉ Q j) :
    (q.prepend k a).Hold (Function.update Q k (a :: Q k)) := by
  have hmem (j : κ) (b : α) (hb : b ∈ Function.update Q k (a :: Q k) j) :
      b ∈ Q j ∨ (b = a ∧ j = k) := by
    by_cases hj : j = k
    · subst hj
      rw [Function.update_self] at hb
      rcases List.mem_cons.mp hb with hba | hb
      · exact Or.inr ⟨hba, rfl⟩
      · exact Or.inl hb
    · rw [Function.update_of_ne hj] at hb
      exact Or.inl hb
  constructor
  · intro j
    by_cases hj : j = k
    · subst hj
      rw [Function.update_self]
      exact (h.isList j).push (ha j) (h.nodup j)
    · rw [Function.update_of_ne hj]
      apply (h.isList j).push_of_ne hj (ha j)
      intro b hb hhead
      exact hj (h.disjoint j k b hb ((h.isList k).mem_of_get hhead))
  · intro j
    have hlast := h.last j
    have hhead := h.head_eq k
    by_cases hj : j = k
    · subst hj
      rw [Function.update_self]
      cases hQ : Q j with
      | nil =>
        rw [hQ] at hhead
        exact (congrFun (if_pos hhead) j).trans (Function.update_self _ _ _)
      | cons b l =>
        rw [hQ] at hhead hlast
        have hne : q.links.head j ≠ none := by
          rw [hhead]
          exact nofun
        exact (congrFun (if_neg hne) j).trans hlast
    · rw [Function.update_of_ne hj, ← hlast, Queues.prepend]
      split_ifs
      · exact Function.update_of_ne hj _ _
      · rfl
  · intro j
    by_cases hj : j = k
    · subst hj
      rw [Function.update_self]
      exact List.nodup_cons.mpr ⟨ha j, h.nodup j⟩
    · rw [Function.update_of_ne hj]
      exact h.nodup j
  · intro i j b hi hj
    rcases hmem i b hi with hi | ⟨hba, hik⟩
    · rcases hmem j b hj with hj | ⟨hba, -⟩
      · exact h.disjoint i j b hi hj
      · exact absurd (hba ▸ hi) (ha i)
    · rcases hmem j b hj with hj | ⟨-, hjk⟩
      · exact absurd (hba ▸ hj) (ha j)
      · exact hik.trans hjk.symm

theorem Hold.remove (h : q.Hold Q) (ha : a ∈ Q k) :
    (q.remove k a).Hold (Function.update Q k ((Q k).erase a)) := by
  obtain ⟨l₁, l₂, hsplit⟩ := List.append_of_mem ha
  have hlist := hsplit ▸ h.isList k
  have hnd : (l₁ ++ a :: l₂).Nodup := hsplit ▸ h.nodup k
  have herase : (Q k).erase a = l₁ ++ l₂ := by
    have hnot : a ∉ l₁ := fun hmem =>
      (List.nodup_append.mp hnd).2.2 a hmem a List.mem_cons_self rfl
    rw [hsplit, List.erase_append_right _ hnot, List.erase_cons_head]
  have hnext : q.links.next a = l₂.head? := hlist.next_eq
  have hmem : ∀ j b, b ∈ Function.update Q k ((Q k).erase a) j → b ∈ Q j := by
    intro j b hb
    by_cases hj : j = k
    · subst hj
      rw [Function.update_self] at hb
      exact List.mem_of_mem_erase hb
    · rwa [Function.update_of_ne hj] at hb
  constructor
  · intro j
    by_cases hj : j = k
    · subst hj
      rw [Function.update_self, herase]
      exact hlist.unlink hnd
    · rw [Function.update_of_ne hj]
      refine (h.isList j).unlink_of_notMem (hlist.get_pprev (by simp))
        (fun hmem => hj (h.disjoint j k a hmem ha)) fun b hb heq => ?_
      rw [hnext] at heq
      have hbk : b ∈ Q k := by
        rw [hsplit]
        exact List.mem_append_right _ (List.mem_cons_of_mem _ (List.mem_of_mem_head? heq))
      exact hj (h.disjoint j k b hb hbk)
  · intro j
    have hlast := h.last k
    rw [hsplit, endOf_append] at hlast
    rw [Queues.remove, hnext]
    by_cases hj : j = k
    · subst hj
      rw [Function.update_self, herase, endOf_append]
      cases l₂ with
      | nil =>
        rw [List.head?_nil, if_pos rfl]
        exact (Function.update_self _ _ _).trans hlist.pprev_eq
      | cons b l => exact hlast
    · rw [Function.update_of_ne hj]
      cases l₂ with
      | nil =>
        rw [List.head?_nil, if_pos rfl]
        exact (Function.update_of_ne hj _ _).trans (h.last j)
      | cons b l => exact h.last j
  · intro j
    by_cases hj : j = k
    · subst hj
      rw [Function.update_self]
      exact (h.nodup j).erase a
    · rw [Function.update_of_ne hj]
      exact h.nodup j
  · exact fun i j b hi hj => h.disjoint i j b (hmem i b hi) (hmem j b hj)

end Queues

end Sfslite.Lib.Hlist
