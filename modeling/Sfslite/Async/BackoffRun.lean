import Sfslite.Async.Backoff

/-!
What happens to the entries of the retransmission queues. The queues are in the order of the
deadlines, and the one timer of a queue is asked for no later than its first deadline.
-/

namespace Sfslite.Async.Backoff

open Sfslite.Lib Sfslite.Lib.Hlist State

/-- What can happen to an entry. It is sent by `start`, and then by runs of the queues: the
`k + 1`-st time `minto * 2 ^ k` behind the `k`-th or later; and so it times out, when it was sent
`maxsend` times. One that is removed while it waits is only heard of when it is started again. -/
inductive History (P : Params) : List Mark → Prop
  | new : History P []
  | start {l : List Mark} (base : ℕ) : History P l → lastSent l = none →
      History P (l ++ [.started, .sent 0 base base])
  | resend {l : List Mark} {k b base now : ℕ} : History P l → lastSent l = some (k, b) →
      k + 1 < P.maxsend → b + P.minto * 2 ^ k ≤ base → base ≤ now →
      History P (l ++ [.sent (k + 1) base now])
  | timeout {l : List Mark} {k b base : ℕ} : History P l → lastSent l = some (k, b) →
      k + 1 = P.maxsend → b + P.minto * 2 ^ k ≤ base → History P (l ++ [.timedOut base])
  | remove {l : List Mark} : History P l → lastSent l ≠ none → History P (l ++ [.removed])

theorem lastSent_append (l : List Mark) (m : Mark) : lastSent (l ++ [m]) = lastSent [m] := by
  rw [lastSent, List.getLast?_concat]
  rfl

variable {P : Params}

theorem delay_eq {k : ℕ} (hk : k < P.maxsend) : delay P k = P.minto * 2 ^ k := by
  have hle : P.minto * 2 ^ k ≤ P.minto * 2 ^ (P.maxsend - 1) :=
    Nat.mul_le_mul_left _ (Nat.pow_le_pow_right (by decide) (by omega))
  have hfits := P.fits
  rw [Nat.shiftLeft_eq] at hfits
  rw [delay, Nat.shiftLeft_eq, Nat.mod_eq_of_lt (Nat.lt_of_le_of_lt hle hfits)]

theorem delay_pos {k : ℕ} (hk : k < P.maxsend) : 0 < delay P k := by
  rw [delay_eq hk]
  exact Nat.mul_pos P.minto_pos (Nat.pow_pos (by decide))

/-- A deadline of the queue `k`, or the time its timer was asked for: what is now put into the
queue is not due before it. `R` has the runs that have not returned. -/
def Upto (P : Params) (s : State) (R : ℕ → ℕ → Prop) (k t : ℕ) : Prop :=
  t ≤ s.clock + delay P k ∧ ∀ j now, R j now → j + 1 = k → t ≤ s.base now + delay P k

/-- What holds of the queues `Q` and of the timers. -/
structure Lists (P : Params) (s : State) (R : ℕ → ℕ → Prop) (Q : ℕ → List ℕ) : Prop where
  hold : s.queue.Hold Q
  qno : ∀ k, ∀ p ∈ Q k, s.qno p = k ∧ k < P.maxsend
  sorted : ∀ k, (Q k).Pairwise fun p p' => s.tm p ≤ s.tm p'
  upto : ∀ k, ∀ p ∈ Q k, Upto P s R k (s.tm p)
  run : ∀ k now, R k now → now ≤ s.clock
  timers : (s.timers.map Prod.snd).Nodup
  timersUpto : ∀ t k, (t, k) ∈ s.timers → Upto P s R k t
  pending : ∀ k, s.pending k = true → ∃ t, (t, k) ∈ s.timers ∧ ∀ p ∈ Q k, t ≤ s.tm p
  idle : ∀ k, s.pending k = false →
    (∀ t, (t, k) ∉ s.timers) ∧ (Q k = [] ∨ ∃ now, R k now)

section Lists

variable {s : State} {R : ℕ → ℕ → Prop} {Q : ℕ → List ℕ} {k p : ℕ}

theorem Lists.mark (h : Lists P s R Q) (m : Mark) : Lists P (s.mark p m) R Q :=
  { h with }

theorem Lists.stack (h : Lists P s R Q) (stack : List Frame) :
    Lists P { s with stack := stack } R Q :=
  { h with }

theorem Lists.runs {R' : ℕ → ℕ → Prop} (h : Lists P s R Q) (hR : ∀ j now, R' j now → R j now)
    (hidle : ∀ j now, R j now → R' j now ∨ s.pending j = true ∨ Q j = []) : Lists P s R' Q := by
  have hupto : ∀ k t, Upto P s R k t → Upto P s R' k t :=
    fun k t ht => ⟨ht.1, fun j now hj => ht.2 j now (hR j now hj)⟩
  refine ⟨h.hold, h.qno, h.sorted, fun k p hp => hupto k _ (h.upto k p hp),
    fun j now hj => h.run j now (hR j now hj), h.timers,
    fun t k ht => hupto k t (h.timersUpto t k ht), h.pending, fun k hk => ?_⟩
  refine ⟨(h.idle k hk).1, ?_⟩
  rcases (h.idle k hk).2 with hnil | ⟨now, hnow⟩
  · exact .inl hnil
  · rcases hidle k now hnow with hrun | hp | hnil
    · exact .inr ⟨now, hrun⟩
    · exact absurd (hk.symm.trans hp) nofun
    · exact .inl hnil

theorem Lists.schedq (h : Lists P s R Q) (k : ℕ) :
    Lists P (s.schedq k) R Q ∧ ((s.schedq k).pending k = true ∨ Q k = []) := by
  rw [State.schedq]
  split
  · next hk => exact ⟨h, .inl hk⟩
  next hk =>
  have hk : s.pending k = false := Bool.not_eq_true _ ▸ hk
  have hhead := h.hold.head_eq k
  split
  · next hnone =>
    rw [hnone] at hhead
    exact ⟨h, .inr (List.head?_eq_none_iff.mp hhead.symm)⟩
  next p hsome =>
  rw [hsome] at hhead
  obtain ⟨l, hl⟩ := List.head?_eq_some_iff.mp hhead.symm
  refine ⟨⟨h.hold, h.qno, h.sorted, h.upto, h.run, ?_, ?_, ?_, ?_⟩,
    .inl (Function.update_self _ _ _)⟩
  · rw [List.map_append, List.nodup_append]
    refine ⟨h.timers, List.nodup_singleton _, fun j hj i hi => ?_⟩
    obtain ⟨⟨t, j⟩, ht, rfl⟩ := List.mem_map.mp hj
    rw [List.mem_singleton.mp hi]
    rintro rfl
    exact (h.idle j hk).1 t ht
  · intro t j ht
    rcases List.mem_append.mp ht with ht | ht
    · exact h.timersUpto t j ht
    · cases List.mem_singleton.mp ht
      exact h.upto k p (hl ▸ List.mem_cons_self)
  · intro j hj
    by_cases hjk : j = k
    · subst hjk
      refine ⟨s.tm p, List.mem_append_right _ (List.mem_singleton.mpr rfl), fun p' hp' => ?_⟩
      rw [hl] at hp'
      rcases List.mem_cons.mp hp' with rfl | hp'
      · exact Nat.le_refl _
      · have hsorted := h.sorted j
        rw [hl] at hsorted
        exact (List.pairwise_cons.mp hsorted).1 p' hp'
    · obtain ⟨t, ht, hle⟩ := h.pending j ((Function.update_of_ne hjk _ _).symm.trans hj)
      exact ⟨t, List.mem_append_left _ ht, hle⟩
  · intro j hj
    by_cases hjk : j = k
    · subst hjk
      exact absurd ((Function.update_self _ _ _).symm.trans hj) nofun
    · obtain ⟨hnot, hidle⟩ := h.idle j ((Function.update_of_ne hjk _ _).symm.trans hj)
      refine ⟨fun t ht => ?_, hidle⟩
      rcases List.mem_append.mp ht with ht | ht
      · exact hnot t ht
      · exact hjk (congrArg Prod.snd (List.mem_singleton.mp ht))

/-- A run of the queue `k` that starts now. -/
def withRun (s : State) (R : ℕ → ℕ → Prop) (k : ℕ) : ℕ → ℕ → Prop :=
  fun j now => R j now ∨ j = k ∧ now = s.clock

theorem base_clock (s : State) : s.base s.clock = s.clock := by
  rw [State.base]
  split
  · rfl
  · rfl

theorem Upto.withRun {t j : ℕ} (h : Upto P s R j t) : Upto P s (withRun s R k) j t := by
  refine ⟨h.1, fun i now hi hij => ?_⟩
  rcases hi with hi | ⟨-, rfl⟩
  · exact h.2 i now hi hij
  · rw [base_clock]
    exact h.1

theorem Lists.withRun (h : Lists P s R Q) (k : ℕ) : Lists P s (withRun s R k) Q := by
  refine ⟨h.hold, h.qno, h.sorted, fun j p hp => (h.upto j p hp).withRun, ?_, h.timers,
    fun t j ht => (h.timersUpto t j ht).withRun, h.pending, fun j hj => ?_⟩
  · rintro j now (hj | ⟨-, rfl⟩)
    · exact h.run j now hj
    · exact Nat.le_refl _
  · exact ⟨(h.idle j hj).1, (h.idle j hj).2.imp_right fun ⟨now, hnow⟩ => ⟨now, .inl hnow⟩⟩

theorem Lists.fire (h : Lists P s R Q) {t : ℕ} (ht : (t, k) ∈ s.timers) :
    Lists P
      { s with
        timers := s.timers.erase (t, k)
        pending := Function.update s.pending k false } (Backoff.withRun s R k) Q := by
  have hw := h.withRun k
  have hsub : (s.timers.erase (t, k)).Sublist s.timers := List.erase_sublist
  refine ⟨h.hold, h.qno, h.sorted, hw.upto, hw.run, h.timers.sublist (hsub.map _),
    fun u j hu => hw.timersUpto u j (hsub.subset hu), fun j hj => ?_, fun j hj => ?_⟩
  · by_cases hjk : j = k
    · subst hjk
      exact absurd ((Function.update_self _ _ _).symm.trans hj) nofun
    · obtain ⟨u, hu, hle⟩ := h.pending j ((Function.update_of_ne hjk _ _).symm.trans hj)
      have hne : (u, j) ≠ (t, k) := fun heq => hjk (congrArg Prod.snd heq)
      exact ⟨u, (List.mem_erase_of_ne hne).mpr hu, hle⟩
  · by_cases hjk : j = k
    · subst hjk
      refine ⟨fun u hu => ?_, .inr ⟨s.clock, .inr ⟨rfl, rfl⟩⟩⟩
      have hperm := (List.perm_cons_erase ht).map Prod.snd
      have hnd := hperm.nodup_iff.mp h.timers
      exact (List.nodup_cons.mp hnd).1 (List.mem_map.mpr ⟨(u, j), hu, rfl⟩)
    · have hidle := hw.idle j ((Function.update_of_ne hjk _ _).symm.trans hj)
      exact ⟨fun u hu => hidle.1 u (hsub.subset hu), hidle.2⟩

theorem Lists.tick (h : Lists P s R Q) (d : ℕ) : Lists P { s with clock := s.clock + d } R Q := by
  have hbase : ∀ now, s.base now ≤ State.base { s with clock := s.clock + d } now := by
    intro now
    rw [State.base, State.base]
    split
    · exact Nat.le_add_right _ _
    · exact Nat.le_refl _
  have hupto : ∀ j t, Upto P s R j t → Upto P { s with clock := s.clock + d } R j t := by
    intro j t ht
    refine ⟨Nat.le_trans ht.1 (Nat.add_le_add_right (Nat.le_add_right _ _) _),
      fun i now hi hij => ?_⟩
    exact Nat.le_trans (ht.2 i now hi hij) (Nat.add_le_add_right (hbase now) _)
  exact { h with
    upto := fun j p hp => hupto j _ (h.upto j p hp)
    run := fun j now hj => Nat.le_trans (h.run j now hj) (Nat.le_add_right _ _)
    timersUpto := fun t j ht => hupto j t (h.timersUpto t j ht) }

theorem Lists.append (h : Lists P s R Q) {b : ℕ} (hk : k < P.maxsend) (hp : ∀ j, p ∉ Q j)
    (hrun : ∃ now, R k now) (hle : ∀ t, Upto P s R k t → t ≤ b) (hupto : Upto P s R k b) :
    Lists P
      { s with
        qno := Function.update s.qno p k
        tm := Function.update s.tm p b
        queue := s.queue.append k p } R (Function.update Q k (Q k ++ [p])) := by
  have hne : ∀ j, ∀ p' ∈ Q j, p' ≠ p := fun j p' hp' => ne_of_mem_of_not_mem hp' (hp j)
  have htm : ∀ j, ∀ p' ∈ Q j, Function.update s.tm p b p' = s.tm p' :=
    fun j p' hp' => Function.update_of_ne (hne j p' hp') _ _
  have hmem : ∀ j p', p' ∈ Function.update Q k (Q k ++ [p]) j → p' ∈ Q j ∨ j = k ∧ p' = p := by
    intro j p' hp'
    by_cases hj : j = k
    · subst hj
      rw [Function.update_self, List.mem_append, List.mem_singleton] at hp'
      exact hp'.imp_right fun heq => ⟨rfl, heq⟩
    · rw [Function.update_of_ne hj] at hp'
      exact .inl hp'
  refine ⟨h.hold.append k hp, ?_, ?_, ?_, h.run, h.timers, h.timersUpto, ?_, ?_⟩
  · intro j p' hp'
    rcases hmem j p' hp' with hp' | ⟨rfl, rfl⟩
    · exact ⟨(Function.update_of_ne (hne j p' hp') _ _).trans (h.qno j p' hp').1,
        (h.qno j p' hp').2⟩
    · exact ⟨Function.update_self _ _ _, hk⟩
  · intro j
    by_cases hj : j = k
    · subst hj
      rw [Function.update_self, List.pairwise_append]
      refine ⟨(h.sorted j).imp_of_mem ?_, List.pairwise_singleton _ _, ?_⟩
      · intro p₁ p₂ h₁ h₂ hle
        dsimp only
        rw [htm j p₁ h₁, htm j p₂ h₂]
        exact hle
      · intro p₁ h₁ p₂ h₂
        dsimp only
        rw [List.mem_singleton.mp h₂, htm j p₁ h₁, Function.update_self]
        exact hle _ (h.upto j p₁ h₁)
    · rw [Function.update_of_ne hj]
      refine (h.sorted j).imp_of_mem ?_
      intro p₁ p₂ h₁ h₂ hle
      dsimp only
      rw [htm j p₁ h₁, htm j p₂ h₂]
      exact hle
  · intro j p' hp'
    dsimp only
    rcases hmem j p' hp' with hp' | ⟨rfl, rfl⟩
    · rw [htm j p' hp']
      exact h.upto j p' hp'
    · rw [Function.update_self]
      exact hupto
  · intro j hj
    obtain ⟨t, ht, hle'⟩ := h.pending j hj
    refine ⟨t, ht, fun p' hp' => ?_⟩
    dsimp only
    rcases hmem j p' hp' with hp' | ⟨rfl, rfl⟩
    · rw [htm j p' hp']
      exact hle' p' hp'
    · rw [Function.update_self]
      exact hle t (h.timersUpto t j ht)
  · intro j hj
    obtain ⟨hnot, hidle⟩ := h.idle j hj
    refine ⟨hnot, ?_⟩
    by_cases hjk : j = k
    · exact .inr (hjk ▸ hrun)
    · rw [Function.update_of_ne hjk]
      exact hidle

theorem Lists.remove (h : Lists P s R Q) (hp : p ∈ Q k) :
    Lists P (s.remove P p) R (Function.update Q k ((Q k).erase p)) := by
  obtain ⟨hqno, hk⟩ := h.qno k p hp
  rw [State.remove, if_pos (hqno.symm ▸ hk), hqno]
  have hsub : ∀ j, (Function.update Q k ((Q k).erase p) j).Sublist (Q j) := by
    intro j
    by_cases hj : j = k
    · subst hj
      rw [Function.update_self]
      exact List.erase_sublist
    · rw [Function.update_of_ne hj]
  refine ⟨h.hold.remove hp, fun j p' hp' => h.qno j p' ((hsub j).subset hp'),
    fun j => (h.sorted j).sublist (hsub j), fun j p' hp' => h.upto j p' ((hsub j).subset hp'),
    h.run, h.timers, h.timersUpto, fun j hj => ?_, fun j hj => ?_⟩
  · obtain ⟨t, ht, hle⟩ := h.pending j hj
    exact ⟨t, ht, fun p' hp' => hle p' ((hsub j).subset hp')⟩
  · refine ⟨(h.idle j hj).1, (h.idle j hj).2.imp_left fun hnil => ?_⟩
    have hnil' := hsub j
    rw [hnil] at hnil'
    exact List.sublist_nil.mp hnil'

end Lists

section Fields

variable (s : State) (k p now : ℕ)

@[simp] theorem schedq_log : (s.schedq k).log = s.log := by
  rw [State.schedq]
  split
  · rfl
  · split <;> rfl

@[simp] theorem schedq_tm : (s.schedq k).tm = s.tm := by
  rw [State.schedq]
  split
  · rfl
  · split <;> rfl

@[simp] theorem schedq_qno : (s.schedq k).qno = s.qno := by
  rw [State.schedq]
  split
  · rfl
  · split <;> rfl

@[simp] theorem schedq_clock : (s.schedq k).clock = s.clock := by
  rw [State.schedq]
  split
  · rfl
  · split <;> rfl

@[simp] theorem schedq_stack : (s.schedq k).stack = s.stack := by
  rw [State.schedq]
  split
  · rfl
  · split <;> rfl

@[simp] theorem insert_log : (s.insert P p k now).log =
    Function.update s.log p (s.log p ++ [.sent k (s.base now) s.clock]) := by
  simp only [State.insert, State.mark, schedq_log]

@[simp] theorem insert_tm :
    (s.insert P p k now).tm = Function.update s.tm p (s.base now + delay P k) := by
  simp only [State.insert, State.mark, schedq_tm]

@[simp] theorem insert_qno : (s.insert P p k now).qno = Function.update s.qno p k := by
  simp only [State.insert, State.mark, schedq_qno]

@[simp] theorem insert_clock : (s.insert P p k now).clock = s.clock := by
  simp only [State.insert, State.mark, schedq_clock]

@[simp] theorem insert_stack : (s.insert P p k now).stack = s.stack := by
  simp only [State.insert, State.mark, schedq_stack]

@[simp] theorem remove_log : (s.remove P p).log = s.log := by
  rw [State.remove]
  split <;> rfl

@[simp] theorem remove_tm : (s.remove P p).tm = s.tm := by
  rw [State.remove]
  split <;> rfl

@[simp] theorem remove_qno : (s.remove P p).qno = s.qno := by
  rw [State.remove]
  split <;> rfl

@[simp] theorem remove_clock : (s.remove P p).clock = s.clock := by
  rw [State.remove]
  split <;> rfl

@[simp] theorem remove_stack : (s.remove P p).stack = s.stack := by
  rw [State.remove]
  split <;> rfl

end Fields

section Steps

variable {s s' : State} {R : ℕ → ℕ → Prop} {Q Q' : ℕ → List ℕ} {k p now : ℕ}

variable (now) in
theorem Lists.insert (h : Lists P s R Q) (hk : k < P.maxsend) (hp : ∀ j, p ∉ Q j)
    (hle : ∀ t, Upto P s R k t → t ≤ s.base now + delay P k)
    (hupto : Upto P s R k (s.base now + delay P k)) :
    Lists P (s.insert P p k now) R (Function.update Q k (Q k ++ [p])) := by
  have hw := (h.withRun k).append (P := P) hk hp ⟨s.clock, .inr ⟨rfl, rfl⟩⟩
    (fun t ht => hle t ⟨ht.1, fun j now hj => ht.2 j now (.inl hj)⟩) hupto.withRun
  obtain ⟨hsched, hpending⟩ := hw.schedq k
  refine (hsched.runs (fun j now hj => .inl hj) ?_).mark _
  rintro j now (hj | ⟨rfl, -⟩)
  · exact .inl hj
  · exact .inr hpending

/-- What an entry remembers and where it is. -/
structure Entry (P : Params) (s : State) (Q : ℕ → List ℕ) (p : ℕ) : Prop where
  history : History P (s.log p)
  queued : ∀ k, p ∈ Q k ↔ ∃ b, lastSent (s.log p) = some (k, b)
  tm : ∀ k b, lastSent (s.log p) = some (k, b) → s.tm p = b + delay P k
  qno : lastSent (s.log p) = none → (s.log p).getLast? ≠ some .removed → P.maxsend ≤ s.qno p

theorem Entry.congr (h : Entry P s Q p) (hlog : s'.log p = s.log p) (htm : s'.tm p = s.tm p)
    (hqno : s'.qno p = s.qno p) (hQ : ∀ k, p ∈ Q' k ↔ p ∈ Q k) : Entry P s' Q' p := by
  refine ⟨?_, fun k => ?_, ?_, ?_⟩
  · rw [hlog]
    exact h.history
  · rw [hlog, hQ k]
    exact h.queued k
  · rw [hlog, htm]
    exact h.tm
  · rw [hlog, hqno]
    exact h.qno

theorem Entry.not_queued (h : Entry P s Q p) (hlast : lastSent (s.log p) = none) (k : ℕ) :
    p ∉ Q k := by
  intro hp
  obtain ⟨b, hb⟩ := (h.queued k).mp hp
  exact absurd (hlast.symm.trans hb) nofun

theorem mem_update_append {p' j : ℕ} (hne : p' ≠ p) :
    p' ∈ Function.update Q k (Q k ++ [p]) j ↔ p' ∈ Q j := by
  by_cases hj : j = k
  · subst hj
    rw [Function.update_self, List.mem_append, List.mem_singleton, or_iff_left hne]
  · rw [Function.update_of_ne hj]

theorem mem_update_erase {p' j : ℕ} (hne : p' ≠ p) :
    p' ∈ Function.update Q k ((Q k).erase p) j ↔ p' ∈ Q j := by
  by_cases hj : j = k
  · subst hj
    rw [Function.update_self, List.mem_erase_of_ne hne]
  · rw [Function.update_of_ne hj]

theorem Lists.not_mem_erase (h : Lists P s R Q) (hp : p ∈ Q k) (j : ℕ) :
    p ∉ Function.update Q k ((Q k).erase p) j := by
  by_cases hj : j = k
  · subst hj
    rw [Function.update_self]
    exact (h.hold.nodup j).not_mem_erase
  · rw [Function.update_of_ne hj]
    exact fun hmem => hj (h.hold.disjoint j k p hmem hp)

theorem entry_remove {p' : ℕ} (h : Entry P s Q p') (hne : p' ≠ p) :
    Entry P (s.remove P p) (Function.update Q k ((Q k).erase p)) p' :=
  h.congr (congrFun (remove_log s p) p') (congrFun (remove_tm s p) p')
    (congrFun (remove_qno s p) p') fun _ => mem_update_erase hne

theorem Entry.insert (hhistory : History P (s.log p ++ [.sent k (s.base now) s.clock]))
    (hp : ∀ j, p ∉ Q j) : Entry P (s.insert P p k now) (Function.update Q k (Q k ++ [p])) p := by
  have hlog : (s.insert P p k now).log p = s.log p ++ [.sent k (s.base now) s.clock] := by
    rw [insert_log, Function.update_self]
  have hlast : lastSent ((s.insert P p k now).log p) = some (k, s.base now) := by
    rw [hlog, lastSent_append]
    rfl
  refine ⟨hlog ▸ hhistory, fun j => ?_, ?_, fun h => absurd (hlast.symm.trans h) nofun⟩
  · rw [hlast]
    by_cases hj : j = k
    · subst hj
      rw [Function.update_self]
      exact iff_of_true (List.mem_append_right _ (List.mem_singleton.mpr rfl)) ⟨_, rfl⟩
    · rw [Function.update_of_ne hj]
      exact iff_of_false (hp j) fun ⟨b, hb⟩ =>
        hj (congrArg Prod.fst (Option.some.inj hb)).symm
  · intro j b hb
    obtain ⟨rfl, rfl⟩ := Prod.mk.inj (Option.some.inj (hlast.symm.trans hb))
    rw [insert_tm, Function.update_self]

variable (now) in
theorem Entry.insert_all (hentry : ∀ p', p' ≠ p → Entry P s Q p')
    (hhistory : History P (s.log p ++ [.sent k (s.base now) s.clock])) (hp : ∀ j, p ∉ Q j)
    (p' : ℕ) : Entry P (s.insert P p k now) (Function.update Q k (Q k ++ [p])) p' := by
  by_cases hne : p' = p
  · subst hne
    exact .insert hhistory hp
  · refine (hentry p' hne).congr ?_ ?_ ?_ fun j => mem_update_append hne
    · rw [insert_log, Function.update_of_ne hne]
    · rw [insert_tm, Function.update_of_ne hne]
    · rw [insert_qno, Function.update_of_ne hne]

/-- The entries are as they should be between two steps, and there is at most one run, behind all
calls of `start`. -/
def Settled (P : Params) (s : State) (Q : ℕ → List ℕ) : Prop :=
  Lists P s (fun j now => .runq j now ∈ s.stack) Q ∧ (∀ p, Entry P s Q p) ∧
    ∀ f ∈ s.stack.dropLast, f = .start

/-- What a step sends reckons from the time `c` or later. -/
def Fresh (s s' : State) (c : ℕ) : Prop :=
  ∀ p, s'.log p = s.log p ∨ ∀ j b, lastSent (s'.log p) = some (j, b) → c ≤ b

theorem le_base (h : now ≤ s.clock) : now ≤ s.base now ∧ s.base now ≤ s.clock := by
  rw [State.base]
  split
  · exact ⟨h, Nat.le_refl _⟩
  · exact ⟨Nat.le_refl _, h⟩

theorem Settled.start (h : Settled P s Q) (hlast : lastSent (s.log p) = none)
    (hs : step P s (.start p) = some s') :
    Settled P s' (Function.update Q 0 (Q 0 ++ [p])) ∧ Fresh s s' s.clock := by
  obtain ⟨hlists, hentry, hshape⟩ := h
  have hp := (hentry p).not_queued hlast
  cases hs
  have hbase : State.base (s.mark p .started) 0 = s.clock := rfl
  have hinsert := (hlists.mark (p := p) .started).insert 0 P.maxsend_pos hp
    (fun t ht => ht.1) ⟨Nat.le_refl _, nofun⟩
  have hlog : (s.mark p .started).log p = s.log p ++ [.started] := Function.update_self _ _ _
  refine ⟨⟨?_, fun p' => ?_, ?_⟩, fun p' => ?_⟩
  · refine (hinsert.stack _).runs (fun j now hj => ?_) fun j now hj => .inl ?_
    · have hj := (List.mem_cons.mp hj).resolve_left nofun
      rwa [insert_stack] at hj
    · rw [insert_stack]
      exact List.mem_cons_of_mem _ hj
  · have hall := Entry.insert_all (P := P) (s := s.mark p .started) (Q := Q) (k := 0) (p := p)
      0 ?_ ?_ hp p'
    · exact { hall with }
    · intro p' hne
      exact (hentry p').congr (Function.update_of_ne hne _ _) rfl rfl fun _ => .rfl
    · rw [hlog, List.append_assoc]
      exact .start s.clock (hentry p).history hlast
  · rw [insert_stack]
    intro f hf
    cases hst : s.stack with
    | nil =>
      rw [State.mark, hst] at hf
      cases hf
    | cons f' l =>
      rw [State.mark, hst, List.dropLast_cons_cons, List.mem_cons] at hf
      exact hf.elim id fun hf => hshape f (hst ▸ hf)
  · change (((s.mark p .started).insert P p 0 0).log p' = _) ∨ _
    by_cases hne : p' = p
    · subst hne
      refine .inr fun j b hb => ?_
      change lastSent (((s.mark p' .started).insert P p' 0 0).log p') = _ at hb
      rw [insert_log, Function.update_self, lastSent_append] at hb
      obtain ⟨-, rfl⟩ := Prod.mk.inj (Option.some.inj hb)
      exact Nat.le_refl _
    · rw [insert_log, Function.update_of_ne hne]
      exact .inl (Function.update_of_ne hne _ _)

theorem Settled.remove (h : Settled P s Q) (hlast : (s.log p).getLast? ≠ some .removed)
    (hs : step P s (.remove p) = some s') : ∃ Q', Settled P s' Q' ∧ ∀ c, Fresh s s' c := by
  obtain ⟨hlists, hentry, hshape⟩ := h
  cases hs
  cases hsent : lastSent (s.log p) with
  | none =>
    have hqno := Nat.not_lt.mpr ((hentry p).qno hsent hlast)
    refine ⟨Q, ?_, fun c p' => .inl ?_⟩
    · rw [if_neg hqno, State.remove, if_neg hqno]
      exact ⟨hlists, hentry, hshape⟩
    · rw [if_neg hqno, remove_log]
  | some kb =>
    obtain ⟨k, b⟩ := kb
    have hp : p ∈ Q k := ((hentry p).queued k).mpr ⟨b, hsent⟩
    have hqno : s.qno p < P.maxsend := by
      obtain ⟨hqno, hk⟩ := hlists.qno k p hp
      rwa [hqno]
    rw [if_pos hqno]
    have hlog : ((s.remove P p).mark p .removed).log p = s.log p ++ [.removed] := by
      rw [State.mark, remove_log]
      exact Function.update_self _ _ _
    have hothers : ∀ p', p' ≠ p → ((s.remove P p).mark p .removed).log p' = s.log p' := by
      intro p' hne
      rw [State.mark, remove_log]
      exact Function.update_of_ne hne _ _
    have hremoved : lastSent (s.log p ++ [.removed]) = none := by rw [lastSent_append]; rfl
    refine ⟨Function.update Q k ((Q k).erase p), ⟨?_, fun p' => ?_, ?_⟩, fun c p' => ?_⟩
    · refine ((hlists.remove hp).mark .removed).runs (fun j now hj => ?_) fun j now hj => .inl ?_
      · exact remove_stack (P := P) s p ▸ hj
      · exact (remove_stack (P := P) s p).symm ▸ hj
    · by_cases hne : p' = p
      · subst hne
        refine ⟨?_, fun j => ?_, ?_, ?_⟩
        · rw [hlog]
          exact .remove (hentry p').history (by rw [hsent]; nofun)
        · rw [hlog, hremoved]
          exact iff_of_false (hlists.not_mem_erase hp j) fun ⟨_, hb⟩ => nomatch hb
        · rw [hlog, hremoved]
          nofun
        · rw [hlog, List.getLast?_concat]
          exact fun _ hne => absurd rfl hne
      · refine (entry_remove (hentry p') hne).congr ?_ rfl rfl fun _ => .rfl
        exact (hothers p' hne).trans (congrFun (remove_log s p) p').symm
    · change ∀ f ∈ (s.remove P p).stack.dropLast, f = .start
      rw [remove_stack]
      exact hshape
    · by_cases hne : p' = p
      · subst hne
        refine .inr fun j b hb => ?_
        rw [hlog, hremoved] at hb
        cases hb
      · exact .inl (hothers p' hne)

theorem runq_resend (hlists : Lists P s R Q) (hentry : ∀ p, Entry P s Q p)
    (hR : ∀ j now', R j now' ↔ j = k ∧ now' = now) (hp : p ∈ Q k) (hdue : s.tm p ≤ now)
    (hk : k + 1 < P.maxsend) :
    ∃ Q', Settled P { (s.remove P p).insert P p (k + 1) now with stack := [.runq k now] } Q' ∧
      Fresh s { (s.remove P p).insert P p (k + 1) now with stack := [.runq k now] } now := by
  have hnow : now ≤ s.clock := hlists.run k now ((hR k now).mpr ⟨rfl, rfl⟩)
  obtain ⟨b, hsent⟩ := ((hentry p).queued k).mp hp
  have htm := (hentry p).tm k b hsent
  rw [delay_eq (Nat.lt_of_succ_lt hk)] at htm
  have hclock := remove_clock (P := P) s p
  have hbase : (s.remove P p).base now = s.base now := by rw [State.base, hclock]; rfl
  obtain ⟨hle, hge⟩ := le_base hnow
  have hnot := hlists.not_mem_erase hp
  have hinsert := (hlists.remove hp).insert now hk hnot
    (fun t ht => ht.2 k now ((hR k now).mpr ⟨rfl, rfl⟩) rfl) ⟨?_, ?_⟩
  · refine ⟨_, ⟨(hinsert.stack [.runq k now]).runs ?_ ?_, fun p' => ?_, ?_⟩, fun p' => ?_⟩
    · intro j now' hj
      cases List.mem_singleton.mp hj
      exact (hR k now).mpr ⟨rfl, rfl⟩
    · intro j now' hj
      obtain ⟨rfl, rfl⟩ := (hR j now').mp hj
      exact .inl List.mem_cons_self
    · have hall := Entry.insert_all (P := P) (s := s.remove P p) (k := k + 1) (p := p) now
        (fun p' hne => entry_remove (hentry p') hne) ?_ hnot p'
      · exact { hall with }
      · rw [remove_log, hbase, hclock]
        exact .resend (hentry p).history hsent hk (htm ▸ Nat.le_trans hdue hle) hge
    · exact nofun
    · change ((s.remove P p).insert P p (k + 1) now).log p' = _ ∨
        ∀ j b, lastSent (((s.remove P p).insert P p (k + 1) now).log p') = _ → _
      rw [insert_log, remove_log, hbase]
      by_cases hne : p' = p
      · subst hne
        refine .inr fun j b hb => ?_
        rw [Function.update_self, lastSent_append] at hb
        obtain ⟨-, rfl⟩ := Prod.mk.inj (Option.some.inj hb)
        exact hle
      · exact .inl (Function.update_of_ne hne _ _)
  · rw [hbase, hclock]
    exact Nat.add_le_add_right hge _
  · intro j now' hj _
    obtain ⟨-, rfl⟩ := (hR j now').mp hj
    exact Nat.le_refl _

theorem runq_timeout (hlists : Lists P s R Q) (hentry : ∀ p, Entry P s Q p)
    (hR : ∀ j now', R j now' ↔ j = k ∧ now' = now) (hp : p ∈ Q k) (hdue : s.tm p ≤ now)
    (hk : ¬k + 1 < P.maxsend) :
    ∃ Q', Settled P (State.mark { s.remove P p with
        qno := Function.update (s.remove P p).qno p P.maxsend
        stack := [.runq k now] } p (.timedOut now)) Q' ∧
      Fresh s (State.mark { s.remove P p with
        qno := Function.update (s.remove P p).qno p P.maxsend
        stack := [.runq k now] } p (.timedOut now)) now := by
  obtain ⟨b, hsent⟩ := ((hentry p).queued k).mp hp
  have htm := (hentry p).tm k b hsent
  have hkmax := (hlists.qno k p hp).2
  rw [delay_eq hkmax] at htm
  have hnot := hlists.not_mem_erase hp
  have hr := hlists.remove hp
  have hlast : lastSent (s.log p ++ [.timedOut now]) = none := by rw [lastSent_append]; rfl
  let t : State := State.mark { s.remove P p with
    qno := Function.update (s.remove P p).qno p P.maxsend
    stack := [.runq k now] } p (.timedOut now)
  change ∃ Q', Settled P t Q' ∧ Fresh s t now
  have hlog : t.log p = s.log p ++ [.timedOut now] := by
    refine (Function.update_self _ _ _).trans ?_
    rw [remove_log]
  have hothers : ∀ p', p' ≠ p → t.log p' = (s.remove P p).log p' :=
    fun p' hne => Function.update_of_ne hne _ _
  have hqno : Lists P { s.remove P p with
      qno := Function.update (s.remove P p).qno p P.maxsend } R
      (Function.update Q k ((Q k).erase p)) := by
    refine { hr with qno := fun j p' hp' => ?_ }
    have hne : p' ≠ p := fun heq => hnot j (heq ▸ hp')
    exact ⟨(Function.update_of_ne hne _ _).trans (hr.qno j p' hp').1, (hr.qno j p' hp').2⟩
  refine ⟨_, ⟨((hqno.stack [.runq k now]).mark (.timedOut now)).runs ?_ ?_, fun p' => ?_, ?_⟩,
    fun p' => ?_⟩
  · intro j now' hj
    cases List.mem_singleton.mp hj
    exact (hR k now).mpr ⟨rfl, rfl⟩
  · intro j now' hj
    obtain ⟨rfl, rfl⟩ := (hR j now').mp hj
    exact .inl List.mem_cons_self
  · by_cases hne : p' = p
    · rw [hne]
      refine ⟨?_, fun j => ?_, ?_, fun _ _ => ?_⟩
      · rw [hlog]
        exact .timeout (hentry p).history hsent (by omega) (htm ▸ hdue)
      · rw [hlog, hlast]
        exact iff_of_false (hnot j) fun ⟨_, hb⟩ => nomatch hb
      · rw [hlog, hlast]
        nofun
      · have hmax : Function.update (s.remove P p).qno p P.maxsend p = P.maxsend :=
          Function.update_self _ _ _
        exact Nat.le_of_eq hmax.symm
    · exact (entry_remove (hentry p') hne).congr (hothers p' hne) rfl
        (Function.update_of_ne hne _ _) fun _ => .rfl
  · exact nofun
  · by_cases hne : p' = p
    · rw [hne, hlog]
      refine .inr fun j b hb => ?_
      rw [hlast] at hb
      cases hb
    · exact .inl ((hothers p' hne).trans (congrFun (remove_log s p) p'))

/-- One turn of a run, from its reading of the clock to the call of `xmit` or `timeout`, or to its
end. At its end no entry of the queue is due. -/
theorem runq_settled (hlists : Lists P s R Q) (hentry : ∀ p, Entry P s Q p) (hstack : s.stack = [])
    (hR : ∀ j now', R j now' ↔ j = k ∧ now' = now) :
    ∃ Q', Settled P (s.runq P k now) Q' ∧ Fresh s (s.runq P k now) now ∧
      ((s.runq P k now).stack = [.runq k now] ∨
        (s.runq P k now).stack = [] ∧ ∀ p ∈ Q' k, now < (s.runq P k now).tm p) := by
  have hnow : now ≤ s.clock := hlists.run k now ((hR k now).mpr ⟨rfl, rfl⟩)
  have hend : (∀ p ∈ Q k, now < s.tm p) → ∃ Q', Settled P (s.schedq k) Q' ∧
      Fresh s (s.schedq k) now ∧ ((s.schedq k).stack = [.runq k now] ∨
        (s.schedq k).stack = [] ∧ ∀ p ∈ Q' k, now < (s.schedq k).tm p) := by
    intro hdue
    obtain ⟨hsched, hpending⟩ := hlists.schedq k
    refine ⟨Q, ⟨hsched.runs (fun j now' hj => ?_) ?_, fun p => ?_, ?_⟩, ?_, ?_⟩
    · rw [schedq_stack, hstack] at hj
      cases hj
    · intro j now' hj
      obtain ⟨rfl, -⟩ := (hR j now').mp hj
      exact .inr hpending
    · refine (hentry p).congr ?_ ?_ ?_ fun _ => .rfl
      · rw [schedq_log]
      · rw [schedq_tm]
      · rw [schedq_qno]
    · rw [schedq_stack, hstack]
      exact nofun
    · exact fun p => .inl (congrFun (schedq_log s k) p)
    · rw [schedq_stack, schedq_tm]
      exact .inr ⟨hstack, hdue⟩
  have hhead := hlists.hold.head_eq k
  rw [State.runq]
  split
  · next hnone =>
    rw [hnone] at hhead
    refine hend fun p hp => ?_
    rw [List.head?_eq_none_iff.mp hhead.symm] at hp
    cases hp
  next p hsome =>
  rw [hsome] at hhead
  obtain ⟨l, hl⟩ := List.head?_eq_some_iff.mp hhead.symm
  have hp : p ∈ Q k := hl ▸ List.mem_cons_self
  split
  · next hdue =>
    have hstack' : (s.remove P p).stack = [] := by rw [remove_stack, hstack]
    dsimp only
    split
    · next hk =>
      rw [insert_stack, hstack']
      obtain ⟨Q', hQ', hfresh⟩ := runq_resend hlists hentry hR hp hdue (by omega)
      exact ⟨Q', hQ', hfresh, .inl rfl⟩
    · next hk =>
      rw [hstack']
      obtain ⟨Q', hQ', hfresh⟩ := runq_timeout hlists hentry hR hp hdue (by omega)
      exact ⟨Q', hQ', hfresh, .inl rfl⟩
  · next hdue =>
    refine hend fun p' hp' => ?_
    have hsorted := hlists.sorted k
    rw [hl] at hp' hsorted
    rcases List.mem_cons.mp hp' with rfl | hp'
    · exact Nat.lt_of_not_le hdue
    · exact Nat.lt_of_lt_of_le (Nat.lt_of_not_le hdue)
        ((List.pairwise_cons.mp hsorted).1 p' hp')

theorem runq_clock (s : State) (k now : ℕ) : (s.runq P k now).clock = s.clock := by
  rw [State.runq]
  split
  · exact schedq_clock s k
  next p _ =>
  split
  · dsimp only
    split
    · exact (insert_clock _ _ _ _).trans (remove_clock s p)
    · exact remove_clock s p
  · exact schedq_clock s k

/-- The runs that have not returned when a step is taken, or that it starts. -/
def Underway (s : State) (a : Act) (k now : ℕ) : Prop :=
  .runq k now ∈ s.stack ∨ ∃ t, a = .fire t k ∧ now = s.clock

/-- What a step does. All that it sends reckons from the time `c` or later, if the clock and the
runs are past `c`; and a run leaves nothing that is due. -/
structure Stepped (P : Params) (s : State) (a : Act) (s' : State) (Q : ℕ → List ℕ) : Prop where
  settled : Settled P s' Q
  clock : s.clock ≤ s'.clock
  runs : ∀ k now, .runq k now ∈ s'.stack → Underway s a k now
  fresh : ∀ c, c ≤ s.clock → (∀ k now, .runq k now ∈ s.stack → c ≤ now) → Fresh s s' c
  drained : ∀ k now, Underway s a k now →
    .runq k now ∈ s'.stack ∨ ∀ p ∈ Q k, now < s'.tm p

theorem Stepped.of_stack {a : Act} (hsettled : Settled P s' Q) (hclock : s.clock ≤ s'.clock)
    (hruns : ∀ k now, .runq k now ∈ s'.stack ↔ .runq k now ∈ s.stack) (ha : ∀ t k, a ≠ .fire t k)
    (hfresh : ∀ c, c ≤ s.clock → Fresh s s' c) : Stepped P s a s' Q := by
  refine ⟨hsettled, hclock, fun k now hrun => .inl ((hruns k now).mp hrun),
    fun c hc _ => hfresh c hc, fun k now hrun => ?_⟩
  rcases hrun with hrun | ⟨t, hat, -⟩
  · exact .inl ((hruns k now).mpr hrun)
  · exact absurd hat (ha t k)

theorem Stepped.of_runq {a : Act} {u : State} (hlists : Lists P u R Q) (hentry : ∀ p, Entry P u Q p)
    (hstack : u.stack = []) (hR : ∀ j now', R j now' ↔ j = k ∧ now' = now) (hlog : u.log = s.log)
    (hclock : u.clock = s.clock) (hunder : ∀ j now', Underway s a j now' ↔ j = k ∧ now' = now)
    (hlate : now = s.clock ∨ .runq k now ∈ s.stack) : ∃ Q', Stepped P s a (u.runq P k now) Q' := by
  obtain ⟨Q', hsettled, hfresh, hend⟩ := runq_settled hlists hentry hstack hR
  refine ⟨Q', hsettled, Nat.le_of_eq ?_, ?_, ?_, ?_⟩
  · rw [runq_clock, hclock]
  · intro j now' hj
    rcases hend with hend | ⟨hend, -⟩
    · rw [hend] at hj
      cases List.mem_singleton.mp hj
      exact (hunder k now).mpr ⟨rfl, rfl⟩
    · rw [hend] at hj
      cases hj
  · intro c hc hruns p
    have hcnow : c ≤ now := by
      rcases hlate with rfl | hrun
      · exact hc
      · exact hruns k now hrun
    exact hlog ▸ (hfresh p).imp_right fun h j b hb => Nat.le_trans hcnow (h j b hb)
  · intro j now' hj
    obtain ⟨rfl, rfl⟩ := (hunder j now').mp hj
    rcases hend with hend | ⟨-, hdue⟩
    · rw [hend]
      exact .inl List.mem_cons_self
    · exact .inr hdue

theorem Settled.ret (h : Settled P s Q) (hs : step P s .ret = some s') :
    ∃ Q', Stepped P s .ret s' Q' := by
  obtain ⟨hlists, hentry, hshape⟩ := h
  rw [step] at hs
  split at hs
  · next stack hstack =>
    cases hs
    have hmem : ∀ j now, .runq j now ∈ stack ↔ .runq j now ∈ s.stack := by
      intro j now
      rw [hstack]
      exact ⟨List.mem_cons_of_mem _, fun hj => (List.mem_cons.mp hj).resolve_left nofun⟩
    refine ⟨Q, .of_stack ⟨(hlists.stack stack).runs (fun j now hj => (hmem j now).mp hj)
      (fun j now hj => .inl ((hmem j now).mpr hj)), fun p => ?_, fun f hf => ?_⟩
      (Nat.le_refl _) hmem nofun fun c _ p => .inl rfl⟩
    · exact (hentry p).congr rfl rfl rfl fun _ => .rfl
    · refine hshape f ?_
      rw [hstack]
      cases stack with
      | nil => cases hf
      | cons f' stack => exact List.mem_cons_of_mem _ hf
  · next k now stack hstack =>
    cases hs
    have hnil : stack = [] := by
      cases stack with
      | nil => rfl
      | cons f stack => exact absurd (hshape (.runq k now) (by rw [hstack]; simp)) nofun
    subst hnil
    have hR : ∀ j now', .runq j now' ∈ s.stack ↔ j = k ∧ now' = now := by
      intro j now'
      rw [hstack, List.mem_singleton, Frame.runq.injEq]
    refine Stepped.of_runq (hlists.stack []) (fun p => (hentry p).congr rfl rfl rfl fun _ => .rfl)
      rfl hR rfl rfl (fun j now' => ?_) (.inr ((hR k now).mpr ⟨rfl, rfl⟩))
    rw [Underway, hR]
    exact or_iff_left fun ⟨_, h, _⟩ => nomatch h
  · cases hs

theorem Settled.fire {t : ℕ} (h : Settled P s Q) (hs : step P s (.fire t k) = some s') :
    ∃ Q', Stepped P s (.fire t k) s' Q' := by
  obtain ⟨hlists, hentry, -⟩ := h
  obtain ⟨⟨hstack, ht, -⟩, hs⟩ := Option.ite_none_right_eq_some.mp hs
  cases hs
  refine Stepped.of_runq (hlists.fire ht) (fun p => (hentry p).congr rfl rfl rfl fun _ => .rfl)
    hstack (fun j now' => ?_) rfl rfl (fun j now' => ?_) (.inl rfl)
  · rw [withRun, hstack]
    exact or_iff_right List.not_mem_nil
  · rw [Underway, hstack]
    refine (or_iff_right List.not_mem_nil).trans ⟨?_, ?_⟩
    · rintro ⟨_, ⟨⟩, rfl⟩
      exact ⟨rfl, rfl⟩
    · rintro ⟨rfl, rfl⟩
      exact ⟨t, rfl, rfl⟩

theorem Settled.step {a : Act} (h : Settled P s Q) (ha : Allowed s a)
    (hs : Backoff.step P s a = some s') : ∃ Q', Stepped P s a s' Q' := by
  cases a with
  | start p =>
    obtain ⟨hsettled, hfresh⟩ := h.start ha hs
    cases hs
    refine ⟨_, .of_stack hsettled ?_ (fun k now => ?_) nofun fun c hc p =>
      (hfresh p).imp_right fun h j b hb => Nat.le_trans hc (h j b hb)⟩
    · exact Nat.le_of_eq (insert_clock (s.mark p .started) 0 p 0).symm
    · rw [insert_stack]
      exact ⟨fun hj => (List.mem_cons.mp hj).resolve_left nofun, List.mem_cons_of_mem _⟩
  | remove p =>
    obtain ⟨Q', hsettled, hfresh⟩ := h.remove ha hs
    cases hs
    refine ⟨Q', .of_stack hsettled ?_ (fun k now => ?_) nofun fun c _ => hfresh c⟩
    · split <;> exact Nat.le_of_eq (remove_clock s p).symm
    · split <;> exact iff_of_eq (congrArg (.runq k now ∈ ·) (remove_stack s p))
  | ret => exact h.ret hs
  | fire t k => exact h.fire hs
  | tick d =>
    cases hs
    obtain ⟨hlists, hentry, hshape⟩ := h
    refine ⟨Q, .of_stack ⟨hlists.tick d, fun p => ?_, hshape⟩ (Nat.le_add_right _ _)
      (fun _ _ => .rfl) nofun fun c _ p => .inl rfl⟩
    exact (hentry p).congr rfl rfl rfl fun _ => .rfl

end Steps

theorem Settled.init (clock : ℕ) : Settled P (State.init clock) fun _ => [] := by
  refine ⟨⟨⟨fun _ => rfl, fun _ => rfl, fun _ => List.nodup_nil, nofun⟩, nofun, fun _ => .nil,
    nofun, nofun, List.nodup_nil, nofun, nofun, fun _ _ => ⟨nofun, .inl rfl⟩⟩, fun p => ?_, nofun⟩
  have hlast : lastSent ((State.init clock).log p) = none := rfl
  refine ⟨.new, fun k => iff_of_false List.not_mem_nil ?_, ?_, fun _ _ => ?_⟩
  · rw [hlast]
    exact fun ⟨_, h⟩ => nomatch h
  · rw [hlast]
    nofun
  have hfits := P.fits
  rw [Nat.shiftLeft_eq] at hfits
  have hpow : 2 ^ (P.maxsend - 1) < 2 ^ 32 :=
    Nat.lt_of_le_of_lt (Nat.le_mul_of_pos_left _ P.minto_pos) hfits
  have hlt := (Nat.pow_lt_pow_iff_right (by decide)).mp hpow
  change P.maxsend ≤ 2 ^ 32 - 1
  omega

theorem settled_of_run {clock : ℕ} {es : List Act} {s : State}
    (hrun : Run (step P) Allowed (State.init clock) es s) : ∃ Q, Settled P s Q := by
  refine hrun.invariant (I := fun s => ∃ Q, Settled P s Q) ⟨_, .init clock⟩ ?_
  rintro s a s' ⟨Q, hQ⟩ ha hs
  obtain ⟨Q', h⟩ := hQ.step ha hs
  exact ⟨Q', h.settled⟩

/-- The clock and the runs are past `c`, and no entry that waits in the queue `k` was due then,
if a run of it from the time `c` has returned. -/
structure Past (P : Params) (c k : ℕ) (s : State) (Q : ℕ → List ℕ) : Prop where
  clock : c ≤ s.clock
  runs : ∀ j now, .runq j now ∈ s.stack → c ≤ now
  drained : .runq k c ∈ s.stack ∨ ∀ p b, lastSent (s.log p) = some (k, b) → c < b + delay P k

theorem Settled.later {s : State} {Q : ℕ → List ℕ} {k c : ℕ} (h : Settled P s Q)
    (hlater : ∀ p ∈ Q k, c < s.tm p) (p b : ℕ) (hsent : lastSent (s.log p) = some (k, b)) :
    c < b + delay P k :=
  (h.2.1 p).tm k b hsent ▸ hlater p (((h.2.1 p).queued k).mpr ⟨b, hsent⟩)

theorem Past.step {s s' : State} {a : Act} {Q Q' : ℕ → List ℕ} {c k : ℕ} (h : Past P c k s Q)
    (hs : Stepped P s a s' Q') : Past P c k s' Q' := by
  refine ⟨Nat.le_trans h.clock hs.clock, fun j now hj => ?_, ?_⟩
  · rcases hs.runs j now hj with hj | ⟨-, -, rfl⟩
    · exact h.runs j now hj
    · exact h.clock
  · rcases h.drained with hrun | hlater
    · exact (hs.drained k c (.inl hrun)).imp_right hs.settled.later
    · refine .inr fun p b hsent => ?_
      rcases hs.fresh c h.clock h.runs p with hlog | hfresh
      · exact hlater p b (hlog ▸ hsent)
      · have hp := ((hs.settled.2.1 p).queued k).mpr ⟨b, hsent⟩
        exact Nat.lt_of_le_of_lt (hfresh k b hsent)
          (Nat.lt_add_of_pos_right (delay_pos (hs.settled.1.qno k p hp).2))

/-- In every run the queues share no entry, each is in the order of the deadlines, and each that is
not empty has its one timer, for no later than its first deadline, or is being run. The entries of
the queue `k` are those that were last sent for the `k`-th time; such a deadline is `minto * 2 ^ k`
behind, and past it a timer can go off that does not return before the entry is sent again, timed
out or removed. -/
theorem tmoq_retransmits {clock : ℕ} {es : List Act} {s : State}
    (hrun : Run (step P) Allowed (State.init clock) es s) :
    (∀ p, History P (s.log p)) ∧ (s.timers.map Prod.snd).Nodup ∧
    ∃ Q : ℕ → List ℕ, s.queue.Hold Q ∧
      (∀ k, (Q k).Pairwise fun p p' => s.tm p ≤ s.tm p') ∧
      (∀ k, Q k ≠ [] → (∃ t, (t, k) ∈ s.timers ∧ ∀ p ∈ Q k, t ≤ s.tm p) ∨
        ∃ now, .runq k now ∈ s.stack) ∧
      (∀ p k, p ∈ Q k ↔ ∃ b, lastSent (s.log p) = some (k, b)) ∧
      (∀ p k b, lastSent (s.log p) = some (k, b) → s.tm p = b + P.minto * 2 ^ k) ∧
      ∀ k, ∀ p ∈ Q k, s.tm p ≤ s.clock →
        (s.stack = [] → ∃ t s₁, step P s (.fire t k) = some s₁) ∧
        ∀ t s₁ es' s', step P s (.fire t k) = some s₁ → Run (step P) Allowed s₁ es' s' →
          s'.stack = [] → s'.log p ≠ s.log p := by
  obtain ⟨Q, hsettled⟩ := settled_of_run hrun
  obtain ⟨hlists, hentry, -⟩ := id hsettled
  have htimer : ∀ k, Q k ≠ [] → (∃ t, (t, k) ∈ s.timers ∧ ∀ p ∈ Q k, t ≤ s.tm p) ∨
      ∃ now, .runq k now ∈ s.stack := by
    intro k hk
    by_cases hpending : s.pending k = true
    · exact .inl (hlists.pending k hpending)
    · exact .inr ((hlists.idle k (Bool.not_eq_true _ ▸ hpending)).2.resolve_left hk)
  refine ⟨fun p => (hentry p).history, hlists.timers, Q, hlists.hold, hlists.sorted, htimer,
    fun p => (hentry p).queued, fun p k b hsent => ?_, fun k p hp hdue => ⟨fun hstack => ?_, ?_⟩⟩
  · have hk := (hlists.qno k p (((hentry p).queued k).mpr ⟨b, hsent⟩)).2
    rw [← delay_eq hk]
    exact (hentry p).tm k b hsent
  · rcases htimer k (List.ne_nil_of_mem hp) with ⟨t, ht, hle⟩ | ⟨now, hnow⟩
    · exact ⟨t, _, if_pos ⟨hstack, ht, Nat.le_trans (hle p hp) hdue⟩⟩
    · rw [hstack] at hnow
      cases hnow
  · intro t s₁ es' s' hs₁ hrun' hstack' hlog
    have hstack : s.stack = [] := (Option.ite_none_right_eq_some.mp hs₁).1.1
    obtain ⟨Q₁, h₁⟩ := hsettled.step (a := .fire t k) trivial hs₁
    have hpast₁ : Past P s.clock k s₁ Q₁ := by
      refine ⟨h₁.clock, fun j now hj => ?_, ?_⟩
      · rcases h₁.runs j now hj with hj | ⟨-, -, rfl⟩
        · rw [hstack] at hj
          cases hj
        · exact Nat.le_refl _
      · exact (h₁.drained k s.clock (.inr ⟨t, rfl, rfl⟩)).imp_right h₁.settled.later
    obtain ⟨Q', -, hpast⟩ := hrun'.invariant
      (I := fun s' => ∃ Q', Settled P s' Q' ∧ Past P s.clock k s' Q') ⟨Q₁, h₁.settled, hpast₁⟩ <| by
        rintro u a u' ⟨Q, hQ, hpast⟩ ha hs
        obtain ⟨Q', h⟩ := hQ.step ha hs
        exact ⟨Q', h.settled, hpast.step h⟩
    obtain ⟨b, hsent⟩ := ((hentry p).queued k).mp hp
    have hlater := hpast.drained.resolve_left (by rw [hstack']; exact List.not_mem_nil)
    have htm := (hentry p).tm k b hsent
    have hlt := hlater p b (hlog ▸ hsent)
    omega

/-- Two entries are started; the second is removed by the `xmit` of the first, and the first is
sent three times and times out. -/
theorem tmoq_retransmits_example :
    ∃ s, Run (step ⟨1, 3, by decide, by decide, by decide⟩) Allowed (State.init 10)
        [.start 0, .ret, .start 1, .ret, .tick 1, .fire 11 0, .remove 1, .ret, .tick 2, .fire 13 1,
          .tick 3, .ret, .tick 1, .fire 17 2, .ret] s ∧
      ∀ p, History ⟨1, 3, by decide, by decide, by decide⟩ (s.log p) := by
  have hrun : Run (step ⟨1, 3, by decide, by decide, by decide⟩) Allowed (State.init 10)
      [.start 0, .ret, .start 1, .ret, .tick 1, .fire 11 0, .remove 1, .ret, .tick 2, .fire 13 1,
        .tick 3, .ret, .tick 1, .fire 17 2, .ret] _ := Run.of_checked rfl
  exact ⟨_, hrun, (tmoq_retransmits hrun).1⟩

end Sfslite.Async.Backoff
