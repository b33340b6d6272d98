import Sfslite.Libtame.LockRun

/-!
`lock_t::timed_acquire` of `lock.T`: a timer and the grant of the lock race for one rendezvous.
The calls are numbered as the `acquire` that they make, and the timer comes from the event loop.
-/

namespace Sfslite.Libtame.Lock

open Sfslite.Lib (Run)

/-- A lock, all the calls of `timed_acquire`, the numbers of those whose timer is set, and what
the calls reported. -/
structure Timed where
  lock : LockT
  calls : List Waiter
  timers : List ℕ
  reported : List (ℕ × Bool)
deriving DecidableEq, Repr

namespace Timed

def init (m : Mode) : Timed := ⟨.init m, [], [], []⟩

/-- The calls whose event the lock has triggered: the rendezvous is told that the lock was granted,
the timer is removed, and the call reports it. -/
def resume (t : Timed) (lock : LockT) : Timed :=
  { t with
    lock := lock
    timers := t.timers.filter (· ∉ lock.fired)
    reported := t.reported ++ (t.timers.filter (· ∈ lock.fired)).map (·, true) }

/-- `timed_acquire`, to where it waits or reports. -/
def timedAcquire (t : Timed) (m : Mode) : Option Timed := do
  let lock ← t.lock.acquire m
  let w : Waiter := ⟨t.lock.nextId, m⟩
  some ({ t with calls := t.calls ++ [w], timers := t.timers ++ [w.id] }.resume lock)

/-- The timer of a call that waits: the waiter is canceled, and the call reports that it does not
have the lock. -/
def timer (t : Timed) (id : ℕ) : Option Timed :=
  if id ∈ t.timers then do
    let lock ← t.lock.cancel id
    some { t with
      lock := lock
      timers := t.timers.erase id
      reported := t.reported ++ [(id, false)] }
  else none

end Timed

/-- What other users of the lock do and what the event loop does for it, the calls of
`timed_acquire`, and their timers. -/
inductive Act where
  | user (e : Event)
  | timedAcquire (m : Mode)
  | timer (id : ℕ)
deriving DecidableEq, Repr

def timedStep (t : Timed) : Act → Option Timed
  | .user e => (step t.lock e).map t.resume
  | .timedAcquire m => t.timedAcquire m
  | .timer id => t.timer id

/-- The users keep the rules of the lock, and cancel only their own waiters and only those that
still wait. -/
def TimedAllowed (t : Timed) : Act → Prop
  | .user e => Allowed t.lock e ∧
      ∀ id, e = .cancel id → id ∈ t.lock.waiters.map Waiter.id ∧ id ∉ t.timers
  | .timedAcquire m => m ≠ .OPEN
  | .timer id => id ∈ t.timers

/-- No timer comes while the grant to its call is on its way through the event loop, and the
sharers can be counted. -/
def InTime (t : Timed) : Act → Prop
  | .user e => Timely t.lock e
  | .timedAcquire m => Timely t.lock (.acquire m)
  | .timer id => id ∉ t.lock.loop

/-- Nobody joins the queue or the holders, those who wait go on to wait or hold the lock, and
whoever it is granted to holds it. -/
structure Moves (l l' : LockT) : Prop where
  people : ∀ w, w ∈ l'.waiters ∨ w ∈ l'.holders → w ∈ l.waiters ∨ w ∈ l.holders
  known : ∀ id, id ∈ l.granted ∨ id ∈ l.waiters.map Waiter.id →
    id ∈ l'.granted ∨ id ∈ l'.waiters.map Waiter.id
  stays : ∀ w ∈ l.holders, w ∈ l'.holders
  told : ∀ id ∈ l'.granted, id ∈ l.granted ∨ id ∈ l'.holders.map Waiter.id
  once : (l.holders.map Waiter.id).Sublist l.granted →
    (l'.holders.map Waiter.id).Sublist l'.granted
  fired : l.fired ⊆ l'.fired
  nextId : l'.nextId = l.nextId
  canceled : l'.canceled = l.canceled

variable {l l' l'' : LockT}

theorem Moves.refl (l : LockT) : Moves l l :=
  ⟨fun _ h => h, fun _ h => h, fun _ h => h, fun _ h => .inl h, fun h => h, fun _ h => h, rfl, rfl⟩

theorem Moves.trans (h : Moves l l') (h' : Moves l' l'') : Moves l l'' where
  people w hw := h.people w (h'.people w hw)
  known id hid := h'.known id (h.known id hid)
  stays w hw := h'.stays w (h.stays w hw)
  told id hid := by
    rcases h'.told id hid with hold | hnew
    · rcases h.told id hold with hold | hnew
      · exact .inl hold
      · obtain ⟨w, hw, rfl⟩ := List.mem_map.mp hnew
        exact .inr (List.mem_map_of_mem (h'.stays w hw))
    · exact .inr hnew
  once hsub := h'.once (h.once hsub)
  fired := List.Subset.trans h.fired h'.fired
  nextId := h'.nextId.trans h.nextId
  canceled := h'.canceled.trans h.canceled

variable {id : ℕ}

theorem removeWaiter_some (h : l.removeWaiter id = some l') :
    id ∈ l.waiters.map Waiter.id ∧ l' = { l with waiters := l.waiters.eraseP (·.id = id) } := by
  unfold LockT.removeWaiter at h
  split_ifs at h with hid
  exact ⟨hid, (Option.some.inj h).symm⟩

theorem mem_eraseP_id {ws : List Waiter} {id' : ℕ} (h : id' ∈ ws.map Waiter.id) (hne : id' ≠ id) :
    id' ∈ (ws.eraseP (·.id = id)).map Waiter.id := by
  obtain ⟨w, hw, rfl⟩ := List.mem_map.mp h
  exact List.mem_map_of_mem ((List.mem_eraseP_of_neg (by simpa using hne)).mpr hw)

theorem call_moves {w : Waiter} {delay : Bool} (hw : w ∈ l.waiters)
    (h : l.call w delay = some l') : Moves l l' := by
  obtain ⟨l₁, hremove, hrest⟩ := Option.bind_eq_some_iff.mp h
  obtain ⟨-, rfl⟩ := removeWaiter_some hremove
  have hl' : l'.waiters = l.waiters.eraseP (·.id = w.id) ∧ l'.holders = l.holders ++ [w] ∧
      l'.granted = l.granted ++ [w.id] ∧ l.fired ⊆ l'.fired ∧ l'.nextId = l.nextId ∧
      l'.canceled = l.canceled := by
    cases delay with
    | true =>
      cases hrest
      exact ⟨rfl, rfl, rfl, List.Subset.refl _, rfl, rfl⟩
    | false =>
      cases hrest
      exact ⟨rfl, rfl, rfl, List.subset_append_left _ _, rfl, rfl⟩
  obtain ⟨hwaiters, hholders, hgranted, hfired, hnextId, hcanceled⟩ := hl'
  refine ⟨?_, ?_, ?_, ?_, ?_, hfired, hnextId, hcanceled⟩
  · intro x hx
    rw [hwaiters, hholders, List.mem_append, List.mem_singleton] at hx
    rcases hx with hx | hx | rfl
    · exact .inl (List.mem_of_mem_eraseP hx)
    · exact .inr hx
    · exact .inl hw
  · intro id hid
    rw [hwaiters, hgranted, List.mem_append, List.mem_singleton]
    by_cases hne : id = w.id
    · exact .inl (.inr hne)
    · exact hid.imp .inl fun hid => mem_eraseP_id hid hne
  · intro x hx
    rw [hholders]
    exact List.mem_append_left _ hx
  · intro id hid
    rw [hgranted, List.mem_append, List.mem_singleton] at hid
    refine hid.imp_right ?_
    rintro rfl
    rw [hholders]
    exact List.mem_map_of_mem (List.mem_append_right _ List.mem_cons_self)
  · intro hsub
    rw [hholders, hgranted, List.map_append]
    exact hsub.append (List.Sublist.refl _)

theorem callSharers_moves {pre rest : List Waiter} (h : Books l)
    (hsplit : l.waiters = pre ++ rest) (hcall : LockT.callSharers rest l = some l') :
    Moves l l' := by
  induction rest generalizing l pre with
  | nil =>
    cases hcall
    exact .refl _
  | cons p n ih =>
    rw [LockT.callSharers] at hcall
    split_ifs at hcall
    · obtain ⟨l₁, hinc, hbody⟩ := Option.bind_eq_some_iff.mp hcall
      obtain ⟨l₂, hone, hrest⟩ := Option.bind_eq_some_iff.mp hbody
      have hl₁ : l₁ = { l with sharers := l.sharers + 1 } := by
        unfold LockT.incSharers at hinc
        split_ifs at hinc
        exact (Option.some.inj hinc).symm
      subst hl₁
      have hbooks : Books { l with sharers := l.sharers + 1 } :=
        { h with }
      obtain ⟨l₂', hone', hbooks', -, -, hwaiters', -⟩ := call_eq hbooks hsplit true
      cases hone.symm.trans hone'
      have hp : p ∈ l.waiters := hsplit ▸ List.mem_append_right _ List.mem_cons_self
      have hfirst : Moves { l with sharers := l.sharers + 1 } l₂ := call_moves hp hone
      have hmove := hfirst.trans (ih hbooks' hwaiters' hrest)
      exact { hmove with }
    · have hsplit' : l.waiters = (pre ++ [p]) ++ n := by
        rw [hsplit, List.append_assoc]
        rfl
      exact ih h hsplit' hcall

theorem handOver_moves {oldMode : Mode} (h : Books l) (hcall : l.handOver oldMode = some l') :
    Moves l l' := by
  unfold LockT.handOver at hcall
  split at hcall
  · cases hcall
    exact .refl l
  · rename_i w rest hqueue
    split at hcall
    · split_ifs at hcall
      have hbooks : Books { l with mode := .SHARED } := { h with }
      have hmove : Moves { l with mode := .SHARED } l' :=
        callSharers_moves hbooks (List.nil_append _).symm hcall
      exact { hmove with }
    · have hw : w ∈ l.waiters := hqueue ▸ List.mem_cons_self
      have hmove : Moves { l with mode := .EXCLUSIVE } l' := call_moves hw hcall
      exact { hmove with }
    · cases hcall

/-- What the calls of a lock do to those that wait or hold it. -/
structure Steps (l : LockT) (e : Event) (l' : LockT) : Prop where
  people : ∀ w, w ∈ l'.waiters ∨ w ∈ l'.holders →
    (w ∈ l.waiters ∨ w ∈ l.holders) ∨ e = .acquire w.mode ∧ w.id = l.nextId
  known : ∀ id, id ∈ l.granted ∨ id ∈ l.waiters.map Waiter.id → e ≠ .cancel id →
    id ∈ l'.granted ∨ id ∈ l'.waiters.map Waiter.id
  joins : ∀ m, e = .acquire m → l'.nextId = l.nextId + 1 ∧
    (l.nextId ∈ l'.granted ∨ l.nextId ∈ l'.waiters.map Waiter.id)
  stays : ∀ w ∈ l.holders, e ≠ .release w.id → w ∈ l'.holders
  told : ∀ id ∈ l'.granted, id ∈ l.granted ∨ id ∈ l'.holders.map Waiter.id
  once : (l.holders.map Waiter.id).Sublist l.granted →
    (l'.holders.map Waiter.id).Sublist l'.granted
  fired : l.fired ⊆ l'.fired
  canceled : l.canceled ⊆ l'.canceled
  nextId : l.nextId ≤ l'.nextId

theorem Moves.steps {m : LockT} (h : Moves m l') (hwaiters : m.waiters = l.waiters)
    (hholders : m.holders = l.holders.eraseP (·.id = id)) (hgranted : m.granted = l.granted)
    (hfired : m.fired = l.fired) (hcanceled : m.canceled = l.canceled)
    (hnextId : m.nextId = l.nextId) : Steps l (.release id) l' where
  people w hw := by
    rcases h.people w hw with hw | hw
    · exact .inl (.inl (hwaiters ▸ hw))
    · exact .inl (.inr (List.mem_of_mem_eraseP (hholders ▸ hw)))
  known id' hid _ := h.known id' (hwaiters ▸ hgranted ▸ hid)
  joins m he := by cases he
  stays w hw he := by
    refine h.stays w ?_
    rw [hholders]
    refine (List.mem_eraseP_of_neg ?_).mpr hw
    have hne : w.id ≠ id := fun heq => he (congrArg Event.release heq.symm)
    simpa using hne
  told := hgranted ▸ h.told
  once hsub := by
    refine h.once ?_
    rw [hholders, hgranted]
    exact (List.eraseP_sublist.map Waiter.id).trans hsub
  fired := hfired ▸ h.fired
  canceled := by
    rw [h.canceled, hcanceled]
    exact List.Subset.refl _
  nextId := by rw [h.nextId, hnextId]

theorem release_steps (h : Books l) (hcall : l.release id = some l') :
    Steps l (.release id) l' := by
  have hbooks (n : ℕ) : Books { l with
      mode := .OPEN, sharers := n, holders := l.holders.eraseP (·.id = id) } :=
    ⟨h.nodup, h.below, h.fired, fun x hx => h.holders x (List.mem_of_mem_eraseP hx)⟩
  cases hmode : l.mode with
  | OPEN =>
    simp only [LockT.release, hmode] at hcall
    cases hcall
  | SHARED =>
    simp only [LockT.release, hmode] at hcall
    split_ifs at hcall
    · exact (handOver_moves (hbooks _) hcall).steps rfl rfl rfl rfl rfl rfl
    · cases hcall
      exact (Moves.refl _).steps rfl rfl rfl rfl rfl rfl
  | EXCLUSIVE =>
    simp only [LockT.release, hmode] at hcall
    split_ifs at hcall
    exact (handOver_moves (hbooks _) hcall).steps rfl rfl rfl rfl rfl rfl

theorem acquire_cases {m : Mode} (h : l.acquire m = some l') :
    (∃ m' n, l' = (({ l with nextId := l.nextId + 1, mode := m', sharers := n }.grant
      ⟨l.nextId, m⟩).trigger l.nextId)) ∨
    l' = { l with nextId := l.nextId + 1, waiters := l.waiters ++ [⟨l.nextId, m⟩] } := by
  cases m with
  | OPEN => cases h
  | SHARED =>
    cases hmode : l.mode with
    | OPEN =>
      simp only [LockT.acquire, hmode] at h
      split_ifs at h
      cases h
      exact .inl ⟨_, _, rfl⟩
    | SHARED =>
      simp only [LockT.acquire, hmode] at h
      split_ifs at h
      obtain ⟨l₁, hinc, hrest⟩ := Option.bind_eq_some_iff.mp h
      unfold LockT.incSharers at hinc
      split_ifs at hinc
      cases hinc
      cases hrest
      exact .inl ⟨_, _, by rw [← hmode]⟩
    | EXCLUSIVE =>
      simp only [LockT.acquire, hmode] at h
      cases h
      exact .inr rfl
  | EXCLUSIVE =>
    cases hmode : l.mode with
    | OPEN =>
      simp only [LockT.acquire, hmode] at h
      split_ifs at h
      cases h
      exact .inl ⟨_, _, rfl⟩
    | SHARED =>
      simp only [LockT.acquire, hmode] at h
      cases h
      exact .inr rfl
    | EXCLUSIVE =>
      simp only [LockT.acquire, hmode] at h
      cases h
      exact .inr rfl

theorem acquire_steps {m : Mode} (h : l.acquire m = some l') : Steps l (.acquire m) l' := by
  rcases acquire_cases h with ⟨m', n, rfl⟩ | rfl
  · refine ⟨?_, ?_, ?_, ?_, ?_, ?_, ?_, ?_, ?_⟩
    · rintro w (hw | hw)
      · exact .inl (.inl hw)
      · rcases List.mem_append.mp hw with hw | hw
        · exact .inl (.inr hw)
        · rw [List.mem_singleton.mp hw]
          exact .inr ⟨rfl, rfl⟩
    · exact fun id hid _ => hid.imp_left (List.mem_append_left _)
    · exact fun _ _ => ⟨rfl, .inl (List.mem_append_right _ List.mem_cons_self)⟩
    · exact fun w hw _ => List.mem_append_left _ hw
    · intro id hid
      rcases List.mem_append.mp hid with hid | hid
      · exact .inl hid
      · rw [List.mem_singleton.mp hid]
        exact .inr (List.mem_map_of_mem (f := Waiter.id)
          (List.mem_append_right l.holders (List.mem_singleton_self (⟨l.nextId, m⟩ : Waiter))))
    · intro hsub
      simp only [LockT.trigger, LockT.grant, List.map_append]
      exact hsub.append (List.Sublist.refl _)
    · exact List.subset_append_left _ _
    · exact List.Subset.refl _
    · exact Nat.le_succ _
  · refine ⟨?_, ?_, ?_, ?_, ?_, ?_, ?_, ?_, ?_⟩
    · rintro w (hw | hw)
      · rcases List.mem_append.mp hw with hw | hw
        · exact .inl (.inl hw)
        · rw [List.mem_singleton.mp hw]
          exact .inr ⟨rfl, rfl⟩
      · exact .inl (.inr hw)
    · intro id hid _
      refine hid.imp_right fun hid => ?_
      rw [List.map_append]
      exact List.mem_append_left _ hid
    · refine fun _ _ => ⟨rfl, .inr ?_⟩
      rw [List.map_append]
      exact List.mem_append_right _ List.mem_cons_self
    · exact fun w hw _ => hw
    · exact fun id hid => .inl hid
    · exact fun hsub => hsub
    · exact List.Subset.refl _
    · exact List.Subset.refl _
    · exact Nat.le_succ _

theorem cancel_steps (h : l.cancel id = some l') : Steps l (.cancel id) l' := by
  obtain ⟨l₁, hremove, hrest⟩ := Option.bind_eq_some_iff.mp h
  obtain ⟨-, rfl⟩ := removeWaiter_some hremove
  cases hrest
  refine ⟨?_, ?_, ?_, ?_, ?_, ?_, ?_, ?_, ?_⟩
  · exact fun w hw => .inl (hw.imp_left List.mem_of_mem_eraseP)
  · intro id' hid hne
    exact hid.imp_right fun hid => mem_eraseP_id hid fun heq => hne (congrArg Event.cancel heq.symm)
  · intro m he
    cases he
  · exact fun w hw _ => hw
  · exact fun id hid => .inl hid
  · exact fun hsub => hsub
  · exact List.Subset.refl _
  · exact List.subset_append_left _ _
  · exact le_refl _

theorem deliver_steps (h : l.deliver id = some l') : Steps l (.deliver id) l' := by
  unfold LockT.deliver at h
  split_ifs at h
  cases h
  refine ⟨fun w hw => .inl hw, fun id hid _ => hid, ?_, fun w hw _ => hw, fun id hid => .inl hid,
    fun hsub => hsub, List.subset_append_left _ _, List.Subset.refl _, le_refl _⟩
  intro m he
  cases he

variable {e : Event}

theorem step_steps (h : Books l) (hstep : step l e = some l') : Steps l e l' := by
  cases e with
  | acquire m => exact acquire_steps hstep
  | release id => exact release_steps h hstep
  | cancel id => exact cancel_steps hstep
  | deliver id => exact deliver_steps hstep

/-- The calls whose timer is set wait or are being told, the ones that reported were told or are
canceled, and who was told holds the lock until it is released. -/
structure TimedInv (t : Timed) : Prop where
  lock : Inv t.lock
  below : ∀ c ∈ t.calls, c.id < t.lock.nextId
  people : ∀ w, w ∈ t.lock.waiters ∨ w ∈ t.lock.holders → ∀ c ∈ t.calls, c.id = w.id → c = w
  once : (t.lock.holders.map Waiter.id).Sublist t.lock.granted
  loop : ∀ id ∈ t.lock.loop, id ∈ t.lock.holders.map Waiter.id
  timers : ∀ id ∈ t.timers, id ∉ t.lock.fired ∧ id ∈ t.calls.map Waiter.id ∧
    (id ∈ t.lock.granted ∨ id ∈ t.lock.waiters.map Waiter.id)
  timersNodup : t.timers.Nodup
  reported : ∀ id ok, (id, ok) ∈ t.reported →
    id ∈ t.calls.map Waiter.id ∧ if ok then id ∈ t.lock.fired else id ∈ t.lock.canceled
  reportedNodup : (t.reported.map Prod.fst).Nodup

section Facts

variable {t : Timed}

theorem Books.granted_of_fired (h : Books l) (hid : id ∈ l.fired) : id ∈ l.granted :=
  h.fired.subset (List.mem_append_left _ hid)

theorem Books.granted_of_loop (h : Books l) (hid : id ∈ l.loop) : id ∈ l.granted :=
  h.fired.subset (List.mem_append_right _ hid)

theorem Books.not_canceled (h : Books l)
    (hid : id ∈ l.granted ∨ id ∈ l.waiters.map Waiter.id) : id ∉ l.canceled :=
  fun hmem => (List.nodup_append.mp h.nodup).2.2 _ (List.mem_append.mpr hid) _ hmem rfl

theorem Books.loop_of_not_fired (h : Books l) (hid : id ∈ l.granted)
    (hnot : id ∉ l.fired) : id ∈ l.loop :=
  (List.mem_append.mp (h.fired.symm.subset hid)).resolve_left hnot

theorem Books.not_fired_of_loop (h : Books l) (hid : id ∈ l.loop) : id ∉ l.fired := by
  have hnodup : (l.fired ++ l.loop).Nodup :=
    h.fired.nodup_iff.mpr (List.nodup_append.mp (List.nodup_append.mp h.nodup).1).1
  exact fun hfired => (List.nodup_append.mp hnodup).2.2 _ hfired _ hid rfl

theorem TimedInv.held (h : TimedInv t) (hok : Allowed t.lock e)
    (hs : Steps t.lock e l') (hid : id ∈ l'.granted) (hnot : id ∉ t.lock.fired) :
    id ∈ l'.holders.map Waiter.id := by
  rcases hs.told id hid with hold | hnew
  · have hloop := h.lock.books.loop_of_not_fired hold hnot
    obtain ⟨w, hw, rfl⟩ := List.mem_map.mp (h.loop id hloop)
    refine List.mem_map_of_mem (hs.stays w hw ?_)
    rintro rfl
    exact hok.2 hloop
  · exact hnew

end Facts

/-- The call of `timed_acquire` that a step of the lock belongs to, if there is one. -/
def Joins (l : LockT) (e : Event) (new : List Waiter) : Prop :=
  new = [] ∨ ∃ m, e = .acquire m ∧ new = [⟨l.nextId, m⟩]

variable {new : List Waiter}

theorem Joins.fresh (h : Joins l e new) {c : Waiter}
    (hc : c ∈ new) : c.id = l.nextId ∧ e = .acquire c.mode := by
  rcases h with rfl | ⟨m, rfl, rfl⟩
  · cases hc
  · rw [List.mem_singleton.mp hc]
    exact ⟨rfl, rfl⟩

theorem TimedInv.waiting {t : Timed} (h : TimedInv t) (hs : Steps t.lock e l')
    (hcancel : ∀ id, e = .cancel id → id ∉ t.timers)
    (hnew : Joins t.lock e new) (hid : id ∈ t.timers ++ new.map Waiter.id) :
    id ∉ t.lock.fired ∧ id ∈ (t.calls ++ new).map Waiter.id ∧
      (id ∈ l'.granted ∨ id ∈ l'.waiters.map Waiter.id) := by
  rw [List.map_append]
  rcases List.mem_append.mp hid with hid | hid
  · obtain ⟨hfired, hcall, hknown⟩ := h.timers id hid
    exact ⟨hfired, List.mem_append_left _ hcall, hs.known id hknown fun he => hcancel id he hid⟩
  · obtain ⟨c, hc, rfl⟩ := List.mem_map.mp hid
    obtain ⟨hcid, he⟩ := hnew.fresh hc
    refine ⟨fun hfired => ?_, List.mem_append_right _ hid, ?_⟩
    · have hlt := h.lock.books.below c.id
        (List.mem_append_left _ (List.mem_append_left _ (h.lock.books.granted_of_fired hfired)))
      omega
    · rw [hcid]
      exact (hs.joins c.mode he).2

theorem TimedInv.resume {t : Timed} (h : TimedInv t) (hok : Allowed t.lock e)
    (hs : Steps t.lock e l') (hinv : Inv l') (hcancel : ∀ id, e = .cancel id → id ∉ t.timers)
    (hnew : Joins t.lock e new) :
    TimedInv ({ t with
      calls := t.calls ++ new, timers := t.timers ++ new.map Waiter.id }.resume l') := by
  have htimers : ∀ id ∈ t.timers ++ new.map Waiter.id, id ∉ t.lock.fired ∧
      id ∈ (t.calls ++ new).map Waiter.id ∧ (id ∈ l'.granted ∨ id ∈ l'.waiters.map Waiter.id) :=
    fun id hid => h.waiting hs hcancel hnew hid
  have hnodup : (t.timers ++ new.map Waiter.id).Nodup := by
    refine List.nodup_append.mpr ⟨h.timersNodup, ?_, ?_⟩
    · rcases hnew with rfl | ⟨m, -, rfl⟩
      · exact List.nodup_nil
      · exact List.nodup_singleton _
    · rintro id hid id' hid' rfl
      obtain ⟨c, hc, rfl⟩ := List.mem_map.mp hid'
      obtain ⟨c', hc', heq⟩ := List.mem_map.mp (h.timers _ hid).2.1
      have hlt := h.below c' hc'
      have hcid := (hnew.fresh hc).1
      omega
  refine ⟨hinv, ?_, ?_, hs.once h.once, ?_, ?_, ?_, ?_, ?_⟩
  · intro c hc
    rcases List.mem_append.mp hc with hc | hc
    · exact Nat.lt_of_lt_of_le (h.below c hc) hs.nextId
    · obtain ⟨hcid, he⟩ := hnew.fresh hc
      have hnext := (hs.joins c.mode he).1
      simp only [Timed.resume]
      omega
  · intro w hw c hc hid
    rcases hs.people w hw with hold | ⟨he, hwid⟩
    · rcases List.mem_append.mp hc with hc | hc
      · exact h.people w hold c hc hid
      · have hlt : w.id < t.lock.nextId := by
          refine h.lock.books.below w.id (List.mem_append_left _ (List.mem_append.mpr ?_))
          exact hold.symm.imp (h.lock.books.holders w) fun hw => List.mem_map_of_mem hw
        have hcid := (hnew.fresh hc).1
        omega
    · rcases List.mem_append.mp hc with hc | hc
      · have hlt := h.below c hc
        omega
      · obtain ⟨hcid, he'⟩ := hnew.fresh hc
        have hmode : c.mode = w.mode := by
          have heq := he'.symm.trans he
          injection heq
        cases c
        cases w
        simp_all
  · intro id hid
    exact h.held hok hs (hinv.books.granted_of_loop hid)
      fun hfired => hinv.books.not_fired_of_loop hid (hs.fired hfired)
  · intro id hid
    obtain ⟨hmem, hnot⟩ := List.mem_filter.mp hid
    exact ⟨of_decide_eq_true hnot, (htimers id hmem).2⟩
  · exact hnodup.filter _
  · intro id ok hmem
    rcases List.mem_append.mp hmem with hold | hnow
    · obtain ⟨hcall, hstate⟩ := h.reported id ok hold
      refine ⟨?_, ?_⟩
      · simp only [Timed.resume, List.map_append]
        exact List.mem_append_left _ hcall
      · cases ok with
        | true => exact hs.fired hstate
        | false => exact hs.canceled hstate
    · obtain ⟨id', hid', heq⟩ := List.mem_map.mp hnow
      cases heq
      obtain ⟨hmem, hfired⟩ := List.mem_filter.mp hid'
      exact ⟨(htimers _ hmem).2.1, of_decide_eq_true hfired⟩
  · simp only [Timed.resume, List.map_append, List.map_map]
    have hself : (Prod.fst ∘ fun id : ℕ => (id, true)) = id := rfl
    rw [hself, List.map_id, List.nodup_append]
    refine ⟨h.reportedNodup, ?_, ?_⟩
    · exact hnodup.filter _
    · rintro id hid id' hid' rfl
      obtain ⟨⟨_, ok⟩, hmem, rfl⟩ := List.mem_map.mp hid
      obtain ⟨hmem', -⟩ := List.mem_filter.mp hid'
      obtain ⟨hfired, -, hknown⟩ := htimers _ hmem'
      have hstate := (h.reported _ ok hmem).2
      cases ok with
      | true => exact hfired hstate
      | false => exact hinv.books.not_canceled hknown (hs.canceled hstate)

theorem TimedInv.timer {t : Timed} (h : TimedInv t) (hid : id ∈ t.timers)
    (ht : id ∉ t.lock.loop) : ∃ t', t.timer id = some t' ∧ TimedInv t' ∧
      t'.reported = t.reported ++ [(id, false)] := by
  obtain ⟨hfired, hcall, hknown⟩ := h.timers id hid
  have hwaits : id ∈ t.lock.waiters.map Waiter.id := by
    refine hknown.resolve_left fun hgranted => ht ?_
    exact h.lock.books.loop_of_not_fired hgranted hfired
  obtain ⟨l', hcancel, hinv⟩ := h.lock.cancel hwaits
  have hs := cancel_steps hcancel
  have hl' : l'.fired = t.lock.fired ∧ id ∈ l'.canceled := by
    obtain ⟨l₁, hremove, hrest⟩ := Option.bind_eq_some_iff.mp hcancel
    obtain ⟨-, rfl⟩ := removeWaiter_some hremove
    cases hrest
    exact ⟨rfl, List.mem_append_right _ List.mem_cons_self⟩
  let t' : Timed := { t with
    lock := l', timers := t.timers.erase id, reported := t.reported ++ [(id, false)] }
  refine ⟨t', ?_, ⟨hinv, ?_, ?_, hs.once h.once, ?_, ?_, h.timersNodup.erase id, ?_, ?_⟩, rfl⟩
  · simp only [Timed.timer, if_pos hid, hcancel, Option.bind_eq_bind, Option.bind_some, t']
  · exact fun c hc => Nat.lt_of_lt_of_le (h.below c hc) hs.nextId
  · intro w hw c hc heq
    rcases hs.people w hw with hold | ⟨he, -⟩
    · exact h.people w hold c hc heq
    · cases he
  · intro id' hid'
    exact h.held (e := .cancel id) (.inl hwaits) hs (hinv.books.granted_of_loop hid')
      fun hfired => hinv.books.not_fired_of_loop hid' (hs.fired hfired)
  · intro id' hid'
    obtain ⟨hne, hmem⟩ := h.timersNodup.mem_erase_iff.mp hid'
    obtain ⟨hfired', hcall', hknown'⟩ := h.timers id' hmem
    refine ⟨?_, hcall', hs.known id' hknown' ?_⟩
    · change id' ∉ l'.fired
      rw [hl'.1]
      exact hfired'
    · intro he
      cases he
      exact hne rfl
  · intro id' ok hmem
    rcases List.mem_append.mp hmem with hold | hnow
    · obtain ⟨hcall', hstate⟩ := h.reported id' ok hold
      refine ⟨hcall', ?_⟩
      cases ok with
      | true => exact hs.fired hstate
      | false => exact hs.canceled hstate
    · cases List.mem_singleton.mp hnow
      exact ⟨hcall, hl'.2⟩
  · simp only [t', List.map_append, List.map_cons, List.map_nil]
    refine List.nodup_append.mpr ⟨h.reportedNodup, List.nodup_singleton _, ?_⟩
    rintro id' hid' id'' hid'' rfl
    obtain ⟨⟨_, ok⟩, hmem, rfl⟩ := List.mem_map.mp hid'
    cases List.mem_singleton.mp hid''
    have hstate := (h.reported _ ok hmem).2
    cases ok with
    | true => exact hfired hstate
    | false => exact h.lock.books.not_canceled hknown hstate

theorem TimedInv.init (m : Mode) : TimedInv (.init m) := by
  refine ⟨.init m, ?_, ?_, ?_, ?_, ?_, List.nodup_nil, ?_, List.nodup_nil⟩
  · intro c hc
    cases hc
  · intro w hw c hc
    cases hc
  · cases m <;> simp [Timed.init, LockT.init]
  · intro id hid
    cases hid
  · intro id hid
    cases hid
  · intro id ok hmem
    cases hmem

/-- Whom a step of the lock tells that the lock is his holds it once, in the mode that he asked
for. -/
theorem TimedInv.resume_told {t : Timed} (h : TimedInv t) (hok : Allowed t.lock e)
    (hs : Steps t.lock e l') (hinv : Inv l') (hcancel : ∀ id, e = .cancel id → id ∉ t.timers)
    (hnew : Joins t.lock e new) {c : Waiter} (hc : c ∈ t.calls ++ new)
    (hnow : (c.id, true) ∈ ({ t with
      calls := t.calls ++ new, timers := t.timers ++ new.map Waiter.id }.resume l').reported)
    (hbefore : (c.id, true) ∉ t.reported) :
    c ∈ l'.holders ∧ (l'.holders.map Waiter.id).count c.id = 1 := by
  obtain ⟨id, hid, heq⟩ := List.mem_map.mp ((List.mem_append.mp hnow).resolve_left hbefore)
  obtain ⟨hmem, hfired⟩ := List.mem_filter.mp hid
  cases heq
  have hgranted := hinv.books.granted_of_fired (of_decide_eq_true hfired)
  have hheld := h.held hok hs hgranted (h.waiting hs hcancel hnew hmem).1
  obtain ⟨w, hw, hwid⟩ := List.mem_map.mp hheld
  have hnodup : (l'.holders.map Waiter.id).Nodup :=
    (hs.once h.once).nodup (List.nodup_append.mp (List.nodup_append.mp hinv.books.nodup).1).1
  refine ⟨?_, List.count_eq_one_of_mem hnodup hheld⟩
  rw [(h.resume hok hs hinv hcancel hnew).people w (.inr hw) c hc hwid.symm]
  exact hw

theorem TimedInv.step {t : Timed} (h : TimedInv t) {a : Act} (hok : TimedAllowed t a)
    (ht : InTime t a) : ∃ t', timedStep t a = some t' ∧ TimedInv t' ∧
      ∀ c ∈ t'.calls, (c.id, true) ∈ t'.reported → (c.id, true) ∉ t.reported →
        c ∈ t'.lock.holders ∧ (t'.lock.holders.map Waiter.id).count c.id = 1 := by
  cases a with
  | user e =>
    obtain ⟨hallowed, hown⟩ := hok
    obtain ⟨l', hl', hinv⟩ := h.lock.step hallowed ht
    have hs := step_steps h.lock.books hl'
    have hcancel : ∀ id, e = .cancel id → id ∉ t.timers := fun id he => (hown id he).2
    have hnone : Joins t.lock e [] := .inl rfl
    have hresume := h.resume hallowed hs hinv hcancel hnone
    have htold := fun c => h.resume_told hallowed hs hinv hcancel hnone (c := c)
    simp only [List.map_nil, List.append_nil] at hresume htold
    exact ⟨t.resume l', by simp only [timedStep, hl', Option.map_some], hresume, htold⟩
  | timedAcquire m =>
    have hallowed : Allowed t.lock (.acquire m) := hok
    obtain ⟨l', hl', hinv⟩ := h.lock.step hallowed ht
    have hs := step_steps h.lock.books hl'
    have hcancel : ∀ id, Event.acquire m = .cancel id → id ∉ t.timers := by
      intro id he
      cases he
    have hone : Joins t.lock (.acquire m) [⟨t.lock.nextId, m⟩] := .inr ⟨m, rfl, rfl⟩
    refine ⟨_, ?_, h.resume hallowed hs hinv hcancel hone,
      fun c => h.resume_told hallowed hs hinv hcancel hone⟩
    have hacquire : t.lock.acquire m = some l' := hl'
    simp only [timedStep, Timed.timedAcquire, hacquire, Option.bind_eq_bind, Option.bind_some]
    rfl
  | timer id =>
    obtain ⟨t', ht', hinv, hreported⟩ := h.timer hok ht
    refine ⟨t', ht', hinv, ?_⟩
    intro c _ hnow hbefore
    rw [hreported, List.mem_append, List.mem_singleton] at hnow
    rcases hnow with hold | hfalse
    · exact absurd hold hbefore
    · cases hfalse

/-- A timer that comes while the grant is on its way has `cancel` use the waiter that `call` has
deleted. -/
theorem TimedInv.step_none {t : Timed} (h : TimedInv t) {a : Act} (hok : TimedAllowed t a)
    (ht : ¬ InTime t a) : timedStep t a = none := by
  cases a with
  | user e => simp only [timedStep, h.lock.step_none hok.1 ht, Option.map_none]
  | timedAcquire m =>
    have hnone : t.lock.acquire m = none := h.lock.step_none (e := .acquire m) hok ht
    simp only [timedStep, Timed.timedAcquire, hnone, Option.bind_eq_bind, Option.bind_none]
  | timer id =>
    have hloop : id ∈ t.lock.loop := not_not.mp ht
    have hnone : t.lock.cancel id = none := by
      refine h.lock.step_none (e := .cancel id) (.inr hloop) ?_
      intro hwaits
      have hnodup := (List.nodup_append.mp h.lock.books.nodup).1
      exact (List.nodup_append.mp hnodup).2.2 _ (h.lock.books.granted_of_loop hloop) _ hwaits rfl
    simp only [timedStep, Timed.timer, hnone, Option.bind_eq_bind, Option.bind_none, ite_self]

/-- In every run in which no timer comes while the grant to its call is on its way, and the sharers
can be counted, a call that reported that it does not have the lock neither waits for it nor holds
it, and one that reports that it has it holds it once, in the mode that it asked for; and a step
uses a deleted waiter, or counts too far, if and only if it breaks that rule. -/
theorem timedAcquire_run {m : Mode} {as : List Act} {t : Timed}
    (hrun : Run timedStep (fun t a => TimedAllowed t a ∧ InTime t a) (.init m) as t) :
    Good t.lock ∧ (t.reported.map Prod.fst).Nodup ∧
      (∀ id, (id, false) ∈ t.reported → id ∉ t.lock.waiters.map Waiter.id ∧
        id ∉ t.lock.holders.map Waiter.id ∧ id ∉ t.lock.loop) ∧
      (∀ a, TimedAllowed t a → ((timedStep t a).isSome ↔ InTime t a)) ∧
      ∀ a t', TimedAllowed t a → timedStep t a = some t' → ∀ c ∈ t'.calls,
        (c.id, true) ∈ t'.reported → (c.id, true) ∉ t.reported →
          c ∈ t'.lock.holders ∧ (t'.lock.holders.map Waiter.id).count c.id = 1 := by
  have h : TimedInv t := by
    refine hrun.invariant (.init m) ?_
    rintro a e b ha ⟨hok, ht⟩ hstep
    obtain ⟨b', hb', hinv, -⟩ := ha.step hok ht
    cases hb'.symm.trans hstep
    exact hinv
  refine ⟨h.lock.good, h.reportedNodup, ?_, ?_, ?_⟩
  · intro id hmem
    have hcanceled : id ∈ t.lock.canceled := (h.reported id false hmem).2
    have hnot := fun hid => @Books.not_canceled _ id h.lock.books hid hcanceled
    refine ⟨fun hid => hnot (.inr hid), fun hid => hnot (.inl ?_),
      fun hid => hnot (.inl (h.lock.books.granted_of_loop hid))⟩
    obtain ⟨w, hw, rfl⟩ := List.mem_map.mp hid
    exact h.lock.books.holders w hw
  · intro a hok
    constructor
    · intro hsome
      by_contra ht
      rw [h.step_none hok ht] at hsome
      cases hsome
    · intro ht
      obtain ⟨t', ht', -⟩ := h.step hok ht
      rw [ht']
      rfl
  · intro a t' hok hstep
    by_cases ht : InTime t a
    · obtain ⟨t'', ht'', -, htold⟩ := h.step hok ht
      cases ht''.symm.trans hstep
      exact htold
    · rw [h.step_none hok ht] at hstep
      cases hstep

instance (t : Timed) : (a : Act) → Decidable (TimedAllowed t a)
  | .user (.cancel id) => decidable_of_iff
      (Allowed t.lock (.cancel id) ∧ id ∈ t.lock.waiters.map Waiter.id ∧ id ∉ t.timers)
      (by simp [TimedAllowed])
  | .user (.acquire m) => decidable_of_iff (Allowed t.lock (.acquire m)) (by simp [TimedAllowed])
  | .user (.release id) => decidable_of_iff (Allowed t.lock (.release id)) (by simp [TimedAllowed])
  | .user (.deliver id) => decidable_of_iff (Allowed t.lock (.deliver id)) (by simp [TimedAllowed])
  | .timedAcquire m => inferInstanceAs (Decidable (m ≠ .OPEN))
  | .timer id => inferInstanceAs (Decidable (id ∈ t.timers))

instance (t : Timed) : (a : Act) → Decidable (InTime t a)
  | .user e => inferInstanceAs (Decidable (Timely t.lock e))
  | .timedAcquire m => inferInstanceAs (Decidable (Timely t.lock (.acquire m)))
  | .timer id => inferInstanceAs (Decidable (id ∉ t.lock.loop))

/-- Two calls wait for an exclusive holder: the timer of the first one comes in time, and the
second one gets the lock. -/
theorem timedAcquire_run_two :
    ∃ t : Timed, t.reported = [(2, false), (3, true)] ∧ t.lock.holders = [⟨3, .SHARED⟩] ∧
      Good t.lock ∧ 2 ∉ t.lock.holders.map Waiter.id := by
  have hex : (([.user (.acquire .EXCLUSIVE), .timedAcquire .SHARED, .timedAcquire .SHARED, .timer 2,
      .user (.release 1), .user (.deliver 3)].foldlM
        (fun t a => if TimedAllowed t a ∧ InTime t a then timedStep t a else none)
        (Timed.init .OPEN)).map fun t => (t.reported, t.lock.holders)) =
      some ([(2, false), (3, true)], [⟨3, .SHARED⟩]) := by
    decide
  obtain ⟨t, ht, hout⟩ := Option.map_eq_some_iff.mp hex
  simp only [Prod.mk.injEq] at hout
  obtain ⟨hreported, hholders⟩ := hout
  obtain ⟨hgood, -, hfalse, -⟩ := timedAcquire_run (Run.of_checked ht)
  exact ⟨t, hreported, hholders, hgood, (hfalse 2 (by rw [hreported]; decide)).2.1⟩

/-- The exclusive holder releases, the sharer that waits is counted and its waiter is deleted; then
the timer comes before the event loop runs the trigger, and the deleted waiter is canceled. -/
theorem timedAcquire_cancels_deleted : ¬ ∀ m as t, Run timedStep TimedAllowed (.init m) as t →
    ∀ a, TimedAllowed t a → (timedStep t a).isSome := by
  intro h
  have hex : (([.user (.acquire .EXCLUSIVE), .timedAcquire .SHARED, .user (.release 1)].foldlM
      (fun t a => if TimedAllowed t a then timedStep t a else none) (Timed.init .OPEN)).map
        fun t => (decide (TimedAllowed t (.timer 2)), (timedStep t (.timer 2)).isSome)) =
      some (true, false) := by
    decide
  obtain ⟨t, ht, hout⟩ := Option.map_eq_some_iff.mp hex
  simp only [Prod.mk.injEq, decide_eq_true_eq] at hout
  have hsome := h .OPEN _ t (Run.of_checked ht) (.timer 2) hout.1
  rw [hout.2] at hsome
  cases hsome

end Sfslite.Libtame.Lock
