import Mathlib.Data.List.Nodup
import Mathlib.Data.List.Perm.Basic
import Sfslite.Libtame.Lock

/-!
What holds of a lock after every sequence of calls: the mode, the count of the sharers, the queue
and the grants that are on their way fit together.
-/

namespace Sfslite.Libtame.Lock

open Sfslite.Lib

/-- Who may hold the lock and who may wait for it, in each mode. -/
inductive Compat (l : LockT) : Prop where
  | opened (mode : l.mode = .OPEN) (sharers : l.sharers = 0) (holders : l.holders = [])
      (waiters : l.waiters = [])
  | shared (mode : l.mode = .SHARED) (sharers : l.sharers = l.holders.length)
      (pos : 0 < l.sharers) (holders : ∀ h ∈ l.holders, h.mode = .SHARED)
      (waiters : ∀ w ∈ l.waiters, w.mode = .EXCLUSIVE)
  | exclusive (mode : l.mode = .EXCLUSIVE) (sharers : l.sharers = 0)
      (holders : ∃ id, l.holders = [⟨id, .EXCLUSIVE⟩])
      (waiters : ∀ w ∈ l.waiters, w.mode ≠ .OPEN)

/-- Every `acquire` is granted, waits or was canceled, and what is granted was triggered or is
going to be. -/
structure Books (l : LockT) : Prop where
  nodup : (l.granted ++ l.waiters.map Waiter.id ++ l.canceled).Nodup
  below : ∀ id ∈ l.granted ++ l.waiters.map Waiter.id ++ l.canceled, id < l.nextId
  fired : (l.fired ++ l.loop).Perm l.granted
  holders : ∀ h ∈ l.holders, h.id ∈ l.granted

structure Inv (l : LockT) : Prop where
  compat : Compat l
  books : Books l

variable {l l' : LockT}

theorem Books.waiters_nodup (h : Books l) : (l.waiters.map Waiter.id).Nodup :=
  (List.nodup_append.mp (List.nodup_append.mp h.nodup).1).2.1

variable {pre post : List Waiter}

theorem removeWaiter_eq {w : Waiter}
    (hsplit : l.waiters = pre ++ w :: post) (hnodup : (l.waiters.map Waiter.id).Nodup) :
    l.removeWaiter w.id = some { l with waiters := pre ++ post } := by
  have hpre : ∀ x ∈ pre, ¬ decide (x.id = w.id) = true := by
    intro x hx hid
    rw [hsplit, List.map_append, List.map_cons, List.nodup_append] at hnodup
    exact hnodup.2.2 _ (List.mem_map_of_mem hx) _ List.mem_cons_self (by simpa using hid)
  have hmem : w.id ∈ l.waiters.map Waiter.id := by simp [hsplit]
  rw [LockT.removeWaiter, if_pos hmem, hsplit, List.eraseP_append_right _ hpre,
    List.eraseP_cons_of_pos (by simp)]

theorem leave_perm {w : Waiter} (hsplit : l.waiters = pre ++ w :: post) :
    (l.granted ++ [w.id] ++ (pre ++ post).map Waiter.id ++ l.canceled).Perm
      (l.granted ++ l.waiters.map Waiter.id ++ l.canceled) := by
  rw [hsplit, List.append_assoc l.granted]
  refine ((List.Perm.append_left _ ?_).append_right _)
  simp only [List.map_append, List.map_cons, List.singleton_append]
  exact List.perm_middle.symm

theorem call_eq {w : Waiter} (h : Books l) (hsplit : l.waiters = pre ++ w :: post) (delay : Bool) :
    ∃ l', l.call w delay = some l' ∧ Books l' ∧ l'.mode = l.mode ∧ l'.sharers = l.sharers ∧
      l'.waiters = pre ++ post ∧ l'.holders = l.holders ++ [w] := by
  have hremove := removeWaiter_eq hsplit h.waiters_nodup
  have hleave := leave_perm hsplit
  have hholders : ∀ x ∈ l.holders ++ [w], x.id ∈ l.granted ++ [w.id] := by
    intro x hx
    rcases List.mem_append.mp hx with hx | hx
    · exact List.mem_append_left _ (h.holders x hx)
    · rw [List.mem_singleton.mp hx]
      exact List.mem_append_right _ List.mem_cons_self
  cases delay with
  | true =>
    refine ⟨(({ l with waiters := pre ++ post }.grant w).dtrigger w.id), ?_, ⟨?_, ?_, ?_, ?_⟩,
      rfl, rfl, rfl, rfl⟩
    · simp only [LockT.call, hremove, Option.bind_eq_bind, Option.bind_some, if_pos]
    · exact hleave.nodup_iff.mpr h.nodup
    · exact fun id hid => h.below id (hleave.subset hid)
    · simp only [LockT.dtrigger, LockT.grant]
      rw [← List.append_assoc]
      exact h.fired.append_right _
    · exact hholders
  | false =>
    refine ⟨(({ l with waiters := pre ++ post }.grant w).trigger w.id), ?_, ⟨?_, ?_, ?_, ?_⟩,
      rfl, rfl, rfl, rfl⟩
    · simp only [LockT.call, hremove, Option.bind_eq_bind, Option.bind_some,
        Bool.false_eq_true, if_false]
    · exact hleave.nodup_iff.mpr h.nodup
    · exact fun id hid => h.below id (hleave.subset hid)
    · simp only [LockT.trigger, LockT.grant]
      rw [List.append_assoc]
      refine ((List.perm_append_comm.append_left _).trans ?_)
      rw [← List.append_assoc]
      exact h.fired.append_right _
    · exact hholders

theorem Books.fresh (h : Books l) {L : List ℕ}
    (hperm : L.Perm (l.nextId :: (l.granted ++ l.waiters.map Waiter.id ++ l.canceled))) :
    L.Nodup ∧ ∀ id ∈ L, id < l.nextId + 1 := by
  constructor
  · refine hperm.nodup_iff.mpr (List.nodup_cons.mpr ⟨?_, h.nodup⟩)
    exact fun hmem => Nat.lt_irrefl _ (h.below _ hmem)
  · intro id hid
    rcases List.mem_cons.mp (hperm.subset hid) with rfl | hid
    · exact Nat.lt_succ_self _
    · exact Nat.lt_succ_of_lt (h.below id hid)

theorem Books.grantNew (h : Books l) (m m' : Mode) (sharers : ℕ) :
    Books (({ l with nextId := l.nextId + 1, mode := m', sharers := sharers }.grant
      ⟨l.nextId, m⟩).trigger l.nextId) := by
  have hperm : (l.granted ++ [l.nextId] ++ l.waiters.map Waiter.id ++ l.canceled).Perm
      (l.nextId :: (l.granted ++ l.waiters.map Waiter.id ++ l.canceled)) := by
    rw [List.append_assoc, List.append_assoc, List.append_assoc]
    exact List.perm_middle
  obtain ⟨hnodup, hbelow⟩ := h.fresh hperm
  refine ⟨hnodup, hbelow, ?_, ?_⟩
  · simp only [LockT.trigger, LockT.grant]
    rw [List.append_assoc]
    refine ((List.perm_append_comm.append_left _).trans ?_)
    rw [← List.append_assoc]
    exact h.fired.append_right _
  · intro x hx
    rcases List.mem_append.mp hx with hx | hx
    · exact List.mem_append_left _ (h.holders x hx)
    · rw [List.mem_singleton.mp hx]
      exact List.mem_append_right _ List.mem_cons_self

theorem Books.enqueue (h : Books l) (m : Mode) :
    Books { l with nextId := l.nextId + 1, waiters := l.waiters ++ [⟨l.nextId, m⟩] } := by
  have hperm : (l.granted ++ (l.waiters ++ [Waiter.mk l.nextId m]).map Waiter.id ++ l.canceled).Perm
      (l.nextId :: (l.granted ++ l.waiters.map Waiter.id ++ l.canceled)) := by
    simp only [List.map_append, List.map_cons, List.map_nil, List.append_assoc,
      List.singleton_append]
    rw [← List.append_assoc, ← List.append_assoc]
    exact List.perm_middle
  obtain ⟨hnodup, hbelow⟩ := h.fresh hperm
  exact ⟨hnodup, hbelow, h.fired, h.holders⟩

theorem Inv.acquire (h : Inv l) {m : Mode} (hm : m ≠ .OPEN) (ht : Timely l (.acquire m)) :
    ∃ l', l.acquire m = some l' ∧ Inv l' := by
  cases m with
  | OPEN => exact absurd rfl hm
  | SHARED =>
    cases h.compat with
    | opened mode sharers holders waiters =>
      refine ⟨_, ?_, ?_, h.books.grantNew .SHARED .SHARED 1⟩
      · simp only [LockT.acquire, mode, if_pos sharers]
      · refine .shared rfl ?_ (Nat.one_pos) ?_ ?_
        · simp [LockT.trigger, LockT.grant, holders]
        · simp [LockT.trigger, LockT.grant, holders]
        · simp [LockT.trigger, LockT.grant, waiters]
    | shared mode sharers pos holders waiters =>
      refine ⟨_, ?_, ?_, h.books.grantNew .SHARED .SHARED (l.sharers + 1)⟩
      · simp only [LockT.acquire, mode, if_pos pos, LockT.incSharers, if_pos (ht rfl mode),
          Option.bind_eq_bind, Option.bind_some]
      · refine .shared rfl ?_ (Nat.succ_pos _) ?_ waiters
        · simp [LockT.trigger, LockT.grant, sharers]
        · intro x hx
          rcases List.mem_append.mp hx with hx | hx
          · exact holders x hx
          · rw [List.mem_singleton.mp hx]
    | exclusive mode sharers holders waiters =>
      refine ⟨_, ?_, ?_, h.books.enqueue .SHARED⟩
      · simp only [LockT.acquire, mode]
      · refine .exclusive mode sharers holders ?_
        intro w hw
        rcases List.mem_append.mp hw with hw | hw
        · exact waiters w hw
        · rw [List.mem_singleton.mp hw]
          exact nofun
  | EXCLUSIVE =>
    cases h.compat with
    | opened mode sharers holders waiters =>
      refine ⟨_, ?_, ?_, h.books.grantNew .EXCLUSIVE .EXCLUSIVE l.sharers⟩
      · simp only [LockT.acquire, mode, if_pos sharers]
      · refine .exclusive rfl sharers ⟨l.nextId, ?_⟩ ?_
        · simp [LockT.trigger, LockT.grant, holders]
        · simp [LockT.trigger, LockT.grant, waiters]
    | shared mode sharers pos holders waiters =>
      refine ⟨_, ?_, ?_, h.books.enqueue .EXCLUSIVE⟩
      · simp only [LockT.acquire, mode]
      · refine .shared mode sharers pos holders ?_
        intro w hw
        rcases List.mem_append.mp hw with hw | hw
        · exact waiters w hw
        · rw [List.mem_singleton.mp hw]
    | exclusive mode sharers holders waiters =>
      refine ⟨_, ?_, ?_, h.books.enqueue .EXCLUSIVE⟩
      · simp only [LockT.acquire, mode]
      · refine .exclusive mode sharers holders ?_
        intro w hw
        rcases List.mem_append.mp hw with hw | hw
        · exact waiters w hw
        · rw [List.mem_singleton.mp hw]
          exact nofun

theorem callSharers_eq {rest : List Waiter} (h : Books l) (hsplit : l.waiters = pre ++ rest)
    (hroom : l.sharers + (rest.filter (·.mode = .SHARED)).length < 2 ^ 31) :
    ∃ l', LockT.callSharers rest l = some l' ∧ Books l' ∧ l'.mode = l.mode ∧
      l'.sharers = l.sharers + (rest.filter (·.mode = .SHARED)).length ∧
      l'.waiters = pre ++ rest.filter (·.mode ≠ .SHARED) ∧
      l'.holders = l.holders ++ rest.filter (·.mode = .SHARED) := by
  induction rest generalizing l pre with
  | nil => exact ⟨l, rfl, h, rfl, rfl, hsplit, by simp⟩
  | cons p n ih =>
    by_cases hp : p.mode = .SHARED
    · rw [List.filter_cons_of_pos (by simpa using hp)] at hroom ⊢
      rw [List.filter_cons_of_neg (by simpa using hp)]
      rw [List.length_cons] at hroom
      have hinc : l.incSharers = some { l with sharers := l.sharers + 1 } :=
        if_pos (by omega)
      have hbooks : Books { l with sharers := l.sharers + 1 } :=
        { h with }
      obtain ⟨l₁, hcall, hbooks₁, hmode₁, hsharers₁, hwaiters₁, hholders₁⟩ :=
        call_eq hbooks hsplit true
      obtain ⟨l', hloop, hbooks', hmode, hsharers, hwaiters, hholders⟩ :=
        ih hbooks₁ hwaiters₁ (by rw [hsharers₁]; simp only; omega)
      refine ⟨l', ?_, hbooks', hmode.trans hmode₁, ?_, hwaiters, ?_⟩
      · simp only [LockT.callSharers, if_pos hp, hinc, Option.bind_eq_bind, Option.bind_some,
          hcall, hloop]
      · rw [hsharers, hsharers₁, List.length_cons]
        simp only
        omega
      · rw [hholders, hholders₁, List.append_assoc]
        rfl
    · rw [List.filter_cons_of_neg (by simpa using hp)] at hroom ⊢
      rw [List.filter_cons_of_pos (by simpa using hp)]
      have hsplit' : l.waiters = (pre ++ [p]) ++ n := by
        rw [hsplit, List.append_assoc]
        rfl
      obtain ⟨l', hloop, hbooks', hmode, hsharers, hwaiters, hholders⟩ := ih h hsplit' hroom
      refine ⟨l', ?_, hbooks', hmode, hsharers, ?_, hholders⟩
      · simp only [LockT.callSharers, if_neg hp, hloop]
      · rw [hwaiters, List.append_assoc]
        rfl

theorem handOver_eq (h : Books l) (oldMode : Mode) (hmode : l.mode = .OPEN)
    (hsharers : l.sharers = 0) (hholders : l.holders = [])
    (hwaiters : ∀ w ∈ l.waiters, w.mode ≠ .OPEN)
    (hold : oldMode = .SHARED → ∀ w ∈ l.waiters, w.mode = .EXCLUSIVE)
    (hroom : (l.waiters.head?.map Waiter.mode) = some .SHARED →
      (l.waiters.filter (·.mode = .SHARED)).length < 2 ^ 31) :
    ∃ l', l.handOver oldMode = some l' ∧ Inv l' := by
  cases hqueue : l.waiters with
  | nil =>
    refine ⟨l, ?_, .opened hmode hsharers hholders hqueue, h⟩
    rw [LockT.handOver, hqueue]
  | cons w rest =>
    have hw : w ∈ l.waiters := hqueue ▸ List.mem_cons_self
    have hsplit : l.waiters = [] ++ w :: rest := hqueue
    cases hwmode : w.mode with
    | OPEN => exact absurd hwmode (hwaiters w hw)
    | EXCLUSIVE =>
      have hbooks : Books { l with mode := .EXCLUSIVE } :=
        { h with }
      obtain ⟨l', hcall, hbooks', hmode', hsharers', hwaiters', hholders'⟩ :=
        call_eq hbooks hsplit false
      refine ⟨l', ?_, .exclusive hmode' (hsharers'.trans hsharers) ⟨w.id, ?_⟩ ?_, hbooks'⟩
      · simp only [LockT.handOver, hqueue, hwmode]
        rw [← hqueue]
        exact hcall
      · rw [hholders']
        simp only [hholders, List.nil_append, ← hwmode]
      · intro x hx
        rw [hwaiters'] at hx
        exact hwaiters x (hqueue ▸ List.mem_cons_of_mem _ hx)
    | SHARED =>
      have hne : oldMode ≠ .SHARED := by
        intro hshared
        rw [hold hshared w hw] at hwmode
        cases hwmode
      have hbooks : Books { l with mode := .SHARED } :=
        { h with }
      have hfits : (l.waiters.filter (·.mode = .SHARED)).length < 2 ^ 31 :=
        hroom (by rw [hqueue, ← hwmode]; rfl)
      obtain ⟨l', hloop, hbooks', hmode', hsharers', hwaiters', hholders'⟩ :=
        callSharers_eq hbooks (List.nil_append l.waiters).symm (by simpa [hsharers] using hfits)
      simp only [hsharers, Nat.zero_add] at hsharers'
      simp only [hholders, List.nil_append] at hholders' hwaiters'
      refine ⟨l', ?_, .shared hmode' ?_ ?_ ?_ ?_, hbooks'⟩
      · simp only [LockT.handOver, hqueue, hwmode, ne_eq, if_pos hne]
        rw [← hqueue]
        exact hloop
      · rw [hsharers', hholders']
      · rw [hsharers']
        exact List.length_pos_of_mem (List.mem_filter.mpr ⟨hw, by simpa using hwmode⟩)
      · intro x hx
        rw [hholders'] at hx
        simpa using (List.mem_filter.mp hx).2
      · intro x hx
        rw [hwaiters'] at hx
        obtain ⟨hx, hxmode⟩ := List.mem_filter.mp hx
        have hnot := hwaiters x hx
        cases hxm : x.mode with
        | OPEN => exact absurd hxm hnot
        | SHARED => simp [hxm] at hxmode
        | EXCLUSIVE => rfl

theorem Inv.release (h : Inv l) {id : ℕ} (hid : id ∈ l.holders.map Waiter.id)
    (ht : Timely l (.release id)) : ∃ l', l.release id = some l' ∧ Inv l' := by
  obtain ⟨x, hx, rfl⟩ := List.mem_map.mp hid
  have hbooks : Books { l with holders := l.holders.eraseP (·.id = x.id) } :=
    { h.books with holders := fun y hy => h.books.holders y (List.mem_of_mem_eraseP hy) }
  have hlength : (l.holders.eraseP (·.id = x.id)).length = l.holders.length - 1 :=
    List.length_eraseP_of_mem hx (by simp)
  cases h.compat with
  | opened mode sharers holders waiters =>
    rw [holders] at hx
    cases hx
  | shared mode sharers pos holders waiters =>
    by_cases hlast : l.sharers - 1 = 0
    · have hnone : l.holders.eraseP (·.id = x.id) = [] :=
        List.eq_nil_of_length_eq_zero (by omega)
      obtain ⟨l', hl', hinv⟩ := handOver_eq (l := { l with
          holders := l.holders.eraseP (·.id = x.id), sharers := l.sharers - 1, mode := .OPEN })
        { hbooks with } .SHARED rfl hlast hnone
        (fun w hw => by rw [waiters w hw]; exact nofun) (fun _ => waiters)
        (by
          intro hhead
          obtain ⟨w, hw, hwmode⟩ := Option.map_eq_some_iff.mp hhead
          rw [waiters w (List.mem_of_mem_head? hw)] at hwmode
          cases hwmode)
      refine ⟨l', ?_, hinv⟩
      simp only [LockT.release, mode, if_pos pos, if_pos hlast]
      exact hl'
    · refine ⟨{ l with
          holders := l.holders.eraseP (·.id = x.id), sharers := l.sharers - 1 }, ?_,
        .shared mode ?_ (Nat.pos_of_ne_zero hlast) ?_ waiters,
        { hbooks with }⟩
      · simp only [LockT.release, mode, if_pos pos, if_neg hlast]
      · simp only [hlength, sharers]
      · exact fun y hy => holders y (List.mem_of_mem_eraseP hy)
  | exclusive mode sharers holders waiters =>
    obtain ⟨id, hone⟩ := holders
    have hnone : l.holders.eraseP (·.id = x.id) = [] :=
      List.eq_nil_of_length_eq_zero (by rw [hlength, hone]; rfl)
    obtain ⟨l', hl', hinv⟩ := handOver_eq
      (l := { l with holders := l.holders.eraseP (·.id = x.id), mode := .OPEN })
      { hbooks with } .EXCLUSIVE rfl sharers hnone
      waiters nofun (ht mode)
    refine ⟨l', ?_, hinv⟩
    simp only [LockT.release, mode, if_pos sharers]
    exact hl'

theorem Inv.cancel (h : Inv l) {id : ℕ} (hid : id ∈ l.waiters.map Waiter.id) :
    ∃ l', l.cancel id = some l' ∧ Inv l' := by
  obtain ⟨w, hw, rfl⟩ := List.mem_map.mp hid
  obtain ⟨pre, post, hsplit⟩ := List.append_of_mem hw
  have hsub : ∀ x ∈ pre ++ post, x ∈ l.waiters := by
    intro x hx
    rw [hsplit]
    exact (List.sublist_append_right [w] post |>.append_left pre).subset hx
  have hperm : (l.granted ++ (pre ++ post).map Waiter.id ++ (l.canceled ++ [w.id])).Perm
      (l.granted ++ l.waiters.map Waiter.id ++ l.canceled) := by
    refine List.Perm.trans ?_ (leave_perm hsplit)
    rw [List.perm_iff_count]
    intro a
    simp only [List.count_append]
    omega
  refine ⟨{ l with waiters := pre ++ post, canceled := l.canceled ++ [w.id] }, ?_, ?_, ?_⟩
  · simp only [LockT.cancel, removeWaiter_eq hsplit h.books.waiters_nodup, Option.bind_eq_bind,
      Option.bind_some]
  · cases h.compat with
    | opened mode sharers holders waiters =>
      rw [waiters] at hw
      cases hw
    | shared mode sharers pos holders waiters =>
      exact .shared mode sharers pos holders fun x hx => waiters x (hsub x hx)
    | exclusive mode sharers holders waiters =>
      exact .exclusive mode sharers holders fun x hx => waiters x (hsub x hx)
  · exact ⟨hperm.nodup_iff.mpr h.books.nodup, fun id hid => h.books.below id (hperm.subset hid),
      h.books.fired, h.books.holders⟩

theorem Inv.deliver (h : Inv l) {id : ℕ} (hid : id ∈ l.loop) :
    ∃ l', l.deliver id = some l' ∧ Inv l' := by
  refine ⟨{ l with loop := l.loop.erase id }.trigger id, ?_, ?_, ?_⟩
  · rw [LockT.deliver, if_pos hid]
  · cases h.compat with
    | opened mode sharers holders waiters => exact .opened mode sharers holders waiters
    | shared mode sharers pos holders waiters => exact .shared mode sharers pos holders waiters
    | exclusive mode sharers holders waiters => exact .exclusive mode sharers holders waiters
  · refine { h.books with fired := ?_ }
    simp only [LockT.trigger, List.append_assoc, List.singleton_append]
    exact ((List.perm_cons_erase hid).symm.append_left _).trans h.books.fired

theorem Inv.init (m : Mode) : Inv (.init m) := by
  cases m with
  | OPEN =>
    exact ⟨.opened rfl rfl rfl rfl, ⟨List.nodup_nil, nofun, .refl _, nofun⟩⟩
  | SHARED =>
    refine ⟨.shared rfl rfl Nat.one_pos ?_ nofun, ⟨by decide, by decide, .refl _, ?_⟩⟩
    all_goals simp [LockT.init]
  | EXCLUSIVE =>
    refine ⟨.exclusive rfl rfl ⟨0, rfl⟩ nofun, ⟨by decide, by decide, .refl _, ?_⟩⟩
    simp [LockT.init]

theorem Inv.step (h : Inv l) {e : Event} (hok : Allowed l e) (ht : Timely l e) :
    ∃ l', step l e = some l' ∧ Inv l' := by
  cases e with
  | acquire m => exact h.acquire hok ht
  | release id => exact h.release hok.1 ht
  | cancel id => exact h.cancel ht
  | deliver id => exact h.deliver hok

theorem callSharers_overflow {rest : List Waiter} (h : Books l) (hsplit : l.waiters = pre ++ rest)
    (hroom : 2 ^ 31 ≤ l.sharers + (rest.filter (·.mode = .SHARED)).length)
    (hlt : l.sharers < 2 ^ 31) : LockT.callSharers rest l = none := by
  induction rest generalizing l pre with
  | nil =>
    simp only [List.filter_nil, List.length_nil] at hroom
    omega
  | cons p n ih =>
    by_cases hp : p.mode = .SHARED
    · rw [List.filter_cons_of_pos (by simpa using hp), List.length_cons] at hroom
      by_cases hinc : l.sharers + 1 < 2 ^ 31
      · have hbooks : Books { l with sharers := l.sharers + 1 } :=
          { h with }
        obtain ⟨l₁, hcall, hbooks₁, -, hsharers₁, hwaiters₁, -⟩ := call_eq hbooks hsplit true
        have hrest := ih hbooks₁ hwaiters₁ (by rw [hsharers₁]; simp only; omega)
          (by rw [hsharers₁]; exact hinc)
        simp only [LockT.callSharers, if_pos hp, LockT.incSharers, if_pos hinc,
          Option.bind_eq_bind, Option.bind_some, hcall, hrest]
      · simp only [LockT.callSharers, if_pos hp, LockT.incSharers, if_neg hinc,
          Option.bind_eq_bind, Option.bind_none]
    · rw [List.filter_cons_of_neg (by simpa using hp)] at hroom
      have hsplit' : l.waiters = (pre ++ [p]) ++ n := by
        rw [hsplit, List.append_assoc]
        rfl
      simp only [LockT.callSharers, if_neg hp, ih h hsplit' hroom hlt]

/-- A call that comes too late looks at a waiter that was deleted, and more sharers than an
`int` can count do not fit. -/
theorem Inv.step_none (h : Inv l) {e : Event} (hok : Allowed l e) (ht : ¬ Timely l e) :
    Lock.step l e = none := by
  cases e with
  | acquire m =>
    simp only [Timely, Classical.not_imp, Nat.not_lt] at ht
    obtain ⟨rfl, hmode, hfull⟩ := ht
    cases h.compat with
    | opened mode sharers holders waiters => cases hmode.symm.trans mode
    | shared mode sharers pos holders waiters =>
      simp only [Lock.step, LockT.acquire, mode, if_pos pos]
      simp only [LockT.incSharers, if_neg (by omega : ¬ l.sharers + 1 < 2 ^ 31),
        Option.bind_eq_bind, Option.bind_none]
    | exclusive mode sharers holders waiters => cases hmode.symm.trans mode
  | release id =>
    simp only [Timely, Classical.not_imp, Nat.not_lt] at ht
    obtain ⟨hmode, hhead, hfull⟩ := ht
    obtain ⟨w, hw, hwmode⟩ := Option.map_eq_some_iff.mp hhead
    cases h.compat with
    | opened mode sharers holders waiters => cases hmode.symm.trans mode
    | shared mode sharers pos holders waiters => cases hmode.symm.trans mode
    | exclusive mode sharers holders waiters =>
      cases hqueue : l.waiters with
      | nil =>
        rw [hqueue] at hw
        cases hw
      | cons w' rest =>
        rw [hqueue] at hw
        obtain rfl : w' = w := Option.some.inj hw
        have hloop := callSharers_overflow
          (l := { l with
            holders := l.holders.eraseP (·.id = id), mode := .SHARED, waiters := l.waiters })
          { h.books with
            holders := fun y hy => h.books.holders y (List.mem_of_mem_eraseP hy) }
          (List.nil_append l.waiters).symm (by simpa [sharers] using hfull)
          (by simp [sharers])
        simp only [Lock.step, LockT.release, mode, if_pos sharers, LockT.handOver, hqueue,
          hwmode, ne_eq, reduceCtorEq, not_false_eq_true, if_true]
        rw [← hqueue]
        exact hloop
  | cancel id =>
    have hgone : l.removeWaiter id = none := if_neg ht
    simp only [Lock.step, LockT.cancel, hgone, Option.bind_eq_bind, Option.bind_none]
  | deliver id => exact absurd trivial ht

/-- Mode, sharers, holders and waiters fit together, and everyone who did not cancel is granted
the lock and triggered at most once. -/
structure Good (l : LockT) : Prop where
  opened : l.mode = .OPEN → l.holders = [] ∧ l.waiters = []
  shared : l.mode = .SHARED → l.sharers = l.holders.length ∧ 1 ≤ l.sharers ∧
    ∀ w ∈ l.waiters, w.mode = .EXCLUSIVE
  exclusive : l.mode = .EXCLUSIVE → l.holders.length = 1 ∧ l.sharers = 0
  compatible : ∀ h ∈ l.holders, h.mode = l.mode
  granted : l.granted.Nodup
  fired : (l.fired ++ l.loop).Perm l.granted
  waiting : ∀ w ∈ l.waiters, w.id ∉ l.granted
  canceled : ∀ id ∈ l.canceled, id ∉ l.granted

theorem Inv.good (h : Inv l) : Good l := by
  obtain ⟨hgw, -, hgc⟩ := List.nodup_append.mp h.books.nodup
  obtain ⟨hg, -, hgw⟩ := List.nodup_append.mp hgw
  have hmodes : (l.mode = .OPEN → l.holders = [] ∧ l.waiters = []) ∧
      (l.mode = .SHARED → l.sharers = l.holders.length ∧ 1 ≤ l.sharers ∧
        ∀ w ∈ l.waiters, w.mode = .EXCLUSIVE) ∧
      (l.mode = .EXCLUSIVE → l.holders.length = 1 ∧ l.sharers = 0) ∧
      ∀ h ∈ l.holders, h.mode = l.mode := by
    cases h.compat with
    | opened mode sharers holders waiters =>
      simp [mode, holders, waiters]
    | shared mode sharers pos holders waiters =>
      refine ⟨by simp [mode], fun _ => ⟨sharers, pos, waiters⟩, by simp [mode], ?_⟩
      intro x hx
      rw [holders x hx, mode]
    | exclusive mode sharers holders waiters =>
      obtain ⟨id, hone⟩ := holders
      simp [mode, hone, sharers]
  obtain ⟨hopened, hshared, hexclusive, hcompatible⟩ := hmodes
  refine ⟨hopened, hshared, hexclusive, hcompatible, hg, h.books.fired, ?_, ?_⟩
  · intro w hw hmem
    exact hgw _ hmem _ (List.mem_map_of_mem hw) rfl
  · intro id hid hmem
    exact hgc _ (List.mem_append_left _ hmem) _ hid rfl

/-- In every run in which nobody cancels while the grant is on its way, and no more sharers hold
the lock than the count can tell, the lock is good, and a call returns if and only if it does
not break that rule. -/
theorem lock_run {m : Mode} {es : List Event}
    (hrun : Run step (fun l e => Allowed l e ∧ Timely l e) (.init m) es l) :
    Good l ∧ ∀ e, Allowed l e → ((step l e).isSome ↔ Timely l e) := by
  have hinv : Inv l := by
    refine hrun.invariant (.init m) ?_
    rintro a e b ha ⟨hok, ht⟩ hstep
    obtain ⟨b', hb', hinv⟩ := ha.step hok ht
    cases hb'.symm.trans hstep
    exact hinv
  refine ⟨hinv.good, fun e hok => ⟨?_, ?_⟩⟩
  · intro hsome
    by_contra ht
    rw [hinv.step_none hok ht] at hsome
    cases hsome
  · intro ht
    obtain ⟨l', hl', -⟩ := hinv.step hok ht
    rw [hl']
    rfl

/-- Two sharers wait for an exclusive holder, one of them cancels, and the other one is told. -/
theorem lock_run_shared :
    ∃ l : LockT, l.mode = .SHARED ∧ l.holders = [⟨2, .SHARED⟩] ∧ l.fired = [1, 2] ∧
      l.canceled = [3] ∧ Good l ∧ ∀ e, Allowed l e → ((step l e).isSome ↔ Timely l e) := by
  have hex : (([.acquire .EXCLUSIVE, .acquire .SHARED, .acquire .SHARED, .cancel 3, .release 1,
      .deliver 2].foldlM (fun l e => if Allowed l e ∧ Timely l e then step l e else none)
        (LockT.init .OPEN)).map fun l => (l.mode, l.holders, l.fired, l.canceled)) =
      some (.SHARED, [⟨2, .SHARED⟩], [1, 2], [3]) := by
    decide
  obtain ⟨l, hl, hout⟩ := Option.map_eq_some_iff.mp hex
  simp only [Prod.mk.injEq] at hout
  obtain ⟨hmode, hholders, hfired, hcanceled⟩ := hout
  exact ⟨l, hmode, hholders, hfired, hcanceled, lock_run (Run.of_checked hl)⟩

/-- The waiter is deleted when the lock goes to it, and its event only fires later: who cancels
in between, as `timed_acquire` does when its timer comes first, uses the deleted waiter. -/
theorem lock_cancel_late : ¬ ∀ m es l, Run step Allowed (.init m) es l →
    Good l ∧ ∀ e, Allowed l e → (step l e).isSome := by
  intro h
  have hex : (([.acquire .EXCLUSIVE, .acquire .SHARED, .release 1].foldlM
      (fun l e => if Allowed l e then step l e else none) (LockT.init .OPEN)).map
        fun l => (decide (Allowed l (.cancel 2)), (step l (.cancel 2)).isSome)) =
      some (true, false) := by
    decide
  obtain ⟨l, hl, hout⟩ := Option.map_eq_some_iff.mp hex
  simp only [Prod.mk.injEq, decide_eq_true_eq] at hout
  have hsome := (h .OPEN _ l (Run.of_checked hl)).2 (.cancel 2) hout.1
  rw [hout.2] at hsome
  cases hsome

end Sfslite.Libtame.Lock
