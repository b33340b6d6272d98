import Sfslite.Libtame.Connectors

/-!
A connector that has come to its end: nothing waits at its rendezvous any more, and the wrapped
event is out of reach.
-/

namespace Sfslite.Libtame.Connector

open Sfslite.Lib (Run)
open Rendezvous

section Rv

variable {rv rv' : State Outcome} {e : ℕ}

def SameFreed (rv rv' : State Outcome) : Prop :=
  rv'.events.map Event.freed = rv.events.map Event.freed

theorem SameFreed.lookup (h : SameFreed rv rv') (e : ℕ) :
    (rv'.lookup e).isSome = (rv.lookup e).isSome := by
  have hget := congrArg (·[e]?) h
  simp only [List.getElem?_map] at hget
  simp only [State.lookup]
  cases hev : rv.events[e]? with
  | none =>
    rw [hev] at hget
    rw [Option.map_eq_none_iff.mp hget]
  | some ev =>
    rw [hev] at hget
    obtain ⟨ev', hev', hfreed⟩ := Option.map_eq_some_iff.mp hget
    rw [hev']
    cases hf : ev.freed <;> simp [Option.filter, hfreed, hf]

theorem SameFreed.trans {rv'' : State Outcome} (h : SameFreed rv rv') (h' : SameFreed rv' rv'') :
    SameFreed rv rv'' := Eq.trans h' h

theorem sameFreed_modify {f : Event Outcome → Event Outcome}
    (h : rv'.events = rv.events.modify e f) (hf : ∀ ev, (f ev).freed = ev.freed) :
    SameFreed rv rv' := by
  apply List.ext_getElem?
  intro i
  simp only [h, List.getElem?_map, List.getElem?_modify]
  cases rv.events[i]? with
  | none => rfl
  | some ev =>
    simp only [Option.map_eq_map, Option.map_some]
    split
    · rw [hf]
    · rfl

theorem sameFreed_endTrigger (reuse : Bool) : SameFreed rv (rv.endTrigger e reuse) :=
  sameFreed_modify rfl fun _ => rfl

theorem trigger_quiet (hjoin : rv.joinMethod = .none) (hev : (rv.lookup e).isSome) :
    ∃ rv', Rendezvous.step rv (.trigger e) = some rv' ∧ rv'.joinMethod = .none ∧
      rv'.reentered = rv.reentered ∧ rv'.stack = rv.stack ∧ SameFreed rv rv' := by
  obtain ⟨ev, hev⟩ := Option.isSome_iff_exists.mp hev
  have hstep : Rendezvous.step rv (.trigger e) = rv.trigger e ev := by
    simp only [Rendezvous.step, hev, Option.bind_some]
  have hmark : SameFreed rv (rv.modifyEvent e fun ev =>
      { ev with base.performing := true }) := sameFreed_modify rfl fun _ => rfl
  have hnone : (rv.modifyEvent e fun ev => { ev with base.performing := true }).joinMethod ≠
      .events := fun he => by cases hjoin.symm.trans he
  rw [hstep, State.trigger]
  dsimp only
  split_ifs
  · exact ⟨_, rfl, hjoin, rfl, rfl, hmark.trans (sameFreed_endTrigger true)⟩
  · refine ⟨_, join_queue _ _ hnone, ?_, ?_, ?_, ?_⟩
    · exact (push_joinMethod _ _).trans hjoin
    · exact push_reentered _ _
    · exact push_stack _ _
    · refine hmark.trans (SameFreed.trans ?_ (sameFreed_endTrigger _))
      rw [SameFreed, push_events]
  · exact ⟨_, rfl, hjoin, rfl, rfl, hmark.trans (sameFreed_endTrigger true)⟩
  · exact ⟨_, rfl, hjoin, rfl, rfl, rfl⟩

theorem events_cancelEvent (ev : Event Outcome) : ∃ f : Event Outcome → Event Outcome,
    (rv.cancelEvent e ev).events = rv.events.modify e f ∧ (∀ x, (f x).freed = x.freed) ∧
      ((f ev).base.cleared = true) := by
  rw [State.cancelEvent, State.clear]
  by_cases hc : ev.base.cleared = true
  · rw [if_pos hc]
    exact ⟨_, rfl, fun _ => rfl, hc⟩
  · rw [if_neg hc]
    obtain ⟨b, hb⟩ := events_clearAction
      (rv.modifyEvent e fun ev => { ev with base.cancelled := true }) e ev
    refine ⟨fun ev => { ev with
      actionCleared := b || ev.actionCleared, base.cancelled := true, base.cleared := true },
      ?_, fun _ => rfl, rfl⟩
    rw [State.modifyEvent, hb, State.modifyEvent, List.modify_modify_eq, List.modify_modify_eq]
    rfl

theorem sameFreed_cancelEvent (ev : Event Outcome) : SameFreed rv (rv.cancelEvent e ev) := by
  obtain ⟨f, hf, hfreed, -⟩ := @events_cancelEvent rv e ev
  exact sameFreed_modify hf hfreed

theorem cancelEvent_dead (ev : Event Outcome) : (rv.cancelEvent e ev).dead = rv.dead := by
  unfold State.cancelEvent State.clear State.clearAction
  split_ifs <;> rfl

theorem spent_cancelEvent {ev : Event Outcome} (hev : rv.events[e]? = some ev) :
    Spent (rv.cancelEvent e ev) e := by
  obtain ⟨f, hf, -, hcleared⟩ := @events_cancelEvent rv e ev
  refine ⟨f ev, ?_, .inr (.inl hcleared)⟩
  rw [hf, List.getElem?_modify_eq, hev]
  rfl

end Rv

variable {a : Rendezvous.Act Outcome}

section Delivery

variable {ν : Type} {s s' : Conn ν} {e : ℕ}

theorem act_some (hs : s.act a = some s') :
    ∃ rv, Rendezvous.step s.rv a = some rv ∧ s' = { s with rv := rv } := by
  obtain ⟨rv, hrv, rfl⟩ := Option.map_eq_some_iff.mp hs
  exact ⟨rv, hrv, rfl⟩

theorem act_delivery (h : Delivery s.rv) (hs : s.act a = some s') : Delivery s'.rv := by
  obtain ⟨rv, hrv, rfl⟩ := act_some hs
  exact (h.step hrv).1.delivery

theorem timecbRemove_delivery (h : Delivery s.rv) (hs : s.timecbRemove = some s') :
    Delivery s'.rv := by
  unfold Conn.timecbRemove at hs
  split at hs
  · cases hs
  · exact act_delivery (s := { s with timer := none }) h hs

theorem notifyCancelled_delivery (h : Delivery s.rv) (hs : s.notifyCancelled e = some s') :
    Delivery s'.rv := by
  unfold Conn.notifyCancelled at hs
  split at hs
  · cases hs
    exact h
  · split_ifs at hs
    · cases hs
      exact h
    · obtain ⟨ev, -, hs⟩ := Option.bind_eq_some_iff.mp hs
      obtain ⟨s₁, hs₁, hs⟩ := Option.bind_eq_some_iff.mp hs
      cases hs
      have h₁ : Delivery s₁.rv := by
        split_ifs at hs₁
        · cases hs₁
          exact h
        · exact act_delivery h hs₁
      exact h₁

theorem cancelLoop_delivery {fuel : ℕ} (h : Delivery s.rv)
    (hs : Conn.cancelLoop fuel s a = some s') : Delivery s'.rv := by
  induction fuel generalizing s a with
  | zero => cases hs
  | succ fuel ih =>
    rw [Conn.cancelLoop] at hs
    split at hs
    · exact act_delivery h hs
    · obtain ⟨s₁, hs₁, hs⟩ := Option.bind_eq_some_iff.mp hs
      obtain ⟨s₂, hs₂, hs⟩ := Option.bind_eq_some_iff.mp hs
      exact ih (notifyCancelled_delivery (act_delivery h hs₁) hs₂) hs

theorem resume_delivery {outc : Outcome} (h : Delivery s.rv) (hs : s.resume outc = some s') :
    Delivery s'.rv := by
  unfold Conn.resume at hs
  split at hs
  · obtain ⟨s₁, hs₁, hs⟩ := Option.bind_eq_some_iff.mp hs
    obtain ⟨s₂, hs₂, hs⟩ := Option.bind_eq_some_iff.mp hs
    cases hs
    have h₁ : Delivery s₁.rv := by
      split_ifs at hs₁
      · exact timecbRemove_delivery h hs₁
      · cases hs₁
        exact h
    have h₂ : Delivery s₂.rv := cancelLoop_delivery (s := { s₁ with tcb := false }) h₁ hs₂
    exact h₂
  · split_ifs at hs
    · obtain ⟨s₁, hs₁, hs⟩ := Option.bind_eq_some_iff.mp hs
      obtain ⟨s₂, hs₂, hs⟩ := Option.bind_eq_some_iff.mp hs
      cases hs
      have h₂ : Delivery s₂.rv := cancelLoop_delivery (timecbRemove_delivery h hs₁) hs₂
      exact h₂
    · cases hs
      exact h
  · split_ifs at hs
    cases hs
    exact h

theorem fire_delivery (h : Delivery s.rv) (hs : s.fire e = some s') : Delivery s'.rv := by
  obtain ⟨s₁, hs₁, hs⟩ := Option.bind_eq_some_iff.mp hs
  have h₁ := act_delivery h hs₁
  split_ifs at hs
  · cases hs
    exact h₁
  · obtain ⟨outc, -, hs⟩ := Option.bind_eq_some_iff.mp hs
    exact resume_delivery h₁ hs

theorem notify_delivery {o : Option ℕ} (h : Delivery s.rv) (hs : s.notify o = some s') :
    Delivery s'.rv := by
  cases o with
  | none =>
    cases hs
    exact h
  | some e =>
    obtain ⟨ev, -, hs⟩ := Option.bind_eq_some_iff.mp hs
    split_ifs at hs
    · cases hs
      exact h
    · obtain ⟨s₁, hs₁, hs⟩ := Option.bind_eq_some_iff.mp hs
      have h₁ := fire_delivery h hs₁
      cases hs
      split_ifs
      · exact h₁
      · exact h₁

theorem ret_delivery (h : Delivery s.rv) (hs : s.ret = some s') : Delivery s'.rv := by
  obtain ⟨s₁, hs₁, hs⟩ := Option.bind_eq_some_iff.mp hs
  obtain ⟨s₂, hs₂, hs⟩ := Option.bind_eq_some_iff.mp hs
  have h₁ : Delivery s₁.rv := by
    unfold Conn.waitAgain at hs₁
    split_ifs at hs₁
    · obtain ⟨s₃, hs₃, hs₁⟩ := Option.bind_eq_some_iff.mp hs₁
      have h₃ := act_delivery h hs₃
      dsimp only at hs₁
      split_ifs at hs₁
      · cases hs₁
        exact h₃
      · obtain ⟨outc, -, hs₁⟩ := Option.bind_eq_some_iff.mp hs₁
        exact resume_delivery (s := { s₃ with phase := .late }) h₃ hs₁
    · cases hs₁
      exact h
  have h₂ := act_delivery h₁ hs₂
  split at hs
  · cases hs
    exact h₂
  · cases hs

theorem step_delivery {a : Act ν} (h : Delivery s.rv) (hs : step s a = some s') :
    Delivery s'.rv := by
  cases a with
  | inner v =>
    obtain ⟨ev, -, hs⟩ := Option.bind_eq_some_iff.mp hs
    refine fire_delivery ?_ hs
    split_ifs
    · exact h
    · exact h
  | timer =>
    simp only [step] at hs
    split at hs
    · cases hs
    · exact fire_delivery (s := { s with timer := none }) h hs
  | cancelOuter => exact notify_delivery h hs
  | discard =>
    obtain ⟨s₁, hs₁, hs⟩ := Option.bind_eq_some_iff.mp hs
    exact notify_delivery (act_delivery h hs₁) hs
  | ret => exact ret_delivery h hs

theorem start_delivery {code : Code} (hs : start code = some s) : Delivery s.rv := by
  obtain ⟨rv, hrv, hs⟩ := Option.bind_eq_some_iff.mp hs
  obtain ⟨rv', hrv', hs⟩ := Option.bind_eq_some_iff.mp hs
  cases hs
  have hrun := Run.of_foldlM hrv
  have h : Delivery rv := hrun.invariant .init fun _ _ _ h _ hs => (h.step hs).1.delivery
  exact (h.step hrv').1.delivery

end Delivery

section Over

variable {ν : Type} {s s' : Conn ν} {e : ℕ}

/-- The events that somebody outside has are there. -/
structure Held (s : Conn ν) : Prop where
  out : (s.rv.lookup s.out).isSome
  outer : ∀ e, s.outer = some e → (s.rv.lookup e).isSome
  discarded : ∀ e, s.discarded = some e → (s.rv.lookup e).isSome

theorem Held.sameFreed (h : Held s) {rv : State Outcome} (hsame : SameFreed s.rv rv) :
    Held { s with rv := rv } where
  out := (hsame.lookup _).trans h.out
  outer e he := (hsame.lookup e).trans (h.outer e he)
  discarded e he := (hsame.lookup e).trans (h.discarded e he)

theorem Held.dropNotifier (h : Held s) (e : ℕ) : Held (s.dropNotifier e) := by
  refine ⟨h.out, fun i hi => h.outer i ?_, fun i hi => h.discarded i ?_⟩
  · simp only [Conn.dropNotifier] at hi
    split_ifs at hi
    exact hi
  · simp only [Conn.dropNotifier] at hi
    split_ifs at hi
    exact hi

/-- The connector has come to its end, and the wrapped event is out of reach. -/
structure Over (s : Conn ν) : Prop where
  phase : s.phase = .done
  timer : s.timer = none
  join : s.rv.joinMethod = .none
  spent : Spent s.rv s.out
  held : Held s
  frames : ∀ f ∈ s.rv.stack, ∃ e r, f = .perform e r

/-- Nothing has changed that can be seen of the wrapped event. -/
structure Unmoved (s s' : Conn ν) : Prop where
  slots : s'.slots = s.slots
  ocp : s'.ocp = s.ocp
  triggered : s'.triggered = s.triggered

theorem fire_quiet (hjoin : s.rv.joinMethod = .none) (he : (s.rv.lookup e).isSome) :
    ∃ rv, s.fire e = some { s with rv := rv } ∧ Rendezvous.step s.rv (.trigger e) = some rv ∧
      rv.joinMethod = .none ∧ rv.stack = s.rv.stack ∧ SameFreed s.rv rv := by
  obtain ⟨rv, hrv, hjoin', hreentered, hstack, hfreed⟩ := trigger_quiet hjoin he
  refine ⟨rv, ?_, hrv, hjoin', hstack, hfreed⟩
  simp only [Conn.fire, Conn.act, hrv, Option.map_some, Option.bind_eq_bind, Option.bind_some,
    hreentered, if_true]

theorem notify_quiet (hjoin : s.rv.joinMethod = .none) {o : Option ℕ}
    (ho : ∀ e, o = some e → (s.rv.lookup e).isSome) :
    ∃ rv s', s.notify o = some s' ∧
      (rv = s.rv ∨ ∃ e, Rendezvous.step s.rv (.trigger e) = some rv) ∧
      (s' = { s with rv := rv } ∨ ∃ e, s' = { s with rv := rv }.dropNotifier e) ∧
      rv.joinMethod = .none ∧ rv.stack = s.rv.stack ∧ SameFreed s.rv rv := by
  cases o with
  | none => exact ⟨s.rv, s, rfl, .inl rfl, .inl rfl, hjoin, rfl, rfl⟩
  | some e =>
    obtain ⟨ev, hev⟩ := Option.isSome_iff_exists.mp (ho e rfl)
    by_cases hc : ev.base.cancelled = true
    · refine ⟨s.rv, s.dropNotifier e, ?_, .inl rfl, .inr ⟨e, rfl⟩, hjoin, rfl, rfl⟩
      simp only [Conn.notify, hev, Option.bind_eq_bind, Option.bind_some, hc, if_true]
    · obtain ⟨rv, hfire, hrv, hjoin', hstack, hfreed⟩ := fire_quiet hjoin (ho e rfl)
      refine ⟨rv, { s with rv := rv }.dropNotifier e, ?_, .inr ⟨e, hrv⟩, .inr ⟨e, rfl⟩, hjoin',
        hstack, hfreed⟩
      simp only [Conn.notify, hev, Option.bind_eq_bind, Option.bind_some, if_neg hc, hfire,
        if_pos hstack]

theorem cancelEvent_quiet {rv : State Outcome} (he : (rv.lookup e).isSome) :
    ∃ rv', Rendezvous.step rv (.cancelEvent e) = some rv' ∧ Same rv rv' ∧ Spent rv' e ∧
      rv'.stack = rv.stack ∧ rv'.dead = rv.dead ∧ SameFreed rv rv' := by
  obtain ⟨ev, hev⟩ := Option.isSome_iff_exists.mp he
  refine ⟨rv.cancelEvent e ev, ?_, same_cancelEvent rv e ev, ?_, stack_clear _ e ev,
    cancelEvent_dead ev, sameFreed_cancelEvent ev⟩
  · simp only [Rendezvous.step, hev, Option.map_some]
  · exact spent_cancelEvent (lookup_eq_some_iff.mp hev).1

theorem keepsReuse_of_ne {rv : State Outcome}
    (ha : ∀ b, a ≠ .setReuse e b) : KeepsReuse e rv a := fun b hb => absurd hb (ha b)

theorem Over.notify (h : Over s) (hd : Delivery s.rv) {o : Option ℕ}
    (ho : ∀ e, o = some e → (s.rv.lookup e).isSome) :
    ∃ s', s.notify o = some s' ∧ Over s' ∧ Unmoved s s' := by
  obtain ⟨rv, s', hs', hrv, hs'', hjoin, hstack, hfreed⟩ := notify_quiet h.join ho
  have hspent : Spent rv s.out := by
    rcases hrv with rfl | ⟨e, he⟩
    · exact h.spent
    · exact hd.spent_step h.spent (keepsReuse_of_ne (by simp)) he
  have hover : Over { s with rv := rv } :=
    ⟨h.phase, h.timer, hjoin, hspent, h.held.sameFreed hfreed, hstack ▸ h.frames⟩
  refine ⟨s', hs', ?_⟩
  rcases hs'' with rfl | ⟨e, rfl⟩
  · exact ⟨hover, rfl, rfl, rfl⟩
  · exact ⟨⟨h.phase, h.timer, hjoin, hspent, hover.held.dropNotifier e, hover.frames⟩, rfl, rfl,
      rfl⟩

theorem ret_eq {s₁ : Conn ν} {r : Bool} {rest : List Frame} (hwait : s.waitAgain = some s₁)
    (hstack : s₁.rv.stack = .perform e r :: rest) :
    step s .ret = some
      ({ s₁ with rv := { s₁.rv with stack := rest }.endTrigger e r }.dropNotifier e) := by
  have hrv : Rendezvous.step s₁.rv .ret =
      some ({ s₁.rv with stack := rest }.endTrigger e r) := by
    simp only [Rendezvous.step, hstack]
  simp only [Connector.step, Conn.ret, hwait, Conn.act, hrv, Option.map_some, Option.bind_eq_bind,
    Option.bind_some, hstack]

theorem ret_none (hphase : s.phase ≠ .triggering) (hstack : s.rv.stack = []) :
    step s .ret = none := by
  have hrv : Rendezvous.step s.rv .ret = none := by simp only [Rendezvous.step, hstack]
  simp only [Connector.step, Conn.ret, Conn.waitAgain, if_neg hphase, Conn.act, hrv,
    Option.map_none, Option.bind_eq_bind, Option.bind_some, Option.bind_none]

theorem Over.step (h : Over s) (hd : Delivery s.rv) {a : Act ν} (htimer : a ≠ .timer)
    (hret : a = .ret → s.rv.stack ≠ []) : ∃ s', step s a = some s' ∧ Over s' ∧ Unmoved s s' := by
  cases a with
  | inner v =>
    obtain ⟨ev, hev⟩ := Option.isSome_iff_exists.mp h.held.out
    obtain ⟨rv, hfire, hrv, hjoin, hstack, hfreed⟩ := fire_quiet h.join h.held.out
    refine ⟨{ s with rv := rv }, ?_, ⟨h.phase, h.timer, hjoin, ?_, h.held.sameFreed hfreed,
      hstack ▸ h.frames⟩, rfl, rfl, rfl⟩
    · simp only [Connector.step, hev, Option.bind_eq_bind, Option.bind_some,
        h.spent.canTrigger hev, Bool.false_eq_true, if_false, hfire]
    · exact hd.spent_step h.spent (keepsReuse_of_ne (by simp)) hrv
  | timer => exact absurd rfl htimer
  | cancelOuter => exact h.notify hd h.held.outer
  | discard =>
    obtain ⟨rv, hrv, hsame, hspent, hstack, -, hfreed⟩ := cancelEvent_quiet h.held.out
    have hact : s.act (.cancelEvent s.out) = some { s with rv := rv } := by
      simp only [Conn.act, hrv, Option.map_some]
    have hover : Over { s with rv := rv } :=
      ⟨h.phase, h.timer, hsame.joinMethod.trans h.join, hspent, h.held.sameFreed hfreed,
        hstack ▸ h.frames⟩
    obtain ⟨s', hs', hover', hmoved⟩ :=
      hover.notify (act_delivery hd hact) (o := s.discarded) hover.held.discarded
    refine ⟨s', ?_, hover', hmoved.slots, hmoved.ocp, hmoved.triggered⟩
    simp only [Connector.step, hact, Option.bind_eq_bind, Option.bind_some, hs']
  | ret =>
    cases hstack : s.rv.stack with
    | nil => exact absurd hstack (hret rfl)
    | cons f rest =>
      obtain ⟨e, r, rfl⟩ := h.frames f (hstack ▸ List.mem_cons_self)
      have hrv : Rendezvous.step s.rv .ret =
          some ({ s.rv with stack := rest }.endTrigger e r) := by
        simp only [Rendezvous.step, hstack]
      have hwait : s.waitAgain = some s := if_neg (by rw [h.phase]; decide)
      refine ⟨_, ret_eq hwait hstack,
        ⟨h.phase, h.timer, h.join, ?_, (h.held.sameFreed ?_).dropNotifier e, ?_⟩,
        rfl, rfl, rfl⟩
      · exact hd.spent_step h.spent (keepsReuse_of_ne (by simp)) hrv
      · exact @sameFreed_endTrigger { s.rv with stack := rest } e r
      · exact fun f hf => h.frames f (hstack ▸ List.mem_cons_of_mem _ hf)

/-- What there is to `Over`, to be checked by running a connector. -/
def ended (s : Conn ν) : Bool :=
  s.phase = .done && s.timer = none && s.rv.joinMethod = .none &&
    (s.rv.events[s.out]?.any fun ev => ev.base.cleared ||
      ev.base.performing && !ev.base.reuse && s.rv.stack.head? = some (.perform s.out false)) &&
    (s.rv.lookup s.out).isSome && (s.outer.all fun e => (s.rv.lookup e).isSome) &&
    (s.discarded.all fun e => (s.rv.lookup e).isSome) &&
    s.rv.stack.all fun | .perform .. => true | _ => false

theorem over_of_ended (h : ended s = true) : Over s := by
  simp only [ended, Bool.and_eq_true, decide_eq_true_eq, Option.any_eq_true,
    Option.all_eq_true, List.all_eq_true] at h
  obtain ⟨⟨⟨⟨⟨⟨⟨hphase, htimer⟩, hjoin⟩, ev, hev, hspent⟩, hout⟩, houter⟩, hdiscarded⟩, hframes⟩ := h
  refine ⟨hphase, htimer, hjoin, ⟨ev, hev, .inr ?_⟩, ⟨hout, houter, hdiscarded⟩, ?_⟩
  · rcases (Bool.or_eq_true _ _).mp hspent with hc | hp
    · exact .inl hc
    · simp only [Bool.and_eq_true, Bool.not_eq_true', decide_eq_true_eq] at hp
      obtain ⟨⟨hperforming, hreuse⟩, hhead⟩ := hp
      obtain ⟨rest, hstack⟩ := List.head?_eq_some_iff.mp hhead
      exact .inr ⟨hperforming, hreuse, [], rest, hstack, fun _ => List.not_mem_nil⟩
  · intro f hf
    have hone := hframes f hf
    cases f with
    | perform e r => exact ⟨e, r, rfl⟩
    | cancelling => cases hone
    | cleanup => cases hone

end Over

end Sfslite.Libtame.Connector
