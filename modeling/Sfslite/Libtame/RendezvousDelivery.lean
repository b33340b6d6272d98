import Sfslite.Libtame.RendezvousCount

/-!
What a rendezvous delivers: the values that the triggers give, in the order in which they give
them, one to a wait.
-/

namespace Sfslite.Libtame.Rendezvous

open Sfslite.Lib

variable {V : Type*}

/-- An event that is alive, of a rendezvous that is. -/
def State.live (s : State V) (ev : Event V) : Bool := ev.base.isAlive && s.alive

/-- The values that a step adds to the pending ones. -/
def yields (s : State V) : Act V → List (ℕ × V)
  | .trigger e =>
    match s.lookup e with
    | some ev => if s.live ev then [(e, ev.value)] else []
    | none => []
  | _ => []

/-- The values that the event `e` has given. -/
def State.yielded (s : State V) (e : ℕ) : List (ℕ × V) := s.produced.filter (·.1 = e)

/-- Nobody sets the flag of `e` while a trigger of it that was not to be reused has not
returned. -/
def KeepsReuse (e : ℕ) (s : State V) (a : Act V) : Prop :=
  ∀ b, a = .setReuse e b → .perform e false ∉ s.stack

/-- Nothing has happened to the values and the waits. -/
structure Same (s s' : State V) : Prop where
  pending : s'.pending = s.pending
  produced : s'.produced = s.produced
  consumed : s'.consumed = s.consumed
  joinMethod : s'.joinMethod = s.joinMethod
  joinCls : s'.joinCls = s.joinCls
  waits : s'.waits = s.waits
  reentered : s'.reentered = s.reentered
  cancelled : s.cancelled = true → s'.cancelled = true

theorem Same.refl (s : State V) : Same s s := ⟨rfl, rfl, rfl, rfl, rfl, rfl, rfl, id⟩

theorem Same.trans {s s' s'' : State V} (h : Same s s') (h' : Same s' s'') : Same s s'' :=
  ⟨h'.pending.trans h.pending, h'.produced.trans h.produced, h'.consumed.trans h.consumed,
    h'.joinMethod.trans h.joinMethod, h'.joinCls.trans h.joinCls, h'.waits.trans h.waits,
    h'.reentered.trans h.reentered, h'.cancelled ∘ h.cancelled⟩

section Same

variable (s : State V) (e : ℕ) (ev : Event V)

theorem same_clearAction : Same s (s.clearAction e ev) := by
  rw [State.clearAction]
  split
  · exact .refl s
  · split <;> exact ⟨rfl, rfl, rfl, rfl, rfl, rfl, rfl, id⟩

theorem same_clear : Same s (s.clear e ev) := by
  rw [State.clear]
  split
  · exact .refl s
  · exact (same_clearAction s e ev).trans ⟨rfl, rfl, rfl, rfl, rfl, rfl, rfl, id⟩

theorem same_cancelEvent : Same s (s.cancelEvent e ev) := by
  have hflag : Same s (s.modifyEvent e fun ev => { ev with base.cancelled := true }) :=
    ⟨rfl, rfl, rfl, rfl, rfl, rfl, rfl, id⟩
  exact hflag.trans (same_clear _ e ev)

theorem same_free : Same s (s.free e ev) := by
  rw [State.free]
  split
  · exact ⟨rfl, rfl, rfl, rfl, rfl, rfl, rfl, id⟩
  · exact (same_clearAction s e ev).trans ⟨rfl, rfl, rfl, rfl, rfl, rfl, rfl, id⟩

theorem same_mkevent (v : V) : Same s (s.mkevent v) := by
  rw [State.mkevent]
  split
  · exact .refl s
  · exact ⟨rfl, rfl, rfl, rfl, rfl, rfl, rfl, id⟩

theorem same_cancelAllEvents {s s' : State V} {loop : Frame}
    (hs : s.cancelAllEvents loop = some s') : Same s s' := by
  rw [State.cancelAllEvents] at hs
  split at hs
  · cases hs
    split
    · exact ⟨rfl, rfl, rfl, rfl, rfl, rfl, rfl, fun _ => rfl⟩
    · exact .refl s
  next b _ =>
  split at hs
  · cases hs
  next ev _ =>
  split at hs
  · cases hs
  cases hs
  have hremove : Same s (s.remove b) := ⟨rfl, rfl, rfl, rfl, rfl, rfl, rfl, id⟩
  exact (hremove.trans (same_cancelEvent _ b ev)).trans ⟨rfl, rfl, rfl, rfl, rfl, rfl, rfl, id⟩

end Same

variable {a : Act V}

theorem same_step {s s' : State V} (hs : step s a = some s')
    (htrigger : ∀ e, a ≠ .trigger e) (hwait : a ≠ .twait) : Same s s' := by
  cases a with
  | mkevent v =>
    obtain ⟨-, ⟨⟩⟩ := Option.ite_none_left_eq_some.mp hs
    exact same_mkevent s v
  | trigger e => exact absurd rfl (htrigger e)
  | cancelEvent e =>
    obtain ⟨ev, -, rfl⟩ := Option.map_eq_some_iff.mp hs
    exact same_cancelEvent s e ev
  | finish e =>
    obtain ⟨ev, -, rfl⟩ := Option.map_eq_some_iff.mp hs
    exact same_clear s e ev
  | setReuse e b =>
    obtain ⟨ev, -, rfl⟩ := Option.map_eq_some_iff.mp hs
    exact ⟨rfl, rfl, rfl, rfl, rfl, rfl, rfl, id⟩
  | free e =>
    obtain ⟨-, hs⟩ := Option.ite_none_left_eq_some.mp hs
    obtain ⟨ev, -, rfl⟩ := Option.map_eq_some_iff.mp hs
    exact same_free s e ev
  | twait => exact absurd rfl hwait
  | cancel =>
    obtain ⟨-, hs⟩ := Option.ite_none_left_eq_some.mp hs
    have hflag : Same s { s with isCancelling := true } := ⟨rfl, rfl, rfl, rfl, rfl, rfl, rfl, id⟩
    exact hflag.trans (same_cancelAllEvents hs)
  | destroy =>
    obtain ⟨-, hs⟩ := Option.ite_none_left_eq_some.mp hs
    have hflag : Same s { s with dead := true } := ⟨rfl, rfl, rfl, rfl, rfl, rfl, rfl, id⟩
    exact hflag.trans (same_cancelAllEvents hs)
  | ret =>
    rw [step] at hs
    split at hs
    · cases hs
      exact ⟨rfl, rfl, rfl, rfl, rfl, rfl, rfl, id⟩
    · cases hs
  | loop =>
    have hpop : ∀ stack, Same s { s with stack := stack } :=
      fun _ => ⟨rfl, rfl, rfl, rfl, rfl, rfl, rfl, id⟩
    rw [step] at hs
    split at hs
    · obtain ⟨-, hs⟩ := Option.ite_none_left_eq_some.mp hs
      exact (hpop _).trans (same_cancelAllEvents hs)
    · exact (hpop _).trans (same_cancelAllEvents hs)
    · cases hs

/-- The event of a cleared action is cleared. -/
def Event.ActionOk (ev : Event V) : Prop :=
  ev.freed = false → ev.actionCleared = true → ev.base.cleared = true

/-- An event after a step that neither triggers it nor sets its flag. -/
structure Aged (ev ev' : Event V) : Prop where
  freed : ev.freed = true → ev'.freed = true
  cleared : ev.base.cleared = true → ev'.base.cleared = true
  performing : ev'.base.performing = ev.base.performing
  reuse : ev'.base.reuse = ev.base.reuse
  actionOk : ev.ActionOk → ev'.ActionOk

theorem Aged.refl (ev : Event V) : Aged ev ev := ⟨id, id, rfl, rfl, id⟩

theorem Aged.trans {ev ev' ev'' : Event V} (h : Aged ev ev') (h' : Aged ev' ev'') : Aged ev ev'' :=
  ⟨h'.freed ∘ h.freed, h'.cleared ∘ h.cleared, h'.performing.trans h.performing,
    h'.reuse.trans h.reuse, h'.actionOk ∘ h.actionOk⟩

/-- All events age, and the actions of the new ones are as they should be. -/
structure Ages (s s' : State V) : Prop where
  aged : ∀ (e : ℕ) (ev : Event V), s.events[e]? = some ev →
    ∃ ev', s'.events[e]? = some ev' ∧ Aged ev ev'
  fresh : ∀ (e : ℕ) (ev' : Event V), s.events.length ≤ e → s'.events[e]? = some ev' →
    ev'.ActionOk

theorem Ages.trans {s s' s'' : State V} (h : Ages s s') (h' : Ages s' s'') : Ages s s'' := by
  constructor
  · intro e ev hev
    obtain ⟨ev', hev', ha⟩ := h.aged e ev hev
    obtain ⟨ev'', hev'', ha'⟩ := h'.aged e ev' hev'
    exact ⟨ev'', hev'', ha.trans ha'⟩
  · intro e ev'' he hev''
    by_cases hlt : e < s'.events.length
    · have hev' := List.getElem?_eq_getElem hlt
      obtain ⟨ev₀, hev₀, ha⟩ := h'.aged e _ hev'
      rw [hev'', Option.some.injEq] at hev₀
      subst hev₀
      exact ha.actionOk (h.fresh e _ he hev')
    · exact h'.fresh e ev'' (by omega) hev''

def ActionsOk (s : State V) : Prop :=
  ∀ (e : ℕ) (ev : Event V), s.events[e]? = some ev → ev.ActionOk

theorem Ages.actionsOk {s s' : State V} (h : Ages s s') (hs : ActionsOk s) : ActionsOk s' := by
  intro e ev' hev'
  by_cases hlt : e < s.events.length
  · have hev := List.getElem?_eq_getElem hlt
    obtain ⟨ev₀, hev₀, ha⟩ := h.aged e _ hev
    rw [hev', Option.some.injEq] at hev₀
    subst hev₀
    exact ha.actionOk (hs e _ hev)
  · exact h.fresh e ev' (by omega) hev'

variable {f : Event V → Event V}

section Events

variable {s s' : State V} {e : ℕ}

theorem Ages.of_events (h : s'.events = s.events) : Ages s s' := by
  constructor
  · exact fun i ev hev => ⟨ev, h ▸ hev, .refl ev⟩
  · intro i ev' hi hev'
    rw [h] at hev'
    exact absurd (List.getElem?_eq_some_iff.mp hev').1 (by omega)

theorem Ages.modify (h : s'.events = s.events.modify e f)
    (hf : ∀ ev, Aged ev (f ev)) : Ages s s' := by
  constructor
  · intro i ev hev
    refine ⟨if e = i then f ev else ev, ?_, ?_⟩
    · rw [h, List.getElem?_modify, hev]
      rfl
    · split
      · exact hf ev
      · exact .refl ev
  · intro i ev' hi hev'
    have hlt := (List.getElem?_eq_some_iff.mp hev').1
    rw [h, List.length_modify] at hlt
    omega

theorem ActionsOk.modify (hs : ActionsOk s)
    (h : s'.events = s.events.modify e f) (hf : ∀ ev, ev.ActionOk → (f ev).ActionOk) :
    ActionsOk s' := by
  intro i ev' hev'
  rw [h, List.getElem?_modify] at hev'
  obtain ⟨ev, hev, rfl⟩ := Option.map_eq_some_iff.mp hev'
  split
  · exact hf ev (hs i ev hev)
  · exact hs i ev hev

theorem events_clearAction (s : State V) (e : ℕ) (ev : Event V) :
    ∃ b, (s.clearAction e ev).events =
      s.events.modify e fun ev => { ev with actionCleared := b || ev.actionCleared } := by
  rw [State.clearAction]
  split
  · exact ⟨false, (List.modify_id ..).symm⟩
  · refine ⟨true, ?_⟩
    split <;> rfl

theorem ages_clear (s : State V) (e : ℕ) (ev : Event V) : Ages s (s.clear e ev) := by
  rw [State.clear]
  split
  · exact .of_events rfl
  · obtain ⟨b, hb⟩ := events_clearAction s e ev
    refine .modify (e := e) (f := fun ev =>
      { ev with actionCleared := b || ev.actionCleared, base.cleared := true }) ?_ fun ev =>
      ⟨id, fun _ => rfl, rfl, rfl, fun _ _ _ => rfl⟩
    rw [State.modifyEvent, hb, List.modify_modify_eq]
    rfl

theorem ages_cancelEvent (s : State V) (e : ℕ) (ev : Event V) : Ages s (s.cancelEvent e ev) := by
  have hflag : Ages s (s.modifyEvent e fun ev => { ev with base.cancelled := true }) :=
    .modify rfl fun ev => ⟨id, id, rfl, rfl, id⟩
  exact hflag.trans (ages_clear _ e ev)

theorem ages_free (s : State V) (e : ℕ) (ev : Event V) : Ages s (s.free e ev) := by
  rw [State.free]
  split
  · exact .modify rfl fun ev => ⟨fun _ => rfl, id, rfl, rfl, fun _ h => by cases h⟩
  · obtain ⟨b, hb⟩ := events_clearAction s e ev
    refine .modify (e := e) (f := fun ev =>
      { ev with actionCleared := b || ev.actionCleared, freed := true }) ?_ fun ev =>
      ⟨fun _ => rfl, id, rfl, rfl, fun _ h => by cases h⟩
    rw [State.modifyEvent, hb, List.modify_modify_eq]
    rfl

theorem ages_mkevent (s : State V) (v : V) : Ages s (s.mkevent v) := by
  rw [State.mkevent]
  split
  · exact .of_events rfl
  constructor
  · intro i ev hev
    refine ⟨ev, ?_, .refl ev⟩
    exact (List.getElem?_append_left (List.getElem?_eq_some_iff.mp hev).1).trans hev
  · intro i ev' hi hev'
    change (s.events ++ [_])[i]? = some ev' at hev'
    rw [List.getElem?_append_right hi] at hev'
    rw [List.mem_singleton.mp (List.mem_of_getElem? hev')]
    exact fun _ => by simp

theorem stack_clearAction (s : State V) (e : ℕ) (ev : Event V) :
    (s.clearAction e ev).stack = s.stack := by
  rw [State.clearAction]
  split
  · rfl
  · split <;> rfl

theorem stack_clear (s : State V) (e : ℕ) (ev : Event V) : (s.clear e ev).stack = s.stack := by
  rw [State.clear]
  split
  · rfl
  · exact stack_clearAction s e ev

theorem stack_free (s : State V) (e : ℕ) (ev : Event V) : (s.free e ev).stack = s.stack := by
  rw [State.free]
  split
  · rfl
  · exact stack_clearAction s e ev

theorem ages_cancelAllEvents {loop : Frame} (hs : s.cancelAllEvents loop = some s') :
    Ages s s' ∧ (s'.stack = s.stack ∨ s'.stack = loop :: s.stack) := by
  rw [State.cancelAllEvents] at hs
  split at hs
  · cases hs
    split <;> exact ⟨.of_events rfl, Or.inl rfl⟩
  next b _ =>
  split at hs
  · cases hs
  next ev _ =>
  split at hs
  · cases hs
  cases hs
  have hremove : Ages s (s.remove b) := .of_events rfl
  have hstack : ((s.remove b).cancelEvent b ev).stack = s.stack := stack_clear _ b ev
  exact ⟨(hremove.trans (ages_cancelEvent _ b ev)).trans (.of_events rfl),
    Or.inr (congrArg (loop :: ·) hstack)⟩

end Events

section Trigger

variable {s s' : State V} {e : ℕ} {ev : Event V}

theorem lookup_eq_some_iff : s.lookup e = some ev ↔ s.events[e]? = some ev ∧ ev.freed = false := by
  rw [State.lookup, Option.filter_eq_some_iff, Bool.not_eq_true']

theorem yields_trigger (hev : s.lookup e = some ev) :
    yields s (.trigger e) = if s.live ev then [(e, ev.value)] else [] := by
  rw [yields, hev]

theorem trigger_idle (hlive : s.live ev = false) :
    s.trigger e ev = some s ∨ s.alive = false ∧ s.trigger e ev = some
      ((s.modifyEvent e fun ev => { ev with base.performing := true }).endTrigger e true) := by
  rw [State.trigger, ev.base.canTrigger_eq]
  rw [State.live, Bool.and_eq_false_iff] at hlive
  by_cases hcan : ev.base.isAlive = true
  · have hdead : s.alive = false := hlive.resolve_left (by rw [hcan]; simp)
    rw [if_pos hcan]
    refine Or.inr ⟨hdead, ?_⟩
    dsimp only
    split
    · rfl
    · exact if_neg (by rw [State.alive] at hdead; exact Bool.not_eq_true _ ▸ hdead)
  · exact Or.inl (if_neg hcan)

theorem actionCleared_of_live (hok : ev.ActionOk) (hfreed : ev.freed = false)
    (hlive : s.live ev = true) : ev.actionCleared = false := by
  by_contra hcleared
  have h := hok hfreed (eq_true_of_ne_false hcleared)
  rw [State.live, EventCancelBase.isAlive, h, Bool.not_true, Bool.and_false] at hlive
  cases hlive

theorem trigger_live (hok : ev.ActionOk) (hfreed : ev.freed = false) (hlive : s.live ev = true) :
    s.trigger e ev = (s.modifyEvent e fun ev => { ev with base.performing := true }).join e
      ev.value ev.base.reuse := by
  obtain ⟨hcan, halive⟩ := (Bool.and_eq_true _ _).mp hlive
  rw [State.trigger, ev.base.canTrigger_eq, if_pos hcan]
  dsimp only
  rw [actionCleared_of_live hok hfreed hlive]
  exact if_pos halive

variable (v : V) (reuse : Bool)

theorem push_joinMethod : (s.push e v reuse).joinMethod = s.joinMethod := by cases reuse <;> rfl

theorem push_joinCls : (s.push e v reuse).joinCls = s.joinCls := by cases reuse <;> rfl

theorem push_pending : (s.push e v reuse).pending = s.pending ++ [v] := by cases reuse <;> rfl

theorem push_produced : (s.push e v reuse).produced = s.produced ++ [(e, v)] := by
  cases reuse <;> rfl

theorem push_consumed : (s.push e v reuse).consumed = s.consumed := by cases reuse <;> rfl

theorem push_waits : (s.push e v reuse).waits = s.waits := by cases reuse <;> rfl

theorem push_reentered : (s.push e v reuse).reentered = s.reentered := by cases reuse <;> rfl

theorem push_cancelled : (s.push e v reuse).cancelled = s.cancelled := by cases reuse <;> rfl

theorem push_events : (s.push e v reuse).events = s.events := by cases reuse <;> rfl

theorem push_stack : (s.push e v reuse).stack = s.stack := by cases reuse <;> rfl

theorem join_queue (hjoin : s.joinMethod ≠ .events) :
    s.join e v reuse = some ((s.push e v reuse).endTrigger e reuse) := by
  rw [State.join]
  exact if_neg (by rwa [push_joinMethod])

theorem join_reenter {w : ℕ} (hjoin : s.joinMethod = .events) (hpending : s.pending = [])
    (hcls : s.joinCls = some w) :
    s.join e v reuse = some { s.push e v reuse with
      pending := []
      consumed := s.consumed ++ [v]
      joinCls := none
      joinMethod := .none
      reentered := s.reentered ++ [w]
      stack := .perform e reuse :: s.stack } := by
  have hpush : (s.push e v reuse).pending = [v] := by rw [push_pending, hpending]; rfl
  rw [State.join, if_pos ((push_joinMethod v reuse).trans hjoin), State.reenter, push_joinCls, hcls]
  simp only [State.twait, hpush]
  rw [push_consumed, push_reentered, push_stack]
  rfl

end Trigger

/-- What the waits took and what is pending is what was produced. A wait that blocks has nothing
to take, and its closure was not re-entered yet. -/
structure Delivery (s : State V) : Prop where
  fifo : s.produced.map Prod.snd = s.consumed ++ s.pending
  blocked : s.joinMethod = .events → s.pending = [] ∧ ∃ w, s.joinCls = some w
  joinCls : ∀ w, s.joinCls = some w → w < s.waits ∧ w ∉ s.reentered
  nodup : s.reentered.Nodup
  waits : ∀ w ∈ s.reentered, w < s.waits
  actions : ActionsOk s

theorem Delivery.init : Delivery (State.init : State V) where
  fifo := rfl
  blocked := nofun
  joinCls := nofun
  nodup := List.nodup_nil
  waits := nofun
  actions := nofun

variable {stack : List Frame}

section Delivery

variable {s s' : State V} {e : ℕ} {ev : Event V}

theorem Delivery.same (h : Delivery s) (hsame : Same s s') (hactions : ActionsOk s') :
    Delivery s' := by
  obtain ⟨hpending, hproduced, hconsumed, hjoin, hcls, hwaits, hreentered, -⟩ := hsame
  constructor
  · rw [hproduced, hconsumed, hpending]
    exact h.fifo
  · rw [hjoin, hpending, hcls]
    exact h.blocked
  · rw [hcls, hwaits, hreentered]
    exact h.joinCls
  · rw [hreentered]
    exact h.nodup
  · rw [hreentered, hwaits]
    exact h.waits
  · exact hactions

theorem ActionsOk.endTrigger (h : ActionsOk s) (reuse : Bool) :
    ActionsOk (s.endTrigger e reuse) := by
  refine h.modify rfl fun ev hok hfreed hcleared => ?_
  rcases (Bool.or_eq_true _ _).mp hcleared with hc | hr
  · exact (Bool.or_eq_true _ _).mpr (Or.inl (hok hfreed hc))
  · exact (Bool.or_eq_true _ _).mpr (Or.inr hr)

theorem ActionsOk.performing (h : ActionsOk s) :
    ActionsOk (s.modifyEvent e fun ev => { ev with base.performing := true }) :=
  h.modify rfl fun _ => id

/-- What a step delivers: what it yields, and to no wait twice. -/
structure Delivers (s s' : State V) (values : List (ℕ × V)) : Prop where
  delivery : Delivery s'
  produced : s'.produced = s.produced ++ values
  consumed : s.consumed <+: s'.consumed
  cancelled : s.cancelled = true → s'.cancelled = true

theorem Delivery.join (h : Delivery s) (v : V) (reuse : Bool) :
    ∃ s', s.join e v reuse = some s' ∧ Delivers s s' [(e, v)] := by
  have hactions : ActionsOk (s.push e v reuse) :=
    Ages.actionsOk (.of_events (push_events v reuse)) h.actions
  have hfifo : (s.push e v reuse).produced.map Prod.snd = s.consumed ++ (s.pending ++ [v]) := by
    rw [push_produced, List.map_append, h.fifo, List.append_assoc]
    rfl
  by_cases hjoin : s.joinMethod = .events
  · obtain ⟨hpending, w, hcls⟩ := h.blocked hjoin
    obtain ⟨hlt, hnew⟩ := h.joinCls w hcls
    refine ⟨_, join_reenter v reuse hjoin hpending hcls, ?_, push_produced v reuse,
      List.prefix_append .., (push_cancelled v reuse).trans⟩
    constructor
    · rw [hfifo, hpending, List.nil_append, List.append_nil]
    · nofun
    · nofun
    · exact List.nodup_append.mpr ⟨h.nodup, List.nodup_singleton w, fun a ha b hb => by
        rw [List.mem_singleton.mp hb]
        rintro rfl
        exact hnew ha⟩
    · intro i hi
      change i < (s.push e v reuse).waits
      rw [push_waits]
      rcases List.mem_append.mp hi with hi | hi
      · exact h.waits i hi
      · rwa [List.mem_singleton.mp hi]
    · exact hactions
  · refine ⟨_, join_queue v reuse hjoin, ?_, push_produced v reuse,
      by rw [← push_consumed (s := s) v reuse]; exact List.prefix_rfl,
      (push_cancelled v reuse).trans⟩
    constructor
    · change (s.push e v reuse).produced.map Prod.snd = (s.push e v reuse).consumed ++
        (s.push e v reuse).pending
      rw [hfifo, push_consumed, push_pending]
    · intro hj
      exact absurd ((push_joinMethod v reuse).symm.trans hj) hjoin
    · change ∀ w, (s.push e v reuse).joinCls = some w → w < (s.push e v reuse).waits ∧
        w ∉ (s.push e v reuse).reentered
      rw [push_joinCls, push_waits, push_reentered]
      exact h.joinCls
    · change (s.push e v reuse).reentered.Nodup
      rw [push_reentered]
      exact h.nodup
    · change ∀ w ∈ (s.push e v reuse).reentered, w < (s.push e v reuse).waits
      rw [push_waits, push_reentered]
      exact h.waits
    · exact hactions.endTrigger reuse

theorem Delivery.same_delivers (h : Delivery s) (hsame : Same s s') (hactions : ActionsOk s') :
    Delivers s s' [] where
  delivery := h.same hsame hactions
  produced := by rw [hsame.produced, List.append_nil]
  consumed := hsame.consumed ▸ List.prefix_rfl
  cancelled := hsame.cancelled

theorem Delivery.trigger (h : Delivery s) (hev : s.lookup e = some ev) :
    ∃ s', s.trigger e ev = some s' ∧ Delivers s s' (yields s (.trigger e)) ∧
      (s.alive = false → s'.reentered = s.reentered) := by
  obtain ⟨hmem, hfreed⟩ := lookup_eq_some_iff.mp hev
  rw [yields_trigger hev]
  by_cases hlive : s.live ev = true
  · rw [if_pos hlive, trigger_live (h.actions e ev hmem) hfreed hlive]
    have hmark : Delivery (s.modifyEvent e fun ev => { ev with base.performing := true }) :=
      h.same ⟨rfl, rfl, rfl, rfl, rfl, rfl, rfl, id⟩ h.actions.performing
    obtain ⟨s', hs', hd⟩ := hmark.join (e := e) ev.value ev.base.reuse
    refine ⟨s', hs', { hd with }, fun hdead => ?_⟩
    rw [State.live, hdead, Bool.and_false] at hlive
    cases hlive
  · rw [if_neg hlive]
    rcases trigger_idle (e := e) (Bool.not_eq_true _ ▸ hlive) with hs | ⟨-, hs⟩
    · exact ⟨s, hs, h.same_delivers (.refl s) h.actions, fun _ => rfl⟩
    · exact ⟨_, hs, h.same_delivers ⟨rfl, rfl, rfl, rfl, rfl, rfl, rfl, id⟩
        (h.actions.performing.endTrigger true), fun _ => rfl⟩

theorem Delivery.twait (h : Delivery s) (hs : s.twait = some s') :
    Delivers s s' [] ∧ s'.reentered = s.reentered := by
  rw [State.twait] at hs
  split at hs
  · next v pending hpending =>
    cases hs
    refine ⟨⟨?_, (List.append_nil _).symm, List.prefix_append .., id⟩, rfl⟩
    have hjoin : s.joinMethod ≠ .events := by
      intro hj
      rw [(h.blocked hj).1] at hpending
      cases hpending
    refine ⟨?_, by simp, ?_, h.nodup, h.waits, h.actions⟩
    · change s.produced.map Prod.snd = s.consumed ++ [v] ++ pending
      rw [h.fifo, hpending, List.append_assoc]
      rfl
    · dsimp only
      rw [if_neg hjoin]
      exact h.joinCls
  · next hpending =>
    obtain ⟨-, ⟨⟩⟩ := Option.ite_none_right_eq_some.mp hs
    refine ⟨⟨?_, (List.append_nil _).symm, List.prefix_rfl, id⟩, rfl⟩
    refine ⟨h.fifo, fun _ => ⟨hpending, _, rfl⟩, ?_, h.nodup, ?_, h.actions⟩
    · rintro w ⟨⟩
      exact ⟨Nat.lt_succ_self _, fun hw => Nat.lt_irrefl _ (h.waits _ hw)⟩
    · exact fun w hw => Nat.lt_succ_of_lt (h.waits w hw)

/-- The newest trigger of `e` that has not returned was not to be reused. -/
def Active (e : ℕ) (stack : List Frame) : Prop :=
  ∃ above below, stack = above ++ .perform e false :: below ∧ ∀ r, .perform e r ∉ above

theorem Active.cons {f : Frame} (h : Active e stack)
    (hf : ∀ r, f ≠ .perform e r) : Active e (f :: stack) := by
  obtain ⟨above, below, rfl, habove⟩ := h
  refine ⟨f :: above, below, rfl, fun r hr => ?_⟩
  rcases List.mem_cons.mp hr with heq | hr
  · exact hf r heq.symm
  · exact habove r hr

theorem Active.tail {f : Frame} (h : Active e (f :: stack))
    (hf : f ≠ .perform e false) : Active e stack := by
  obtain ⟨above, below, heq, habove⟩ := h
  cases above with
  | nil => exact absurd (List.cons.inj heq).1 hf
  | cons f' above =>
    exact ⟨above, below, (List.cons.inj heq).2, fun r hr => habove r (List.mem_cons_of_mem _ hr)⟩

/-- The events age, and the newest triggers stay. -/
structure Keeps (s s' : State V) : Prop where
  ages : Ages s s'
  active : ∀ e, Active e s.stack → Active e s'.stack

theorem Keeps.trans {s'' : State V} (h : Keeps s s') (h' : Keeps s' s'') : Keeps s s'' :=
  ⟨h.ages.trans h'.ages, fun e he => h'.active e (h.active e he)⟩

theorem Keeps.of_stack (h : Ages s s') (hstack : s'.stack = s.stack) : Keeps s s' :=
  ⟨h, fun _ he => hstack ▸ he⟩

theorem keeps_cancelAllEvents {loop : Frame} (hs : s.cancelAllEvents loop = some s')
    (hloop : ∀ e r, loop ≠ .perform e r) : Keeps s s' := by
  obtain ⟨hages, hstack⟩ := ages_cancelAllEvents hs
  refine ⟨hages, fun e he => ?_⟩
  rcases hstack with hstack | hstack
  · exact hstack ▸ he
  · exact hstack ▸ he.cons (hloop e)

theorem keeps_pop {f : Frame} (hstack : s.stack = f :: stack)
    (hf : ∀ e r, f ≠ .perform e r) : Keeps s { s with stack := stack } :=
  ⟨.of_events rfl, fun e he => (hstack ▸ he : Active e (f :: stack)).tail (hf e false)⟩

theorem keeps_step (hs : step s a = some s') (htrigger : ∀ e, a ≠ .trigger e)
    (hreuse : ∀ e b, a ≠ .setReuse e b) (hret : a ≠ .ret) : Keeps s s' := by
  cases a with
  | mkevent v =>
    obtain ⟨-, ⟨⟩⟩ := Option.ite_none_left_eq_some.mp hs
    refine .of_stack (ages_mkevent s v) ?_
    rw [State.mkevent]
    split <;> rfl
  | trigger e => exact absurd rfl (htrigger e)
  | cancelEvent e =>
    obtain ⟨ev, -, rfl⟩ := Option.map_eq_some_iff.mp hs
    exact .of_stack (ages_cancelEvent s e ev) (stack_clear _ e ev)
  | finish e =>
    obtain ⟨ev, -, rfl⟩ := Option.map_eq_some_iff.mp hs
    exact .of_stack (ages_clear s e ev) (stack_clear s e ev)
  | setReuse e b => exact absurd rfl (hreuse e b)
  | free e =>
    obtain ⟨-, hs⟩ := Option.ite_none_left_eq_some.mp hs
    obtain ⟨ev, -, rfl⟩ := Option.map_eq_some_iff.mp hs
    exact .of_stack (ages_free s e ev) (stack_free s e ev)
  | twait =>
    obtain ⟨-, hs⟩ := Option.ite_none_left_eq_some.mp hs
    rw [State.twait] at hs
    split at hs
    · cases hs
      exact .of_stack (.of_events rfl) rfl
    · obtain ⟨-, ⟨⟩⟩ := Option.ite_none_right_eq_some.mp hs
      exact .of_stack (.of_events rfl) rfl
  | cancel =>
    obtain ⟨-, hs⟩ := Option.ite_none_left_eq_some.mp hs
    have hflag : Keeps s { s with isCancelling := true } := .of_stack (.of_events rfl) rfl
    exact hflag.trans (keeps_cancelAllEvents hs (by simp))
  | destroy =>
    obtain ⟨-, hs⟩ := Option.ite_none_left_eq_some.mp hs
    have hflag : Keeps s { s with dead := true } := .of_stack (.of_events rfl) rfl
    exact hflag.trans (keeps_cancelAllEvents hs (by simp))
  | ret => exact absurd rfl hret
  | loop =>
    rw [step] at hs
    split at hs
    · next stack hstack =>
      obtain ⟨-, hs⟩ := Option.ite_none_left_eq_some.mp hs
      exact (keeps_pop hstack (by simp)).trans (keeps_cancelAllEvents hs (by simp))
    · next stack hstack =>
      exact (keeps_pop hstack (by simp)).trans (keeps_cancelAllEvents hs (by simp))
    · cases hs

theorem Delivery.step (h : Delivery s) (hs : step s a = some s') :
    Delivers s s' (yields s a) ∧ (s.cancelled = true → s'.reentered = s.reentered) := by
  by_cases htrigger : ∃ e, a = .trigger e
  · obtain ⟨e, rfl⟩ := htrigger
    obtain ⟨ev, hev, hs⟩ := Option.bind_eq_some_iff.mp hs
    obtain ⟨s₁, hs₁, hd, hkept⟩ := h.trigger hev
    rw [hs, Option.some.injEq] at hs₁
    subst hs₁
    refine ⟨hd, fun hc => hkept ?_⟩
    rw [State.alive, hc, Bool.not_true, Bool.and_false]
  have htrigger : ∀ e, a ≠ .trigger e := fun e he => htrigger ⟨e, he⟩
  have hyields : yields s a = [] := by
    cases a with
    | trigger e => exact absurd rfl (htrigger e)
    | _ => rfl
  rw [hyields]
  by_cases hwait : a = .twait
  · subst hwait
    obtain ⟨-, hs⟩ := Option.ite_none_left_eq_some.mp hs
    obtain ⟨hd, hkept⟩ := h.twait hs
    exact ⟨hd, fun _ => hkept⟩
  have hsame := same_step hs htrigger hwait
  refine ⟨h.same_delivers hsame ?_, fun _ => hsame.reentered⟩
  by_cases hreuse : ∃ e b, a = .setReuse e b
  · obtain ⟨e, b, rfl⟩ := hreuse
    obtain ⟨ev, -, rfl⟩ := Option.map_eq_some_iff.mp hs
    exact h.actions.modify rfl fun _ => id
  by_cases hret : a = .ret
  · subst hret
    rw [Rendezvous.step] at hs
    split at hs
    · next e reuse stack hstack =>
      cases hs
      have hpop : ActionsOk { s with stack := stack } := h.actions
      exact hpop.endTrigger reuse
    · cases hs
  exact (keeps_step hs htrigger (fun e b hab => hreuse ⟨e, b, hab⟩) hret).ages.actionsOk h.actions

end Delivery

/-- The event is gone, or a trigger of it that is not to be reused has or will clear it. -/
def Spent (s : State V) (e : ℕ) : Prop :=
  ∃ ev : Event V, s.events[e]? = some ev ∧
    (ev.freed = true ∨ ev.base.cleared = true ∨
      ev.base.performing = true ∧ ev.base.reuse = false ∧ Active e s.stack)

section Spent

variable {s s' : State V} {e i : ℕ} {ev : Event V}

theorem Spent.aged (h : Spent s e)
    (hev : ∀ ev, s.events[e]? = some ev → ∃ ev', s'.events[e]? = some ev' ∧ Aged ev ev')
    (hactive : Active e s.stack → Active e s'.stack) : Spent s' e := by
  obtain ⟨ev, hmem, hspent⟩ := h
  obtain ⟨ev', hmem', haged⟩ := hev ev hmem
  refine ⟨ev', hmem', ?_⟩
  rcases hspent with hf | hc | ⟨hp, hr, ha⟩
  · exact Or.inl (haged.freed hf)
  · exact Or.inr (Or.inl (haged.cleared hc))
  · exact Or.inr (Or.inr ⟨haged.performing.trans hp, haged.reuse.trans hr, hactive ha⟩)

theorem getElem?_modifyEvent_ne (hne : i ≠ e) : (s.modifyEvent i f).events[e]? = s.events[e]? :=
  List.getElem?_modify_ne f s.events hne

theorem Delivery.trigger_other (h : Delivery s) (hev : s.lookup i = some ev)
    (hs : s.trigger i ev = some s') (hne : i ≠ e) :
    s'.events[e]? = s.events[e]? ∧
      (s'.stack = s.stack ∨ ∃ r, s'.stack = .perform i r :: s.stack) := by
  obtain ⟨hmem, hfreed⟩ := lookup_eq_some_iff.mp hev
  let t := s.modifyEvent i fun ev => { ev with base.performing := true }
  have hmark : t.events[e]? = s.events[e]? := getElem?_modifyEvent_ne hne
  have hend : ∀ (u : State V) (r : Bool), (u.endTrigger i r).events[e]? = u.events[e]? :=
    fun _ _ => getElem?_modifyEvent_ne hne
  by_cases hlive : s.live ev = true
  · rw [trigger_live (h.actions i ev hmem) hfreed hlive] at hs
    have hpush : (t.push i ev.value ev.base.reuse).events[e]? = s.events[e]? := by
      rw [push_events, hmark]
    by_cases hjoin : s.joinMethod = .events
    · obtain ⟨hpending, w, hcls⟩ := h.blocked hjoin
      rw [join_reenter (s := t) (w := w) _ _ hjoin hpending hcls] at hs
      cases hs
      exact ⟨hpush, Or.inr ⟨_, rfl⟩⟩
    · rw [join_queue (s := t) _ _ hjoin] at hs
      cases hs
      exact ⟨(hend _ _).trans hpush, Or.inl (push_stack (s := t) _ _)⟩
  · rcases trigger_idle (e := i) (Bool.not_eq_true _ ▸ hlive) with hs' | ⟨-, hs'⟩
    · rw [hs', Option.some.injEq] at hs
      subst hs
      exact ⟨rfl, Or.inl rfl⟩
    · rw [hs', Option.some.injEq] at hs
      subst hs
      exact ⟨(hend t true).trans hmark, Or.inl rfl⟩

theorem Spent.canTrigger (h : Spent s e) (hev : s.lookup e = some ev) :
    ev.base.canTrigger = false := by
  obtain ⟨ev', hmem', hspent⟩ := h
  obtain ⟨hmem, hfreed⟩ := lookup_eq_some_iff.mp hev
  rw [hmem, Option.some.injEq] at hmem'
  subst hmem'
  rw [ev.base.canTrigger_eq, EventCancelBase.isAlive]
  rcases hspent with hf | hc | ⟨hp, hr, -⟩
  · exact absurd (hfreed.symm.trans hf) nofun
  · rw [hc, Bool.not_true, Bool.and_false]
  · rw [hp, hr, Bool.not_true, Bool.false_or, Bool.and_false, Bool.false_and]

theorem Delivery.spent_trigger (h : Delivery s) (hev : s.lookup e = some ev)
    (hlive : s.live ev = true) (hreuse : ev.base.reuse = false)
    (hs : s.trigger e ev = some s') : Spent s' e := by
  obtain ⟨hmem, hfreed⟩ := lookup_eq_some_iff.mp hev
  let t := s.modifyEvent e fun ev => { ev with base.performing := true }
  have hmark : t.events[e]? = some { ev with base.performing := true } :=
    getElem?_modifyEvent_self hmem
  rw [trigger_live (h.actions e ev hmem) hfreed hlive, hreuse] at hs
  have hpush : (t.push e ev.value false).events[e]? = some { ev with base.performing := true } := by
    rw [push_events, hmark]
  by_cases hjoin : s.joinMethod = .events
  · obtain ⟨hpending, w, hcls⟩ := h.blocked hjoin
    rw [join_reenter (s := t) (w := w) _ _ hjoin hpending hcls] at hs
    cases hs
    exact ⟨_, hpush, Or.inr (Or.inr ⟨rfl, hreuse, [], _, rfl, fun _ => List.not_mem_nil⟩)⟩
  · rw [join_queue (s := t) _ _ hjoin] at hs
    cases hs
    exact ⟨_, getElem?_modifyEvent_self hpush, Or.inr (Or.inl (Bool.or_true _))⟩

theorem yielded_append {values : List (ℕ × V)} (h : s'.produced = s.produced ++ values)
    (hvalues : ∀ p ∈ values, p.1 ≠ e) : s'.yielded e = s.yielded e := by
  have hnone : values.filter (·.1 = e) = [] :=
    List.filter_eq_nil_iff.mpr fun p hp => by simpa using hvalues p hp
  rw [State.yielded, h, List.filter_append, hnone, List.append_nil]
  rfl

theorem Spent.ret (h : Spent s e) {reuse : Bool} (hstack : s.stack = .perform i reuse :: stack) :
    Spent ({ s with stack := stack }.endTrigger i reuse) e := by
  by_cases hi : i = e
  · subst hi
    obtain ⟨ev, hmem, hspent⟩ := h
    refine ⟨_, getElem?_modifyEvent_self hmem, ?_⟩
    rcases hspent with hf | hc | ⟨-, -, above, below, hbelow, habove⟩
    · exact Or.inl hf
    · exact Or.inr (Or.inl ((Bool.or_eq_true _ _).mpr (Or.inl hc)))
    · rw [hstack] at hbelow
      cases above with
      | nil =>
        obtain ⟨-, rfl⟩ := Frame.perform.inj (List.cons.inj hbelow).1
        exact Or.inr (Or.inl (Bool.or_true _))
      | cons f above =>
        have hf := (List.cons.inj hbelow).1
        exact absurd (hf ▸ List.mem_cons_self) (habove reuse)
  · refine h.aged (fun ev hev => ⟨ev, (getElem?_modifyEvent_ne hi).trans hev, .refl ev⟩)
      fun ha => ?_
    exact (hstack ▸ ha : Active e (.perform i reuse :: stack)).tail
      fun heq => hi (Frame.perform.inj heq).1

theorem Delivery.spent_step (h : Delivery s) (hspent : Spent s e)
    (hkeep : KeepsReuse e s a) (hs : Rendezvous.step s a = some s') : Spent s' e := by
  by_cases htrigger : ∃ i, a = .trigger i
  · obtain ⟨i, rfl⟩ := htrigger
    obtain ⟨ev, hev, hs⟩ := Option.bind_eq_some_iff.mp hs
    by_cases hi : i = e
    · subst hi
      rw [State.trigger, hspent.canTrigger hev] at hs
      cases hs
      exact hspent
    · obtain ⟨hmem, hstack⟩ := h.trigger_other hev hs hi
      refine hspent.aged (fun ev hev => ⟨ev, hmem.trans hev, .refl ev⟩) fun ha => ?_
      rcases hstack with hstack | ⟨r, hstack⟩
      · exact hstack ▸ ha
      · exact hstack ▸ ha.cons fun r' heq => hi (Frame.perform.inj heq).1
  by_cases hreuse : ∃ i b, a = .setReuse i b
  · obtain ⟨i, b, rfl⟩ := hreuse
    obtain ⟨ev, hev, rfl⟩ := Option.map_eq_some_iff.mp hs
    by_cases hi : i = e
    · subst hi
      obtain ⟨ev, hmem, hspent⟩ := hspent
      refine ⟨_, getElem?_modifyEvent_self hmem, ?_⟩
      rcases hspent with hf | hc | ⟨-, -, above, below, hstack, -⟩
      · exact Or.inl hf
      · exact Or.inr (Or.inl hc)
      · exact absurd (by simp [hstack]) (hkeep b rfl)
    · exact hspent.aged (fun ev hev => ⟨ev, (getElem?_modifyEvent_ne hi).trans hev, .refl ev⟩) id
  by_cases hret : a = .ret
  · subst hret
    rw [Rendezvous.step] at hs
    split at hs
    · next i reuse stack hstack =>
      cases hs
      exact hspent.ret hstack
    · cases hs
  have hk := keeps_step hs (fun i hi => htrigger ⟨i, hi⟩) (fun i b hi => hreuse ⟨i, b, hi⟩) hret
  exact hspent.aged (hk.ages.aged e) (hk.active e)

theorem Delivery.spent_yielded (h : Delivery s) (hspent : Spent s e)
    (hs : Rendezvous.step s a = some s') : s'.yielded e = s.yielded e := by
  refine yielded_append (h.step hs).1.produced fun p hp => ?_
  cases a with
  | trigger i =>
    rw [yields] at hp
    split at hp
    · next ev hev =>
      split at hp
      · next hlive =>
        rw [List.mem_singleton.mp hp]
        rintro rfl
        rw [State.live, ← EventCancelBase.canTrigger_eq, hspent.canTrigger hev] at hlive
        cases hlive
      · cases hp
    · cases hp
  | _ => cases hp

theorem yields_of_cancelled (hc : s.cancelled = true) : yields s a = [] := by
  cases a with
  | trigger e =>
    have hlive : ∀ ev, s.live ev = false := fun ev => by
      rw [State.live, State.alive, hc, Bool.not_true, Bool.and_false, Bool.and_false]
    rw [yields]
    split
    · next ev _ => exact if_neg (by rw [hlive ev]; simp)
    · rfl
  | _ => rfl

end Spent

/-- In every run the waits take the values in the order in which they were produced, each once, and
no wait is re-entered twice. A trigger of a live event produces its value, and the last one if it is
not to be reused. Behind a cancellation no trigger produces a value or re-enters a closure; the
waits still take the values that are pending. -/
theorem rendezvous_delivery {es : List (Act V)} {s : State V}
    (hrun : Run step (fun _ _ => True) State.init es s) :
    s.produced.map Prod.snd = s.consumed ++ s.pending ∧
    (s.reentered.Nodup ∧ ∀ w ∈ s.reentered, w < s.waits) ∧
    (s.joinMethod = .events → s.pending = []) ∧
    (∀ a s', step s a = some s' →
      s'.produced = s.produced ++ yields s a ∧ s.consumed <+: s'.consumed) ∧
    (∀ e ev, s.lookup e = some ev → ∃ s', step s (.trigger e) = some s') ∧
    (∀ e ev s₁ es' s', s.lookup e = some ev → s.live ev = true → ev.base.reuse = false →
      step s (.trigger e) = some s₁ → Run step (KeepsReuse e) s₁ es' s' →
      s'.yielded e = s₁.yielded e) ∧
    (s.cancelled = true → ∀ es' s', Run step (fun _ _ => True) s es' s' →
      s'.produced = s.produced ∧ s'.reentered = s.reentered) := by
  have hd : Delivery s := hrun.invariant .init fun _ _ _ h _ hs => (h.step hs).1.delivery
  refine ⟨hd.fifo, ⟨hd.nodup, hd.waits⟩, fun hj => (hd.blocked hj).1,
    fun a s' hs => ⟨(hd.step hs).1.produced, (hd.step hs).1.consumed⟩, ?_, ?_, ?_⟩
  · intro e ev hev
    obtain ⟨s', hs', -⟩ := hd.trigger hev
    exact ⟨s', Option.bind_eq_some_iff.mpr ⟨ev, hev, hs'⟩⟩
  · intro e ev s₁ es' s' hev hlive hreuse hs₁ hrun'
    have hs : s.trigger e ev = some s₁ := by
      obtain ⟨ev', hev', hs⟩ := Option.bind_eq_some_iff.mp hs₁
      rw [hev, Option.some.injEq] at hev'
      rwa [hev']
    have hspent := hd.spent_trigger hev hlive hreuse hs
    have h := hrun'.invariant
      (I := fun s' => Delivery s' ∧ Spent s' e ∧ s'.yielded e = s₁.yielded e)
      ⟨(hd.step hs₁).1.delivery, hspent, rfl⟩ ?_
    · exact h.2.2
    · rintro t a t' ⟨ht, hspent, hy⟩ hkeep hs
      exact ⟨(ht.step hs).1.delivery, ht.spent_step hspent hkeep hs,
        (ht.spent_yielded hspent hs).trans hy⟩
  · intro hcancelled es' s' hrun'
    have h := hrun'.invariant
      (I := fun s' => Delivery s' ∧ s'.cancelled = true ∧ s'.produced = s.produced ∧
        s'.reentered = s.reentered)
      ⟨hd, hcancelled, rfl, rfl⟩ ?_
    · exact h.2.2
    · rintro t a t' ⟨ht, hc, hproduced, hreentered⟩ - hs
      obtain ⟨hdel, hkept⟩ := ht.step hs
      refine ⟨hdel.delivery, hdel.cancelled hc, ?_, (hkept hc).trans hreentered⟩
      rw [hdel.produced, yields_of_cancelled hc, List.append_nil, hproduced]

/-- A closure is re-entered by the second of two events and takes the values of both; the
rendezvous is cancelled. -/
theorem rendezvous_delivery_example :
    ∃ s : State ℕ, Run step (fun _ _ => True) State.init
        [.mkevent 7, .mkevent 8, .twait, .trigger 1, .trigger 0, .twait, .ret, .cancel] s ∧
      s.produced.map Prod.snd = s.consumed ++ s.pending := by
  have hrun : Run step (fun _ _ => True) (State.init : State ℕ)
      [.mkevent 7, .mkevent 8, .twait, .trigger 1, .trigger 0, .twait, .ret, .cancel] _ :=
    Run.of_foldlM rfl
  exact ⟨_, hrun, (rendezvous_delivery hrun).1⟩

/-- A wait behind the cancellation still takes the value that was pending; and an event that is
not to be reused fires twice, when its flag is set and taken back while its trigger has not
returned. -/
theorem rendezvous_delivers_late :
    (∃ s s' : State ℕ, Run step (fun _ _ => True) State.init [.mkevent 7, .trigger 0, .cancel] s ∧
      s.cancelled = true ∧ step s .twait = some s' ∧ s.consumed = [] ∧ s'.consumed = [7]) ∧
    ∃ s s' : State ℕ, Run step (fun _ _ => True) State.init [.mkevent 7, .twait, .trigger 0,
        .setReuse 0 true, .trigger 0, .setReuse 0 false] s ∧
      s.yielded 0 = [(0, 7), (0, 7)] ∧ (s.lookup 0).map (·.base.reuse) = some false ∧
      step s (.trigger 0) = some s' ∧ s'.yielded 0 = [(0, 7), (0, 7), (0, 7)] := by
  constructor
  · exact ⟨_, _, Run.of_foldlM rfl, rfl, rfl, rfl, rfl⟩
  · exact ⟨_, _, Run.of_foldlM rfl, rfl, rfl, rfl, rfl⟩

end Sfslite.Libtame.Rendezvous
