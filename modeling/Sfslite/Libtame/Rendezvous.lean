import Sfslite.Lib.Hlist
import Sfslite.Lib.Run

/-!
`rendezvous_t` of `tame_rendezvous.h` with its events, their flags `_event_cancel_base` of
`tame_event.h`, and the code that `tame_wait_t::output` writes for `twait (rv)`; without threads.
Between two steps any code may run: the one that has triggered or waited, a closure that was
re-entered, the notifier of an event that was cancelled.
-/

namespace Sfslite.Libtame

/-- `_event_cancel_base`. -/
structure EventCancelBase where
  cancelled : Bool
  cleared : Bool
  reuse : Bool
  performing : Bool
deriving DecidableEq, Repr

namespace EventCancelBase

def new : EventCancelBase := ⟨false, false, false, false⟩

def isAlive (e : EventCancelBase) : Bool :=
  !e.cancelled && (e.reuse || !e.performing) && !e.cleared

/-- `can_trigger`, without the messages. -/
def canTrigger (e : EventCancelBase) : Bool :=
  if e.cancelled then false
  else if e.performing && !e.reuse then false
  else if e.cleared then false
  else true

theorem canTrigger_eq (e : EventCancelBase) : e.canTrigger = e.isAlive := by
  obtain ⟨cancelled, cleared, reuse, performing⟩ := e
  cases cancelled <;> cases cleared <;> cases reuse <;> cases performing <;> rfl

end EventCancelBase

end Sfslite.Libtame

namespace Sfslite.Libtame.Rendezvous

open Sfslite.Lib.Hlist

/-- `join_method_t`. -/
inductive JoinMethod where
  | none
  | events
deriving DecidableEq, Repr

/-- An event of the rendezvous, with its `rendezvous_action`. -/
structure Event (V : Type*) where
  base : EventCancelBase
  value : V
  actionCleared : Bool
  freed : Bool
deriving DecidableEq, Repr

/-- What has not returned: a trigger that has re-entered a closure, with the flag that it was
called with, and the loops of `cancel` and of the destructor. -/
inductive Frame where
  | perform (e : ℕ) (reuse : Bool)
  | cancelling
  | cleanup
deriving DecidableEq, Repr

/-- A rendezvous. The list `_events` is in the links. What is remembered is the calls of
`remove`, the values that the events gave and the ones that the waits took, the number of the
waits that blocked, and the ones of them whose closures were re-entered. -/
structure State (V : Type*) where
  links : Links Unit ℕ
  nEvents : BitVec 32
  pending : List V
  joinMethod : JoinMethod
  joinCls : Option ℕ
  isCancelling : Bool
  dead : Bool
  cancelled : Bool
  events : List (Event V)
  stack : List Frame
  removed : List ℕ
  produced : List (ℕ × V)
  consumed : List V
  waits : ℕ
  reentered : List ℕ

variable {V : Type*}

namespace State

def init : State V where
  links := ⟨fun _ => none, fun _ => none, fun _ => .head ()⟩
  nEvents := 0
  pending := []
  joinMethod := .none
  joinCls := none
  isCancelling := false
  dead := false
  cancelled := false
  events := []
  stack := []
  removed := []
  produced := []
  consumed := []
  waits := 0
  reentered := []

/-- `flag ()->is_alive ()`. -/
def alive (s : State V) : Bool := !s.dead && !s.cancelled

def modifyEvent (s : State V) (e : ℕ) (f : Event V → Event V) : State V :=
  { s with events := s.events.modify e f }

/-- `_n_events --; _events.remove (e)`. -/
def remove (s : State V) (e : ℕ) : State V :=
  { s with
    nEvents := s.nEvents - 1
    links := s.links.unlink e
    removed := s.removed ++ [e] }

/-- `_ti_mkevent`. -/
def mkevent (s : State V) (v : V) : State V :=
  if !s.alive || s.isCancelling then s
  else
    { s with
      events := s.events ++ [⟨.new, v, false, false⟩]
      nEvents := s.nEvents + 1
      links := s.links.push () s.events.length }

/-- `rendezvous_action::clear (e)`. -/
def clearAction (s : State V) (e : ℕ) (ev : Event V) : State V :=
  if ev.actionCleared then s
  else (if s.alive then s.remove e else s).modifyEvent e fun ev =>
    { ev with actionCleared := true }

/-- `_event_cancel_base::clear`. -/
def clear (s : State V) (e : ℕ) (ev : Event V) : State V :=
  if ev.base.cleared then s
  else (s.clearAction e ev).modifyEvent e fun ev => { ev with base.cleared := true }

/-- `_event_cancel_base::cancel`. -/
def cancelEvent (s : State V) (e : ℕ) (ev : Event V) : State V :=
  (s.modifyEvent e fun ev => { ev with base.cancelled := true }).clear e ev

/-- The destructor of an event. -/
def free (s : State V) (e : ℕ) (ev : Event V) : State V :=
  (if ev.base.cleared then s else s.clearAction e ev).modifyEvent e fun ev =>
    { ev with freed := true }

/-- `cancel_all_events` up to the end of one turn; behind the loop of `cancel` the flag is set. -/
def cancelAllEvents (s : State V) (loop : Frame) : Option (State V) :=
  match s.links.head () with
  | none => some (if loop = .cancelling then { s with cancelled := true } else s)
  | some b =>
    match s.events[b]? with
    | none => none
    | some ev =>
      if ev.freed then none
      else
        let s := (s.remove b).cancelEvent b ev
        some { s with stack := loop :: s.stack }

/-- `twait (rv)`, and what it does again when the closure is re-entered: `_ti_next_trigger`, then
`_ti_clear_join_method` or `_ti_set_join_cls`. -/
def twait (s : State V) : Option (State V) :=
  match s.pending with
  | v :: pending =>
    some { s with
      pending := pending
      consumed := s.consumed ++ [v]
      joinCls := if s.joinMethod = .events then none else s.joinCls
      joinMethod := .none }
  | [] =>
    if s.joinMethod = .none then
      some { s with joinMethod := .events, joinCls := some s.waits, waits := s.waits + 1 }
    else none

/-- What `perform` and `trigger` do behind the join. -/
def endTrigger (s : State V) (e : ℕ) (reuse : Bool) : State V :=
  s.modifyEvent e fun ev =>
    { ev with
      actionCleared := ev.actionCleared || !reuse
      base.cleared := ev.base.cleared || !reuse
      base.performing := false }

/-- `_pending_values.push_back (v)`, and `remove (e)` for an event that is not to be reused. -/
def push (s : State V) (e : ℕ) (v : V) (reuse : Bool) : State V :=
  let s := { s with pending := s.pending ++ [v], produced := s.produced ++ [(e, v)] }
  if reuse then s else s.remove e

/-- `c->v_reenter ()`: the closure comes back to its `twait`. -/
def reenter (s : State V) (e : ℕ) (reuse : Bool) : Option (State V) :=
  match s.joinCls with
  | none => none
  | some w =>
    { s with
      joinCls := none
      joinMethod := .none
      reentered := s.reentered ++ [w]
      stack := .perform e reuse :: s.stack }.twait

/-- `_ti_join`, and what `perform` and `trigger` do behind it if nothing is re-entered. -/
def join (s : State V) (e : ℕ) (v : V) (reuse : Bool) : Option (State V) :=
  let s := s.push e v reuse
  if s.joinMethod = .events then s.reenter e reuse else some (s.endTrigger e reuse)

/-- `trigger`, with `rendezvous_action::perform`. -/
def trigger (s : State V) (e : ℕ) (ev : Event V) : Option (State V) :=
  if ev.base.canTrigger then
    let s := s.modifyEvent e fun ev => { ev with base.performing := true }
    if ev.actionCleared then some (s.endTrigger e true)
    else if s.alive then s.join e ev.value ev.base.reuse
    else some (s.endTrigger e true)
  else some s

end State

/-- What can happen to a rendezvous and its events. -/
inductive Act (V : Type*) where
  | mkevent (v : V)
  | trigger (e : ℕ)
  | cancelEvent (e : ℕ)
  | finish (e : ℕ)
  | setReuse (e : ℕ) (b : Bool)
  | free (e : ℕ)
  | twait
  | cancel
  | destroy
  | ret
  | loop
deriving DecidableEq, Repr

/-- An event that somebody has a reference to. -/
def State.lookup (s : State V) (e : ℕ) : Option (Event V) :=
  s.events[e]?.filter fun ev => !ev.freed

/-- One step; `none` where it is not to be had, or stops the program. A trigger holds its event,
and nobody has a rendezvous whose destructor was called. -/
def step (s : State V) : Act V → Option (State V)
  | .mkevent v => if s.dead then none else some (s.mkevent v)
  | .trigger e => (s.lookup e).bind (s.trigger e)
  | .cancelEvent e => (s.lookup e).map (s.cancelEvent e)
  | .finish e => (s.lookup e).map (s.clear e)
  | .setReuse e b =>
    (s.lookup e).map fun _ => s.modifyEvent e fun ev => { ev with base.reuse := b }
  | .free e =>
    if .perform e true ∈ s.stack ∨ .perform e false ∈ s.stack then none
    else (s.lookup e).map (s.free e)
  | .twait => if s.dead then none else s.twait
  | .cancel => if s.dead then none else { s with isCancelling := true }.cancelAllEvents .cancelling
  | .destroy => if s.dead then none else { s with dead := true }.cancelAllEvents .cleanup
  | .ret =>
    match s.stack with
    | .perform e reuse :: stack => some ({ s with stack := stack }.endTrigger e reuse)
    | _ => none
  | .loop =>
    match s.stack with
    | .cancelling :: stack =>
      if s.dead then none else { s with stack := stack }.cancelAllEvents .cancelling
    | .cleanup :: stack => { s with stack := stack }.cancelAllEvents .cleanup
    | _ => none

end Sfslite.Libtame.Rendezvous
