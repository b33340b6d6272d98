import Sfslite.Libtame.Rendezvous

/-!
The `twait` blocks of one closure: `closure_action` and `_mkevent_implicit_rv` of
`tame_closure.h`, the counter of `closure.C`, and the code that `tame_block_ev_t::output` puts
around a block. Between two steps any code may run. The notifier of an event that is cancelled is
one more event to trigger.
-/

namespace Sfslite.Libtame.Block

/-- An event made by `_mkevent_implicit_rv`, with its `closure_action`. What is remembered is
the block it was made in, and whether its trigger has come to the counter. -/
structure Event where
  base : EventCancelBase
  closure : Bool
  block : ℕ
  performed : Bool
deriving DecidableEq, Repr

/-- Where the closure is: outside of its blocks, in the body of one, or gone from one that it
has to come back to. -/
inductive Control where
  | code
  | block
  | blocked
deriving DecidableEq, Repr

/-- The closure, its events, and the triggers that have re-entered it and have not returned.
The count is an `int`. What is remembered is the blocks that were entered, by the numbers of their
labels, and the labels that the closure went on from. -/
structure State where
  count : BitVec 32
  jumpto : ℕ
  control : Control
  events : List Event
  stack : List ℕ
  entered : List ℕ
  continued : List ℕ
deriving DecidableEq, Repr

def State.init : State where
  count := 0
  jumpto := 0
  control := .code
  events := []
  stack := []
  entered := []
  continued := []

/-- `closure_t::block_dec_count`: whether it goes down to zero, and the count. -/
def blockDecCount (count : BitVec 32) : Bool × BitVec 32 :=
  if count.toInt ≤ 0 then (false, count) else (count - 1 = 0, count - 1)

namespace Event

/-- `_event_cancel_base::clear`, with `closure_action::clear`. -/
def clear (ev : Event) : Event :=
  if ev.base.cleared then ev else { ev with closure := false, base.cleared := true }

/-- `_event_cancel_base::cancel`. -/
def cancel (ev : Event) : Event := { ev with base.cancelled := true }.clear

/-- The event once `perform` has taken its closure. -/
def fire (ev : Event) : Event :=
  { ev with base.performing := true, closure := false, performed := true }

/-- The end of `trigger`, with what `perform_action` answered. -/
def endTrigger (ev : Event) (performed : Bool) : Event :=
  { ev with base.cleared := ev.base.cleared || performed, base.performing := false }

end Event

namespace State

def modifyEvent (s : State) (e : ℕ) (f : Event → Event) : State :=
  { s with events := s.events.modify e f }

/-- `twait {`: `init_block` and `set_jumpto`. -/
def enter (s : State) (id : ℕ) : State :=
  { s with count := 1, jumpto := id, control := .block, entered := s.entered ++ [id] }

/-- `_mkevent_implicit_rv`. -/
def mkevent (s : State) : State :=
  { s with
    count := s.count + 1
    events := s.events ++ [⟨.new, true, s.entered.length, false⟩] }

/-- `}`: the closure falls through, or returns. -/
def leave (s : State) : State :=
  let dec := blockDecCount s.count
  let s := { s with count := dec.2 }
  if dec.1 then { s with control := .code, continued := s.continued ++ s.entered.getLast?.toList }
  else { s with control := .blocked }

/-- `maybe_reenter` of the event `e`. The function is re-entered at its label, and `trigger`
goes on when it returns. -/
def maybeReenter (s : State) (e : ℕ) : State :=
  let dec := blockDecCount s.count
  let s := { s with count := dec.2 }
  if dec.1 then
    { s with
      control := .code
      continued := s.continued ++ [s.jumpto]
      stack := e :: s.stack }
  else s.modifyEvent e (·.endTrigger true)

/-- `trigger`, with `closure_action::perform`. -/
def trigger (s : State) (e : ℕ) (ev : Event) : State :=
  if ev.base.canTrigger then
    if ev.closure then (s.modifyEvent e (·.fire)).maybeReenter e
    else s.modifyEvent e (·.endTrigger false)
  else s

end State

/-- What can happen to a closure and its events. -/
inductive Act where
  | enter (id : ℕ)
  | mkevent
  | leave
  | jumpOut (id : ℕ)
  | trigger (e : ℕ)
  | ret
  | cancel (e : ℕ)
  | finish (e : ℕ)
  | setReuse (e : ℕ) (b : Bool)
deriving DecidableEq, Repr

/-- One step; `none` where it is not to be had. Blocks do not nest, events are made in the body
of a block, and a closure waits for something else (`jumpOut`) outside of its blocks. -/
def step (s : State) : Act → Option State
  | .enter id => if s.control = .code then some (s.enter id) else none
  | .mkevent => if s.control = .block then some s.mkevent else none
  | .leave => if s.control = .block then some s.leave else none
  | .jumpOut id => if s.control = .code then some { s with jumpto := id } else none
  | .trigger e => s.events[e]?.map fun ev => s.trigger e ev
  | .ret =>
    match s.stack with
    | [] => none
    | e :: stack => some ({ s with stack := stack }.modifyEvent e (·.endTrigger true))
  | .cancel e => if e < s.events.length then some (s.modifyEvent e (·.cancel)) else none
  | .finish e => if e < s.events.length then some (s.modifyEvent e (·.clear)) else none
  | .setReuse e b =>
    if e < s.events.length then some (s.modifyEvent e fun ev => { ev with base.reuse := b })
    else none

end Sfslite.Libtame.Block
