import Sfslite.Libtame.RendezvousDelivery

/-!
`__kto` and `__cnc` of `tame_connectors.Th`: a wrapped event that is triggered by the first of several
sources. The sources are events on one rendezvous; when the wrapped event is triggered any code may
run, until `ret`.
-/

namespace Sfslite.Libtame.Connector

open Sfslite.Lib (Run)
open Rendezvous (State Frame)

/-- `outcome_t`. -/
inductive Outcome where
  | succ
  | timedout
  | cancelled
  | signaled
  | discarded
deriving DecidableEq, Repr

/-- The connector, and for `__cnc` whether it is given an outer object and a timeout that is
valid. -/
inductive Code where
  | kto
  | cnc (cobj timeout : Bool)
deriving DecidableEq, Repr

/-- Where the connector is: at its first wait, in the trigger of the wrapped event behind which it
waits again, at that wait, or at its end. -/
inductive Phase where
  | first
  | triggering
  | late
  | done
deriving DecidableEq, Repr

/-- A connector, with the events that its rendezvous numbers: the inner event `out`, the event of
the timer that is set, and the cancel notifiers of the outer object and of the inner event. Of the
wrapped event there is what was assigned to its slots last, and how often it was triggered. -/
structure Conn (ν : Type) where
  code : Code
  rv : State Outcome
  out : ℕ
  tcb : Bool
  timer : Option ℕ
  outer : Option ℕ
  discarded : Option ℕ
  phase : Phase
  slots : Option ν
  ocp : Option Outcome
  triggered : ℕ

variable {ν : Type}

def Code.events : Code → List Outcome
  | .kto => [.timedout, .succ]
  | .cnc cobj timeout =>
    (if cobj then [.cancelled] else []) ++ (if timeout then [.timedout] else []) ++
      [.succ, .discarded]

/-- The connector up to its first `twait`. -/
def start (code : Code) : Option (Conn ν) := do
  let rv ← (code.events.map Rendezvous.Act.mkevent).foldlM Rendezvous.step .init
  let rv ← Rendezvous.step rv .twait
  some {
    code := code
    rv := rv
    out := code.events.idxOf .succ
    tcb := .timedout ∈ code.events
    timer := code.events.idxOf? .timedout
    outer := code.events.idxOf? .cancelled
    discarded := code.events.idxOf? .discarded
    phase := .first
    slots := none
    ocp := none
    triggered := 0 }

namespace Conn

def act (s : Conn ν) (a : Rendezvous.Act Outcome) : Option (Conn ν) :=
  (Rendezvous.step s.rv a).map fun rv => { s with rv := rv }

/-- `timecb_remove (tcb)`: the timer goes, and with it the only reference to its event. -/
def timecbRemove (s : Conn ν) : Option (Conn ν) :=
  match s.timer with
  | none => none
  | some e => ({ s with timer := none } : Conn ν).act (.free e)

/-- A notifier is dropped by the object that it was to tell about. -/
def dropNotifier (s : Conn ν) (e : ℕ) : Conn ν :=
  { s with
    outer := if s.outer = some e then none else s.outer
    discarded := if s.discarded = some e then none else s.discarded }

/-- What `cancel` of the event `b` does behind `clear`, when `rv.cancel` calls it; nobody waits at
the rendezvous then. -/
def notifyCancelled (s : Conn ν) (b : ℕ) : Option (Conn ν) :=
  match s.discarded with
  | none => some s
  | some d =>
    if b ≠ s.out then some s
    else do
      let ev ← s.rv.lookup d
      let s ← (if ev.base.cancelled then some s else s.act (.trigger d))
      some (s.dropNotifier d)

/-- The loop of `rv.cancel`. -/
def cancelLoop : ℕ → Conn ν → Rendezvous.Act Outcome → Option (Conn ν)
  | 0, _, _ => none
  | fuel + 1, s, a =>
    match s.rv.links.head () with
    | none => s.act a
    | some b => do
        let s ← s.act a
        let s ← s.notifyCancelled b
        cancelLoop fuel s .loop

/-- `rv.cancel ()`. -/
def cancelRv (s : Conn ν) : Option (Conn ν) := cancelLoop (s.rv.events.length + 1) s .cancel

/-- `if (ocp) *ocp = outc; in->trigger_no_assign ()`. -/
def trigger (s : Conn ν) (outc : Outcome) (phase : Phase) : Conn ν :=
  { s with ocp := some outc, triggered := s.triggered + 1, phase := phase }

/-- The connector behind a `twait` that gave it `outc`. -/
def resume (s : Conn ν) (outc : Outcome) : Option (Conn ν) :=
  match s.code, s.phase with
  | .cnc _ _, _ => do
      let s ← (if outc ≠ .timedout ∧ s.tcb then s.timecbRemove else some s)
      let s ← ({ s with tcb := false } : Conn ν).cancelRv
      some (s.trigger outc .done)
  | .kto, .first =>
    if outc ≠ .timedout then
      if s.tcb then do
        let s ← s.timecbRemove
        let s ← s.cancelRv
        some (s.trigger outc .done)
      else none
    else some (({ s with tcb := false } : Conn ν).trigger outc .triggering)
  | .kto, _ => if outc = .succ then some { s with phase := .done } else none

/-- The event `e` is triggered, and a wait that blocks goes on. -/
def fire (s : Conn ν) (e : ℕ) : Option (Conn ν) := do
  let s' ← s.act (.trigger e)
  if s'.rv.reentered = s.rv.reentered then some s'
  else do
    let outc ← s'.rv.consumed.getLast?
    s'.resume outc

/-- What `cancel` does with the notifier of the object that is cancelled. If that lets the
connector go on, the notifier is dropped when it has returned. -/
def notify (s : Conn ν) : Option ℕ → Option (Conn ν)
  | none => some s
  | some e => do
      let ev ← s.rv.lookup e
      if ev.base.cancelled then some (s.dropNotifier e)
      else do
        let s' ← s.fire e
        some (if s'.rv.stack = s.rv.stack then s'.dropNotifier e else s')

/-- The trigger of the wrapped event has returned to `__kto`, which waits for the inner event. -/
def waitAgain (s : Conn ν) : Option (Conn ν) :=
  if s.phase = .triggering then do
    let s' ← s.act .twait
    let s' := { s' with phase := .late }
    if s'.rv.consumed = s.rv.consumed then some s'
    else do
      let outc ← s'.rv.consumed.getLast?
      s'.resume outc
  else some s

/-- The innermost trigger that has let the connector go on returns. -/
def ret (s : Conn ν) : Option (Conn ν) := do
  let s ← s.waitAgain
  let s' ← s.act .ret
  match s.rv.stack with
  | .perform e _ :: _ => some (s'.dropNotifier e)
  | _ => none

end Conn

/-- What can happen: the inner event is triggered with a value, the timer comes, the outer object
or the inner event is cancelled; and the innermost of the triggers returns. -/
inductive Act (ν : Type) where
  | inner (v : ν)
  | timer
  | cancelOuter
  | discard
  | ret
deriving DecidableEq, Repr

def step (s : Conn ν) : Act ν → Option (Conn ν)
  | .inner v => do
      let ev ← s.rv.lookup s.out
      (if ev.base.canTrigger then { s with slots := some v } else s).fire s.out
  | .timer =>
    match s.timer with
    | none => none
    | some e => ({ s with timer := none } : Conn ν).fire e
  | .cancelOuter => s.notify s.outer
  | .discard => do
      let s ← s.act (.cancelEvent s.out)
      s.notify s.discarded
  | .ret => s.ret

/-- What is to be seen of a connector: the outcome with which the wrapped event was triggered, what
was assigned to its slots, and whether the inner event was cancelled. -/
structure Seen (ν : Type) where
  ocp : Option Outcome
  slots : Option ν
  dead : Bool
deriving DecidableEq, Repr

/-- `cnc` takes the outcome of its first source. The other one knows two sources, the inner event
until that is cancelled and the timer, and still takes what a late inner event brings. -/
def Seen.add (code : Code) (t : Seen ν) (a : Act ν) : Seen ν :=
  match code with
  | .cnc cobj _ =>
    if t.ocp.isSome then t
    else
      match a with
      | .inner v => { t with ocp := some .succ, slots := some v }
      | .timer => { t with ocp := some .timedout }
      | .cancelOuter => if cobj then { t with ocp := some .cancelled } else t
      | .discard => { t with ocp := some .discarded }
      | .ret => t
  | .kto =>
    match a with
    | .inner v =>
      if t.dead || t.slots.isSome then t
      else { t with ocp := t.ocp.or (some .succ), slots := some v }
    | .timer => { t with ocp := t.ocp.or (some .timedout) }
    | .discard => { t with dead := true }
    | .cancelOuter | .ret => t

def seen (code : Code) (as : List (Act ν)) : Seen ν := as.foldl (Seen.add code) ⟨none, none, false⟩

end Sfslite.Libtame.Connector
