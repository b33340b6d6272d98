import Mathlib.Algebra.Group.Nat.Even
import Sfslite.Lib.Run
import Sfslite.Lib.TailQueue

/-!
The retransmission queues of `backoff.h`, `tmoq`. Between two steps other code runs: the
program, or the `xmit` or `timeout` of an entry.
-/

namespace Sfslite.Async.Backoff

open Sfslite.Lib Sfslite.Lib.Hlist

/-- The parameters of the template. The longest delay is a `u_int`. -/
structure Params where
  minto : ℕ
  maxsend : ℕ
  minto_pos : 0 < minto
  maxsend_pos : 0 < maxsend
  fits : minto <<< (maxsend - 1) < 2 ^ 32

/-- What happened to an entry: it was started, sent for the `k`-th time by a call that reckons
from the time `base` at the time `now`, timed out, or removed while it was in a queue. -/
inductive Mark where
  | started
  | sent (k base now : ℕ)
  | timedOut (base : ℕ)
  | removed
deriving DecidableEq, Repr

/-- What has not returned: `start`, and `tcb` within `runq`. -/
inductive Frame where
  | start
  | runq (qn now : ℕ)
deriving DecidableEq, Repr

/-- The queues, the fields of the entries, the timers with the time each was asked for, and the
clock. What is remembered is what happened to each entry. -/
structure State where
  queue : Queues ℕ ℕ
  pending : ℕ → Bool
  qno : ℕ → ℕ
  tm : ℕ → ℕ
  timers : List (ℕ × ℕ)
  clock : ℕ
  stack : List Frame
  log : ℕ → List Mark

namespace State

/-- `tmoq ()`, with entries as `tmoq_entry ()` makes them. -/
def init (clock : ℕ) : State where
  queue := ⟨⟨fun _ => none, fun _ => none, fun _ => .head 0⟩, .head⟩
  pending _ := false
  qno _ := 2 ^ 32 - 1
  tm _ := 0
  timers := []
  clock := clock
  stack := []
  log _ := []

def mark (s : State) (p : ℕ) (m : Mark) : State :=
  { s with log := Function.update s.log p (s.log p ++ [m]) }

variable (P : Params)

def schedq (s : State) (qn : ℕ) : State :=
  if s.pending qn then s
  else
    match s.queue.links.head qn with
    | none => s
    | some p =>
      { s with
        pending := Function.update s.pending qn true
        timers := s.timers ++ [(s.tm p, qn)] }

/-- `minto << qn`. -/
def delay (qn : ℕ) : ℕ := P.minto <<< qn % 2 ^ 32

/-- `now ? now : time (NULL)`. -/
def base (s : State) (now : ℕ) : ℕ := if now = 0 then s.clock else now

/-- `insert`, up to the call of `xmit`. -/
def insert (s : State) (p qn now : ℕ) : State :=
  { s with
    qno := Function.update s.qno p qn
    tm := Function.update s.tm p (s.base now + delay P qn)
    queue := s.queue.append qn p }.schedq qn |>.mark p (.sent qn (s.base now) s.clock)

def remove (s : State) (p : ℕ) : State :=
  if s.qno p < P.maxsend then { s with queue := s.queue.remove (s.qno p) p } else s

/-- `runq` up to the call of `xmit` or `timeout`, or to its end; behind it `tcb` calls
`schedq`. -/
def runq (s : State) (qn now : ℕ) : State :=
  match s.queue.links.head qn with
  | none => s.schedq qn
  | some p =>
    if s.tm p ≤ now then
      let s := s.remove P p
      if qn < P.maxsend - 1 then
        let s := s.insert P p (qn + 1) now
        { s with stack := .runq qn now :: s.stack }
      else
        { s with
          qno := Function.update s.qno p P.maxsend
          stack := .runq qn now :: s.stack }.mark p (.timedOut now)
    else s.schedq qn

end State

/-- What can happen: the calls, the return of an `xmit` or `timeout`, the timer of a queue that
was asked for at the time `t`, and the clock. -/
inductive Act where
  | start (p : ℕ)
  | remove (p : ℕ)
  | ret
  | fire (t qn : ℕ)
  | tick (d : ℕ)
deriving DecidableEq, Repr

/-- One step. The timers are for the event loop. -/
def step (P : Params) (s : State) : Act → Option State
  | .start p =>
    let s := (s.mark p .started).insert P p 0 0
    some { s with stack := .start :: s.stack }
  | .remove p =>
    let s' := s.remove P p
    some (if s.qno p < P.maxsend then s'.mark p .removed else s')
  | .ret =>
    match s.stack with
    | .start :: stack => some { s with stack := stack }
    | .runq qn now :: stack => some ({ s with stack := stack }.runq P qn now)
    | [] => none
  | .fire t qn =>
    if s.stack = [] ∧ (t, qn) ∈ s.timers ∧ t ≤ s.clock then
      some ({ s with
        timers := s.timers.erase (t, qn)
        pending := Function.update s.pending qn false }.runq P qn s.clock)
    else none
  | .tick d => some { s with clock := s.clock + d }

/-- For the how many-th time an entry was sent and from when that call reckoned, if that is the
last that happened to it. -/
def lastSent (l : List Mark) : Option (ℕ × ℕ) :=
  match l.getLast? with
  | some (.sent k base _) => some (k, base)
  | _ => none

/-- The calls are of entries that are not in a queue, and of ones that are, have timed out or
were never started. -/
def Allowed (s : State) : Act → Prop
  | .start p => lastSent (s.log p) = none
  | .remove p => (s.log p).getLast? ≠ some .removed
  | _ => True

instance (s : State) (a : Act) : Decidable (Allowed s a) :=
  match a with
  | .start p => inferInstanceAs (Decidable (lastSent (s.log p) = none))
  | .remove p => inferInstanceAs (Decidable ((s.log p).getLast? ≠ some .removed))
  | .ret | .fire _ _ | .tick _ => .isTrue trivial

end Sfslite.Async.Backoff
