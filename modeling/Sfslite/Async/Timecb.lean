import Mathlib.Algebra.Group.Nat.Even
import Sfslite.Async.ItreeRun

/-!
Timers: `timecb`, `delaycb`, `timecb_remove` and `timecb_check` of `core.C`, with the clock of
`litetime.C`. A timer object is its address; memory that was given back holds whatever the
event says. A panic and a look at an object that was deleted answer `none`.
-/

namespace Sfslite.Async.Timecb

structure Timespec where
  tvSec : ℤ
  tvNsec : ℕ
deriving DecidableEq, Repr

def tscmp (a b : Timespec) : ℤ :=
  if a.tvSec < b.tvSec then -1
  else if b.tvSec < a.tvSec then 1
  else if a.tvNsec < b.tvNsec then -1
  else if b.tvNsec < a.tvNsec then 1
  else 0

def bil : ℕ := 1000000000

/-- `fixup_timespec`; the seconds that are carried over are an `int`. -/
def fixupTimespec (ts : Timespec) : Timespec :=
  if ts.tvNsec ≥ bil then
    { tvSec := ts.tvSec + Int.bmod (ts.tvNsec / bil) (2 ^ 32), tvNsec := ts.tvNsec % bil }
  else ts

/-- What `clock_gettime` and the mapped clock answer at one moment. -/
structure Moment where
  now : Timespec
  mapped : Timespec
deriving DecidableEq, Repr

inductive ClockType where
  | gettime
  | mmap
  | timer
deriving DecidableEq, Repr

/-- `sfs_clock_state_t`. -/
structure Clock where
  type : ClockType
  tsnow : Timespec
  needRefresh : Bool
  leftSelLoop : Bool
deriving DecidableEq, Repr

namespace Clock

def myClockGettime (c : Clock) (m : Moment) : Timespec :=
  match c.type with
  | .gettime => m.now
  | .mmap => m.mapped
  | .timer => { c.tsnow with tvNsec := c.tsnow.tvNsec + 1 }

def refreshTimestamp (c : Clock) (m : Moment) : Clock :=
  { c with tsnow := c.myClockGettime m, needRefresh := false, leftSelLoop := false }

/-- `sfs_set_global_timestamp`. -/
def setTimestamp (c : Clock) : Clock := { c with needRefresh := true }

/-- `sfs_leave_sel_loop`. -/
def leaveSelLoop (c : Clock) : Clock := { c with leftSelLoop := true }

/-- `sfs_get_tsnow`: the clock afterwards, whose `tsnow` is the answer. -/
def getTsnow (c : Clock) (frc : Bool) (m : Moment) : Clock :=
  if frc ∨ (c.needRefresh ∧ c.leftSelLoop) then c.refreshTimestamp m else c

end Clock

/-- A `timecb_t`. The number tells the timers apart that an address has held. -/
structure Timer where
  id : ℕ
  ts : Timespec
deriving DecidableEq, Repr

/-- Where `timecb_check` is: not begun, at the condition of the loop, in the callback of `tp`,
behind `delete tp`, behind the loop, returned. Destructors may run behind `delete tp`. -/
inductive Pc where
  | entry
  | test (tp : ℕ) (myTs : Timespec)
  | callback (tp ntp : ℕ) (myTs : Timespec)
  | deleted (ntp : ℕ) (myTs : Timespec)
  | wait
  | over
deriving DecidableEq, Repr

/-- The globals, the timer objects, and what is remembered of the call: when it began and
ended, and the timers that it ran and that were removed during it. -/
structure Core where
  timecbs : Itree
  timer : ℕ → Timer
  live : List ℕ
  altered : Bool
  clock : Clock
  busywait : Bool
  sigdocheck : Bool
  selwait : ℤ × ℤ
  nextId : ℕ
  pc : Pc
  began : Option Timespec
  ended : Option Timespec
  ran : List Timer
  removed : List Timer

namespace Core

/-- The order of `timecbs`. -/
def cmp (s : Core) (a b : ℕ) : ℤ := tscmp (s.timer a).ts (s.timer b).ts

def fuel (s : Core) : ℕ := s.live.length + 1

def first (s : Core) : Option ℕ := s.timecbs.itreeFirst s.fuel

def next (s : Core) (tp : ℕ) : Option ℕ :=
  if tp ∈ s.live then s.timecbs.itreeSuccessor s.fuel tp else none

def running (s : Core) : List ℕ :=
  match s.pc with
  | .callback tp _ _ => [tp]
  | _ => []

/-- `delete tcb`: the memory of the object may hold anything afterwards. -/
def free (s : Core) (tcb : ℕ) (junk : Timer) (link : ItreeEntry) : Core :=
  { s with
    live := s.live.erase tcb
    timer := Function.update s.timer tcb junk
    timecbs := s.timecbs.write tcb link }

def timecb (s : Core) (tcb : ℕ) (ts : Timespec) : Option Core := do
  let s :=
    { s with
      timer := Function.update s.timer tcb ⟨s.nextId, fixupTimespec ts⟩
      live := tcb :: s.live
      nextId := s.nextId + 1 }
  let t ← s.timecbs.itreeInsert s.cmp s.fuel tcb
  some { s with timecbs := t }

def delaycb (s : Core) (tcb : ℕ) (sec : ℤ) (nsec : ℕ) (m : Moment) : Option Core :=
  if sec = 0 ∧ nsec = 0 then s.timecb tcb ⟨0, 0⟩
  else
    let clock := s.clock.getTsnow true m
    let ts := fixupTimespec ⟨clock.tsnow.tvSec + sec, clock.tsnow.tvNsec + nsec⟩
    { s with clock := clock }.timecb tcb ts

/-- The loop of `timecb_remove`, which looks for `tcb` among the timers of its time. -/
def scan (s : Core) (tcb : ℕ) : ℕ → ℕ → Option Unit
  | 0, _ => none
  | fuel + 1, tp =>
    if tp = tcb then some ()
    else if tp ∉ s.live ∨ (s.timer tp).ts ≠ (s.timer tcb).ts then none
    else do
      let tp ← s.next tp
      s.scan tcb fuel tp

/-- `timecb_remove`. -/
def timecbRemove (s : Core) (tcb : ℕ) (junk : Timer) (link : ItreeEntry) : Option Core :=
  if tcb = 0 then some s
  else if tcb ∉ s.live then none
  else do
    let tp ← s.timecbs.itreeSearch (fun tp => tscmp (s.timer tcb).ts (s.timer tp).ts) s.fuel
    s.scan tcb s.fuel tp
    let t ← s.timecbs.itreeDelete s.fuel tcb
    some ({ s with
      altered := true
      timecbs := t
      removed := s.removed ++ [s.timer tcb] }.free tcb junk link)

/-- Up to the first test of the loop. -/
def start (s : Core) (m : Moment) : Option Core := do
  let tp ← s.first
  if tp = 0 then some { s with pc := .wait, began := some m.now }
  else
    let clock := s.clock.setTimestamp.getTsnow false m
    some { s with clock := clock, pc := .test tp clock.tsnow, began := some m.now }

/-- The condition of the loop, and the body as far as the callback. -/
def test (s : Core) (tp : ℕ) (myTs : Timespec) : Option Core :=
  if tp = 0 then some { s with pc := .wait }
  else if tp ∉ s.live then none
  else if tscmp (s.timer tp).ts myTs ≤ 0 then do
    let ntp ← s.next tp
    let t ← s.timecbs.itreeDelete s.fuel tp
    some { s with
      timecbs := t
      altered := false
      clock := s.clock.leaveSelLoop
      ran := s.ran ++ [s.timer tp]
      pc := .callback tp ntp myTs }
  else some { s with pc := .wait }

/-- The step of the loop. -/
def advance (s : Core) (ntp : ℕ) (myTs : Timespec) : Option Core := do
  let tp ← if s.altered then s.first else some ntp
  some { s with pc := .test tp myTs }

/-- The select wait before `ts` at the time `myTs`, in seconds and microseconds. -/
def waitFor (ts myTs : Timespec) : ℤ × ℤ :=
  if tscmp ts myTs < 0 then (0, 0)
  else if ts.tvNsec ≥ myTs.tvNsec then
    (ts.tvSec - myTs.tvSec, ((ts.tvNsec : ℤ) - myTs.tvNsec).tdiv 1000)
  else
    (ts.tvSec - myTs.tvSec - 1, ((1000000000 + ts.tvNsec : ℤ) - myTs.tvNsec).tdiv 1000)

/-- The end of `timecb_check`. -/
def wait (s : Core) (m : Moment) : Option Core :=
  let s := { s with pc := .over, ended := some m.now }
  if s.busywait ∨ s.sigdocheck then some { s with selwait := (0, 0) }
  else do
    let tp ← s.first
    if tp = 0 then some { s with selwait := (86400, 0) }
    else if tp ∉ s.live then none
    else if (s.timer tp).ts.tvSec = 0 then some { s with selwait := (0, 0) }
    else
      let clock := s.clock.setTimestamp.getTsnow false m
      some { s with clock := clock, selwait := waitFor (s.timer tp).ts clock.tsnow }

end Core

inductive Event where
  | start (m : Moment)
  | test
  | timecb (tcb : ℕ) (ts : Timespec)
  | delaycb (tcb : ℕ) (sec : ℤ) (nsec : ℕ) (m : Moment)
  | remove (tcb : ℕ) (junk : Timer) (link : ItreeEntry)
  | setClock (c : Clock)
  | signal
  | ret (junk : Timer) (link : ItreeEntry)
  | advance
  | wait (m : Moment)

def step (s : Core) : Event → Option Core
  | .start m => s.start m
  | .test =>
    match s.pc with
    | .test tp myTs => s.test tp myTs
    | _ => none
  | .timecb tcb ts => s.timecb tcb ts
  | .delaycb tcb sec nsec m => s.delaycb tcb sec nsec m
  | .remove tcb junk link => s.timecbRemove tcb junk link
  | .setClock c => some { s with clock := c }
  | .signal => some { s with sigdocheck := true }
  | .ret junk link =>
    match s.pc with
    | .callback tp ntp myTs =>
      if tp ∈ s.live then some { s.free tp junk link with pc := .deleted ntp myTs } else none
    | _ => none
  | .advance =>
    match s.pc with
    | .deleted ntp myTs => s.advance ntp myTs
    | _ => none
  | .wait m => s.wait m

def Pc.isTest : Pc → Bool
  | .test .. => true
  | _ => false

def Pc.isCallback : Pc → Bool
  | .callback .. => true
  | _ => false

def Pc.isDeleted : Pc → Bool
  | .deleted .. => true
  | _ => false

/-- Whether code of the program's own runs inside the loop. -/
def Core.calling (s : Core) : Bool := s.pc.isCallback || s.pc.isDeleted

/-- The events that can come: callbacks and destructors add timers at free addresses and
remove other pending ones, the clock answers normalized times, and a signal may come at any
time. -/
def Allowed (s : Core) : Event → Prop
  | .start m => s.pc = .entry ∧ m.now.tvNsec < bil
  | .test => s.pc.isTest
  | .timecb tcb _ | .delaycb tcb _ _ _ => s.calling ∧ tcb ≠ 0 ∧ tcb ∉ s.live
  | .remove tcb _ _ => s.calling ∧ (tcb = 0 ∨ (tcb ∈ s.live ∧ tcb ∉ s.running))
  | .setClock _ => s.calling
  | .signal => True
  | .ret _ _ => s.pc.isCallback
  | .advance => s.pc.isDeleted
  | .wait m => s.pc = .wait ∧ m.now.tvNsec < bil

instance (s : Core) : (e : Event) → Decidable (Allowed s e)
  | .start m => inferInstanceAs (Decidable (s.pc = .entry ∧ m.now.tvNsec < bil))
  | .test => inferInstanceAs (Decidable (s.pc.isTest = true))
  | .timecb tcb _ | .delaycb tcb _ _ _ =>
    inferInstanceAs (Decidable (s.calling = true ∧ tcb ≠ 0 ∧ tcb ∉ s.live))
  | .remove tcb _ _ =>
    inferInstanceAs
      (Decidable (s.calling = true ∧ (tcb = 0 ∨ (tcb ∈ s.live ∧ tcb ∉ s.running))))
  | .setClock _ => inferInstanceAs (Decidable (s.calling = true))
  | .signal => .isTrue trivial
  | .ret _ _ => inferInstanceAs (Decidable (s.pc.isCallback = true))
  | .advance => inferInstanceAs (Decidable (s.pc.isDeleted = true))
  | .wait m => inferInstanceAs (Decidable (s.pc = .wait ∧ m.now.tvNsec < bil))

/-- Where the event has `timecb_check` read the clock, it gets the current time. -/
def Current (s : Core) : Event → Prop
  | .start m =>
    ∀ tp ∈ s.first, tp ≠ 0 → (s.clock.setTimestamp.getTsnow false m).tsnow = m.now
  | .wait m =>
    ∀ tp ∈ s.first, tp ≠ 0 → ¬ (s.busywait ∨ s.sigdocheck) → (s.timer tp).ts.tvSec ≠ 0 →
      (s.clock.setTimestamp.getTsnow false m).tsnow = m.now
  | _ => True

instance (s : Core) : (e : Event) → Decidable (Current s e)
  | .start m =>
    inferInstanceAs (Decidable
      (∀ tp ∈ s.first, tp ≠ 0 → (s.clock.setTimestamp.getTsnow false m).tsnow = m.now))
  | .wait m =>
    inferInstanceAs (Decidable
      (∀ tp ∈ s.first, tp ≠ 0 → ¬ (s.busywait ∨ s.sigdocheck) →
        (s.timer tp).ts.tvSec ≠ 0 → (s.clock.setTimestamp.getTsnow false m).tsnow = m.now))
  | .test | .timecb .. | .delaycb .. | .remove .. | .setClock _ | .signal | .ret .. | .advance =>
    .isTrue trivial

def Core.init : Core where
  timecbs := { rbRoot := 0, mem := fun _ => ⟨0, 0, 0, .invalid⟩ }
  timer := fun _ => ⟨0, ⟨0, 0⟩⟩
  live := []
  altered := false
  clock := { type := .gettime, tsnow := ⟨0, 0⟩, needRefresh := true, leftSelLoop := true }
  busywait := false
  sigdocheck := false
  selwait := (0, 0)
  nextId := 0
  pc := .entry
  began := none
  ended := none
  ran := []
  removed := []

end Sfslite.Async.Timecb
