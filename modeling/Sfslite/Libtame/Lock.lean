import Mathlib.Algebra.Group.Nat.Even
import Sfslite.Lib.Run

/-!
`tame::lock_t` of `lock.T`, for the whole of its clients. A waiter is the number of the `acquire`
that made it, which is also the number of the event to trigger. A trigger is the last thing that
`acquire` and `release` do, so what a callback does comes after the call that triggered it. The
triggers of `dtrigger` wait in the event loop.
-/

namespace Sfslite.Libtame.Lock

open Sfslite.Lib

/-- `lock_t::mode_t`. -/
inductive Mode where
  | OPEN
  | SHARED
  | EXCLUSIVE
deriving DecidableEq, Repr

/-- `lock_t::waiter_t`. -/
structure Waiter where
  id : ℕ
  mode : Mode
deriving DecidableEq, Repr

/-- The lock, the events in the event loop, and what is remembered: the holders, to whom the
lock was given and who did not give it back, the events that `acquire` or `release` took care
of, the ones that were triggered, and the waiters that were canceled. -/
structure LockT where
  mode : Mode
  sharers : ℕ
  waiters : List Waiter
  loop : List ℕ
  nextId : ℕ
  holders : List Waiter
  granted : List ℕ
  fired : List ℕ
  canceled : List ℕ
deriving DecidableEq, Repr

namespace LockT

/-- The constructor. Whoever makes a lock that is not open holds it. -/
def init (m : Mode) : LockT where
  mode := m
  sharers := if m = .SHARED then 1 else 0
  waiters := []
  loop := []
  nextId := 1
  holders := if m = .OPEN then [] else [⟨0, m⟩]
  granted := if m = .OPEN then [] else [0]
  fired := if m = .OPEN then [] else [0]
  canceled := []

/-- `_sharers ++` on an `int`. -/
def incSharers (l : LockT) : Option LockT :=
  if l.sharers + 1 < 2 ^ 31 then some { l with sharers := l.sharers + 1 } else none

/-- `_waiters.remove (w)`; there is no list to be removed from once the waiter was deleted. -/
def removeWaiter (l : LockT) (id : ℕ) : Option LockT :=
  if id ∈ l.waiters.map Waiter.id then
    some { l with waiters := l.waiters.eraseP (·.id = id) }
  else none

/-- The lock goes to `w`. -/
def grant (l : LockT) (w : Waiter) : LockT :=
  { l with holders := l.holders ++ [w], granted := l.granted ++ [w.id] }

def trigger (l : LockT) (id : ℕ) : LockT := { l with fired := l.fired ++ [id] }

def dtrigger (l : LockT) (id : ℕ) : LockT := { l with loop := l.loop ++ [id] }

/-- `lock_t::acquire`. -/
def acquire (l : LockT) (m : Mode) : Option LockT := do
  let w : Waiter := ⟨l.nextId, m⟩
  let l := { l with nextId := l.nextId + 1 }
  match m with
  | .SHARED =>
    match l.mode with
    | .OPEN =>
      if l.sharers = 0 then
        some (({ l with mode := .SHARED, sharers := 1 }.grant w).trigger w.id)
      else none
    | .SHARED =>
      if 0 < l.sharers then do
        let l ← l.incSharers
        some ((l.grant w).trigger w.id)
      else none
    | .EXCLUSIVE => some { l with waiters := l.waiters ++ [w] }
  | .EXCLUSIVE =>
    match l.mode with
    | .OPEN =>
      if l.sharers = 0 then some (({ l with mode := .EXCLUSIVE }.grant w).trigger w.id)
      else none
    | _ => some { l with waiters := l.waiters ++ [w] }
  | .OPEN => none

/-- `lock_t::call`. -/
def call (l : LockT) (w : Waiter) (delay : Bool) : Option LockT := do
  let l ← l.removeWaiter w.id
  let l := l.grant w
  if delay then some (l.dtrigger w.id) else some (l.trigger w.id)

/-- `lock_t::cancel`. -/
def cancel (l : LockT) (id : ℕ) : Option LockT := do
  let l ← l.removeWaiter id
  some { l with canceled := l.canceled ++ [id] }

/-- The loop of `release` over the waiters from `p` on. -/
def callSharers : List Waiter → LockT → Option LockT
  | [], l => some l
  | p :: n, l =>
    if p.mode = .SHARED then do
      let l ← l.incSharers
      let l ← l.call p true
      callSharers n l
    else callSharers n l

/-- What `release` does with an open lock. -/
def handOver (l : LockT) (oldMode : Mode) : Option LockT :=
  match l.waiters with
  | [] => some l
  | w :: _ =>
    match w.mode with
    | .SHARED =>
      if oldMode ≠ .SHARED then callSharers l.waiters { l with mode := .SHARED } else none
    | .EXCLUSIVE => { l with mode := .EXCLUSIVE }.call w false
    | .OPEN => none

/-- `lock_t::release`, by the holder `id`. -/
def release (l : LockT) (id : ℕ) : Option LockT :=
  let l := { l with holders := l.holders.eraseP (·.id = id) }
  match l.mode with
  | .OPEN => none
  | .SHARED =>
    if 0 < l.sharers then
      let l := { l with sharers := l.sharers - 1 }
      if l.sharers = 0 then { l with mode := .OPEN }.handOver .SHARED else some l
    else none
  | .EXCLUSIVE =>
    if l.sharers = 0 then { l with mode := .OPEN }.handOver .EXCLUSIVE else none

/-- The event loop triggers an event that `dtrigger` left there. -/
def deliver (l : LockT) (id : ℕ) : Option LockT :=
  if id ∈ l.loop then some ({ l with loop := l.loop.erase id }.trigger id) else none

end LockT

inductive Event where
  | acquire (m : Mode)
  | release (id : ℕ)
  | cancel (id : ℕ)
  | deliver (id : ℕ)
deriving DecidableEq, Repr

def step (l : LockT) : Event → Option LockT
  | .acquire m => l.acquire m
  | .release id => l.release id
  | .cancel id => l.cancel id
  | .deliver id => l.deliver id

/-- The lock is acquired shared or exclusively, released by a holder who was told, and a waiter
is canceled while its event was not triggered. -/
def Allowed (l : LockT) : Event → Prop
  | .acquire m => m ≠ .OPEN
  | .release id => id ∈ l.holders.map Waiter.id ∧ id ∉ l.loop
  | .cancel id => id ∈ l.waiters.map Waiter.id ∨ id ∈ l.loop
  | .deliver id => id ∈ l.loop

instance (l : LockT) : (e : Event) → Decidable (Allowed l e)
  | .acquire m => inferInstanceAs (Decidable (m ≠ .OPEN))
  | .release id => inferInstanceAs (Decidable (id ∈ l.holders.map Waiter.id ∧ id ∉ l.loop))
  | .cancel id => inferInstanceAs (Decidable (id ∈ l.waiters.map Waiter.id ∨ id ∈ l.loop))
  | .deliver id => inferInstanceAs (Decidable (id ∈ l.loop))

/-- A waiter that is canceled has not been given the lock yet, and the sharers can be counted. -/
def Timely (l : LockT) : Event → Prop
  | .acquire m => m = .SHARED → l.mode = .SHARED → l.sharers + 1 < 2 ^ 31
  | .release _ =>
    l.mode = .EXCLUSIVE → (l.waiters.head?.map Waiter.mode) = some .SHARED →
      (l.waiters.filter (·.mode = .SHARED)).length < 2 ^ 31
  | .cancel id => id ∈ l.waiters.map Waiter.id
  | .deliver _ => True

instance (l : LockT) : (e : Event) → Decidable (Timely l e)
  | .acquire m => inferInstanceAs
      (Decidable (m = .SHARED → l.mode = .SHARED → l.sharers + 1 < 2 ^ 31))
  | .release _ => inferInstanceAs (Decidable (l.mode = .EXCLUSIVE →
      (l.waiters.head?.map Waiter.mode) = some .SHARED →
        (l.waiters.filter (·.mode = .SHARED)).length < 2 ^ 31))
  | .cancel id => inferInstanceAs (Decidable (id ∈ l.waiters.map Waiter.id))
  | .deliver _ => inferInstanceAs (Decidable True)

end Sfslite.Libtame.Lock
