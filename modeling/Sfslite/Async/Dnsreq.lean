import Mathlib.Data.List.DropRight
import Sfslite.Async.Dnsparse
import Sfslite.Lib.Run

/-!
One request of a resolver: `dnsreq` of `dns.C`. Between two steps other code runs: the event loop,
the callback of the request or of another one, or the resolver as it looks for a way to send. All
that it can do with the request is an event.
-/

namespace Sfslite.Async

open Dnsparse (Name strcasecmp)

def servfail : ℕ := 2
def nxdomain : ℕ := 3
def arerrTimeout : ℕ := 0x102
def arerrCantsend : ℕ := 0x105
def arerrReqinval : ℕ := 0x106

/-- `maxsend` of `reqtoq` -/
def maxsend : ℕ := 5

/-- What goes on with the request when the code that runs has returned: the constructor; `timeout`
behind `keeptrying`; `readreply` behind the callback; and a loop over the requests that has this
one as its next. -/
inductive ReqFrame where
  | ctor
  | timeout
  | readreply
  | loop
deriving DecidableEq, Repr

/-- A request, with its places in `reqtab` and `reqtoq`, the calls of `readreply` that `delaycb` is
to make, the errors that its callback was called with, and the numbers of the suffixes that were
tried. -/
structure Dnsreq where
  usetcp : Bool
  constructed : Bool
  error : ℕ
  type : BitVec 16
  srchno : ℤ
  basename : Name
  name : Name
  id : BitVec 16
  intable : Bool
  qno : ℕ
  intab : Bool
  linked : Bool
  delays : ℕ
  calls : List ℕ
  tried : List ℕ
  stack : List ReqFrame
  cancelled : Bool
  freed : Bool
deriving DecidableEq

namespace Dnsreq

/-- The request is used and was deleted; or it is taken from a list that it is not in; or the event
cannot happen. -/
inductive Stop where
  | freed
  | unlinked
  | disabled
deriving DecidableEq, Repr

/-- How `sendreq` ends: without a socket; with a name that no query can be made for; or with a query
that is given to a socket, and the name that is in it. -/
inductive Send where
  | nosock
  | inval
  | sent (name : Name)
deriving DecidableEq, Repr

/-- What `start` asks for: an id, the suffixes of the configuration, and the way it is sent. -/
structure Ask where
  id : BitVec 16
  dnsrch : List Name
  send : Send
deriving DecidableEq

/-- `resolv_conf::srchlist (n)` -/
def srchlist (dnsrch : List Name) (n : ℤ) : Option Name :=
  if n ≤ 0 then some [] else dnsrch[(n - 1).toNat]?

def reqtabRemove (s : Dnsreq) : Except Stop Dnsreq :=
  if s.intab then .ok { s with intab := false } else .error .unlinked

def reqtabInsert (s : Dnsreq) : Except Stop Dnsreq :=
  if s.intab then .error .unlinked else .ok { s with intab := true }

/-- `if (!usetcp) resp->reqtoq.remove (this)` -/
def reqtoqRemove (s : Dnsreq) : Except Stop Dnsreq :=
  if ¬ s.usetcp ∧ s.qno < maxsend then
    if s.linked then .ok { s with linked := false } else .error .unlinked
  else .ok s

def remove (s : Dnsreq) : Except Stop Dnsreq :=
  if s.intable then do
    let s ← { s with intable := false }.reqtabRemove
    s.reqtoqRemove
  else .ok s

def delete (s : Dnsreq) : Except Stop Dnsreq :=
  if s.freed then .error .freed
  else do
    let s ← s.remove
    .ok { s with freed := true }

/-- `readreply`, up to the return of the callback. `reply` has the error that is found in one. -/
def readreply (s : Dnsreq) (reply : Option ℕ) : Except Stop Dnsreq :=
  if s.error ≠ 0 then
    .ok { s with calls := s.calls ++ [s.error], stack := .readreply :: s.stack }
  else
    match reply with
    -- assert (reply)
    | none => .error .disabled
    | some bad =>
      .ok { s with error := bad, calls := s.calls ++ [bad], stack := .readreply :: s.stack }

def fail (s : Dnsreq) (err : ℕ) : Except Stop Dnsreq :=
  let s := { s with error := if s.error = 0 then err else s.error }
  if s.constructed then s.readreply none
  else do
    let s ← s.remove
    .ok { s with delays := s.delays + 1 }

def sendreq (s : Dnsreq) : Send → Except Stop Dnsreq
  | .nosock => .ok s
  | .inval => s.fail arerrReqinval
  | .sent name => .ok { s with name := name }

def xmit (s : Dnsreq) (x : Send) : Except Stop Dnsreq := { s with error := 0 }.sendreq x

/-- `tmoq::insert` -/
def insert (s : Dnsreq) (qn : ℕ) (x : Send) : Except Stop Dnsreq :=
  if s.linked then .error .unlinked else { s with qno := qn, linked := true }.xmit x

/-- `srchno++` and the name with the suffix. -/
def search (s : Dnsreq) (dnsrch : List Name) : Dnsreq :=
  if 0 ≤ s.srchno then
    let suffix := (srchlist dnsrch s.srchno).getD []
    { s with
      srchno := s.srchno + 1
      name := if suffix = [] then s.basename else s.basename ++ 0x2e :: suffix
      tried := s.tried ++ [s.srchno.toNat] }
  else s

/-- `start`, behind what it does for another suffix. -/
def begin (s : Dnsreq) (a : Ask) : Except Stop Dnsreq := do
  let s := s.search a.dnsrch
  let s ← { s with id := a.id, intable := true }.reqtabInsert
  if s.usetcp then s.xmit a.send else s.insert 0 a.send

def start (s : Dnsreq) (again : Bool) (a : Ask) : Except Stop Dnsreq :=
  if again then
    if s.srchno < 0 ∨ srchlist a.dnsrch s.srchno = none then s.fail nxdomain
    else do
      let s ← s.reqtabRemove
      let s ← s.reqtoqRemove
      s.begin a
  else s.begin a

/-- `timeout`: `late` is whether the server has not answered for 90 seconds. -/
def timeout (s : Dnsreq) (late : Bool) (x : Send) : Except Stop Dnsreq :=
  if ¬ late ∨ s.name = [] then s.fail arerrTimeout
  else { s with stack := .timeout :: s.stack }.insert (maxsend - 1) x

/-- `tmoq::runq`, at the request. -/
def expire (s : Dnsreq) (late : Bool) (x : Send) : Except Stop Dnsreq := do
  let s ← s.reqtoqRemove
  if s.qno < maxsend - 1 then s.insert (s.qno + 1) x
  else timeout { s with qno := maxsend } late x

/-- A packet with an answer: from which socket, the question, its error, whether it was truncated,
and the error that `readreply` finds in it. -/
structure Answer where
  tcp : Bool
  id : BitVec 16
  type : BitVec 16
  name : Name
  error : ℕ
  tc : Bool
  bad : ℕ
deriving DecidableEq

/-- The request that the answer is for. -/
def Answers (s : Dnsreq) (p : Answer) : Prop :=
  s.intab = true ∧ s.id = p.id ∧ s.usetcp = p.tcp ∧ s.type = p.type ∧ strcasecmp s.name p.name = 0

instance (s : Dnsreq) (p : Answer) : Decidable (s.Answers p) :=
  inferInstanceAs (Decidable (_ ∧ _ ∧ _ ∧ _ ∧ _))

def pktready (s : Dnsreq) (p : Answer) (a : Ask) : Except Stop Dnsreq :=
  let s := { s with error := if p.error ≠ 0 ∧ s.error = 0 then p.error else s.error }
  if s.error = nxdomain then { s with error := 0 }.start true a
  else if s.error = 0 ∧ ¬ s.usetcp ∧ p.tc then do
    let s ← s.reqtoqRemove
    xmit { s with usetcp := true } a.send
  else s.readreply (if s.error ≠ 0 then none else some p.bad)

/-- For the event loop: an answer, the timer of the queue, and `delaycb`. For any other code: a loop
over the requests fails the request, starts it in the queue again or sends it again, or comes to the
one before it; it is cancelled; or the code returns. -/
inductive Event where
  | answer (p : Answer) (a : Ask)
  | timer (late : Bool) (x : Send)
  | delayed
  | failreq
  | restart (x : Send)
  | resend (x : Send)
  | loop
  | cancel
  | ret
deriving DecidableEq

def step (s : Dnsreq) : Event → Except Stop Dnsreq
  | .answer p a => if s.stack = [] ∧ s.Answers p then s.pktready p a else .error .disabled
  | .timer late x =>
    if s.stack = [] ∧ s.linked = true then s.expire late x else .error .disabled
  | .delayed =>
    if s.stack = [] ∧ 0 < s.delays then
      if s.freed then .error .freed else { s with delays := s.delays - 1 }.readreply none
    else .error .disabled
  | .failreq => if s.intab then s.fail arerrCantsend else .error .disabled
  | .restart x =>
    if s.intab = true ∧ s.usetcp = false then do
      let s ← s.reqtoqRemove
      s.insert 0 x
    else .error .disabled
  | .resend x => if s.intab = true ∧ s.usetcp = true then s.sendreq x else .error .disabled
  | .loop => if s.intab then .ok { s with stack := .loop :: s.stack } else .error .disabled
  | .cancel =>
    if .ctor ∉ s.stack ∧ s.cancelled = false ∧ (s.calls = [] ∨ .readreply ∈ s.stack) then
      { s with cancelled := true }.delete
    else .error .disabled
  | .ret =>
    match s.stack with
    | [] => .error .disabled
    | .ctor :: stack =>
      if s.freed then .error .freed else .ok { s with constructed := true, stack := stack }
    | .timeout :: stack =>
      -- resp->udpcheck ()
      if s.freed then .error .freed else .ok { s with stack := stack }
    | .readreply :: stack => { s with stack := stack }.delete
    | .loop :: stack =>
      -- reqtab.next (r)
      if s.freed then .error .freed
      else if s.intab then .ok { s with stack := stack }
      else .error .unlinked

/-- `dnsreq (rp, n, t, search)`, up to the return of `start`. -/
def new (n : Name) (type : BitVec 16) (search : Bool) : Dnsreq where
  usetcp := false
  constructed := false
  error := 0
  type := type
  srchno := if search ∧ n.getLast? ≠ some 0x2e then 0 else -1
  basename := if search ∧ n.getLast? ≠ some 0x2e then n else []
  name := if search ∧ n.getLast? ≠ some 0x2e then [] else n.rdropWhile (· = 0x2e)
  id := 0
  intable := false
  qno := 0xffffffff
  intab := false
  linked := false
  delays := 0
  calls := []
  tried := []
  stack := [.ctor]
  cancelled := false
  freed := false

def make (n : Name) (type : BitVec 16) (search : Bool) (a : Ask) : Except Stop Dnsreq :=
  (new n type search).start false a

end Dnsreq

end Sfslite.Async
