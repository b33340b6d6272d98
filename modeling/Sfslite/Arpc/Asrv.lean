import Sfslite.Arpc.Svccb

/-!
The servers of `asrv.C` on one transport: `asrv`, `asrv_unreliable`, `asrv_resumable` and
`asrv_delayed_eof`. Calls are known by their addresses. A failed assertion, a `panic` and
the use of a null or freed pointer answer `none`, and so does an event that cannot happen.
-/

namespace Sfslite.Arpc

/-- What becomes of a packet that is given to a transport. -/
inductive Io where
  | ok
  | refused
  | broke
  deriving DecidableEq, Repr

/-- `xhinfo` and what it reads of its transport. A transport that is reliable goes through
a pipe, whose ends may be closed, and one that is not sends datagrams. `rcb` says whether
the receive callback is set, and `stab` has the programs and versions that are served. -/
structure Xhinfo where
  nsvc : BitVec 32
  reliable : Bool
  connected : Bool
  socksize : ℕ
  socksize_ge : connected = false → 2 ≤ socksize
  closed : Bool
  rcb : Bool
  clist : Bool
  stab : List (BitVec 32 × BitVec 32)
  rawBytesSent : ℕ
  sndbufsz : ℤ
  maxAckedOffset : ℕ
  deriving DecidableEq

namespace Xhinfo

/-- A transport for datagrams has no end. -/
def ateof (xi : Xhinfo) : Bool := xi.reliable && xi.closed

def svcadd (xi : Xhinfo) : Xhinfo := { xi with nsvc := xi.nsvc + 1 }

/-- `assert (nsvc)`. -/
def svcdel (xi : Xhinfo) : Option Xhinfo :=
  if xi.nsvc = 0 then none else some { xi with nsvc := xi.nsvc - 1 }

def sendv (xi : Xhinfo) (len : ℕ) (dest : Option (List Byte)) (io : Io) : Option (Bool × Xhinfo) :=
  if ¬ xi.reliable then
    -- assert (connected == !sap)
    if xi.connected = dest.isNone then some (true, xi) else none
  -- panic ("axprt_pipe::sendv: called after an EOF\n")
  else if xi.ateof then none
  else
    match io with
    | .refused => some (false, xi)
    | .ok => some (true, { xi with rawBytesSent := xi.rawBytesSent + (len + 4) })
    | .broke => some (false, { xi with rawBytesSent := xi.rawBytesSent + (len + 4), closed := true })

/-- What `asrv_resumable::sendreply` takes as received. -/
def knownReceived (xi : Xhinfo) : ℕ :=
  max (if 0 < xi.sndbufsz then xi.rawBytesSent - xi.sndbufsz.toNat else 0) xi.maxAckedOffset

end Xhinfo

inductive AcceptStat where
  | success
  | progUnavail
  | progMismatch
  | procUnavail
  | garbageArgs
  | systemErr
  deriving DecidableEq, Repr

/-- What a call can be rejected with. -/
inductive RejectStat where
  | auth (stat : BitVec 32)
  | accept (stat : AcceptStat)
  deriving DecidableEq, Repr

/-- The words of a reply that was accepted, and of one that was denied. -/
def acceptedReply (xid : BitVec 32) (rest : List (BitVec 32)) : List Byte :=
  ([xid, 1, 0, 0, 0] ++ rest).flatMap htonl

def deniedReply (xid : BitVec 32) (rest : List (BitVec 32)) : List Byte :=
  ([xid, 1, 1] ++ rest).flatMap htonl

def rpcMsgVersion : BitVec 32 := 2

def asrvRpcMismatch (xid : BitVec 32) : List Byte :=
  deniedReply xid [0, rpcMsgVersion, rpcMsgVersion]

/-- `asrv_auth_reject`, which asserts that `stat` is not `AUTH_OK`. -/
def asrvAuthReject (xid stat : BitVec 32) : Option (List Byte) :=
  if stat = 0 then none else some (deniedReply xid [1, stat])

/-- The least and the greatest version of a program that is served, where there is one. -/
def versions (stab : List (BitVec 32 × BitVec 32)) (prog : BitVec 32) :
    Option (BitVec 32 × BitVec 32) :=
  stab.foldl (fun r pv =>
    if pv.1 = prog then
      let (low, high) := r.getD (0xffffffff, 0)
      some (if pv.2 < low then pv.2 else low, if high < pv.2 then pv.2 else high)
    else r) none

/-- `asrv_accepterr`, which panics where the program is served after all. -/
def asrvAccepterr (stab : List (BitVec 32 × BitVec 32)) (stat : AcceptStat) (m : CallMsg) :
    Option (List Byte) :=
  match stat with
  | .progUnavail | .progMismatch =>
    if (m.cb_prog, m.cb_vers) ∈ stab then none
    else
      match versions stab m.cb_prog with
      | none => some (acceptedReply m.rm_xid [1])
      | some (low, high) => some (acceptedReply m.rm_xid [2, low, high])
  | .procUnavail => some (acceptedReply m.rm_xid [3])
  | .garbageArgs => some (acceptedReply m.rm_xid [4])
  | .systemErr => some (acceptedReply m.rm_xid [5])
  | .success => none

/-- A program: `xdrArg` says whether bytes are the arguments of a procedure. -/
structure RpcProgram where
  progno : BitVec 32
  versno : BitVec 32
  nproc : BitVec 32
  xdrArg : BitVec 32 → List Byte → Bool

inductive AsrvKind where
  | asrv
  | unreliable
  | resumable
  | delayedEof
  deriving DecidableEq, Repr

/-- What comes out of a server: packets for the transport, with the call whose reply it is,
and what the callbacks are called with. The end of the file and the end of a call are noted
as well. -/
inductive Out where
  | send (sbp : Option ℕ) (x : List Byte) (addr : Option (List Byte))
  | serve (sbp : ℕ)
  | null
  | eofcb
  | eof
  | answered (sbp : ℕ)
  deriving DecidableEq, Repr

/-- What is left to do of a reply when the transport has had the packet. -/
inductive Rest where
  | asrv (sbp : ℕ)
  | replay (sbp : ℕ) (nocache : Bool)
  | null (sbp : ℕ)
  deriving DecidableEq, Repr

def Rest.sbp : Rest → ℕ
  | .asrv sbp | .replay sbp _ | .null sbp => sbp

/-- A server, with the calls in memory. `given` has the calls that the callback got and did
not answer so far, and `pend` the replies that wait for callbacks to return which run
because the transport broke. -/
structure Asrv where
  kind : AsrvKind
  rpcprog : RpcProgram
  xi : Xhinfo
  svccbs : ℕ → Option Svccb
  brk : ℕ
  given : List ℕ
  pend : List Rest
  rsize : BitVec 32
  rq : List ℕ
  rtab : List ℕ
  count : ℤ
  eof : Bool
  eofcb : Bool
  log : List Out

/-- `maxrsize` as every server has it. -/
def maxrsize : BitVec 32 := 16

def remove (l : List ℕ) (x : ℕ) : Option (List ℕ) :=
  if x ∈ l then some (l.erase x) else none

namespace Asrv

def start (kind : AsrvKind) (rpcprog : RpcProgram) (xi : Xhinfo) (eofcb : Bool) : Asrv :=
  { kind, rpcprog, eofcb
    xi := { xi with stab := (rpcprog.progno, rpcprog.versno) :: xi.stab }
    svccbs := fun _ => none, brk := 0, given := [], pend := [], rsize := 0, rq := [],
    rtab := [], count := 0, eof := false, log := [] }

/-- `asrv::alloc`. -/
def alloc (rpcprog : RpcProgram) (xi : Xhinfo) : Asrv :=
  start (if xi.reliable then .asrv else .unreliable) rpcprog xi false

def put (s : Asrv) (sbp : ℕ) (b : Svccb) : Asrv :=
  { s with svccbs := Function.update s.svccbs sbp (some b) }

def out (s : Asrv) (o : Out) : Asrv := { s with log := s.log ++ [o] }

/-- A call as `svccb::init` makes it. -/
def newSvccb (xi : Xhinfo) (m : CallMsg) (src : Option (List Byte)) : Svccb :=
  ⟨m, true, if xi.connected then none else src, none, 0⟩

def init (s : Asrv) (m : CallMsg) (src : Option (List Byte)) : Asrv :=
  { s.put s.brk (newSvccb s.xi m src) with brk := s.brk + 1, xi := s.xi.svcadd }

/-- `svccb::~svccb`. -/
def delete (s : Asrv) (sbp : ℕ) : Option Asrv := do
  let b ← s.svccbs sbp
  let s := { s with svccbs := Function.update s.svccbs sbp none }
  if b.srv then
    let xi ← s.xi.svcdel
    some { s with xi := xi }
  else some s

def sendv (s : Asrv) (sbp : Option ℕ) (x : List Byte) (addr : Option (List Byte)) (io : Io) :
    Option (Bool × Asrv) := do
  let (ok, xi) ← s.xi.sendv x.length addr io
  let s := { s with xi := xi }
  some (ok, if ok then s.out (.send sbp x addr) else s)

/-- The callback with a null pointer, which is `asrv_delayed_eof::dispatch` in a server that
delays it. -/
def cbNull (s : Asrv) : Asrv :=
  let s := s.out .eof
  match s.kind with
  | .delayedEof =>
    let c := s.eofcb
    let s := { s with eof := true, eofcb := false }
    if s.count = 0 then s.out .null
    else if c then s.out .eofcb
    else s
  | _ => s.out .null

/-- `asrv::seteof`. -/
def asrvSeteof (s : Asrv) : Asrv := if s.xi.connected then s.cbNull else s

/-- `xhinfo::seteof`. -/
def xhinfoSeteof (s : Asrv) : Asrv :=
  if s.xi.connected then { s with xi := { s.xi with rcb := false } }.cbNull else s

def incSvccbCount (s : Asrv) : Asrv :=
  match s.kind with
  | .delayedEof => { s with count := s.count + 1 }
  | _ => s

/-- `assert (--_count >= 0)`. -/
def decSvccbCount (s : Asrv) : Option Asrv :=
  match s.kind with
  | .delayedEof =>
    let s := { s with count := s.count - 1 }
    if s.count < 0 then none
    else if s.count = 0 ∧ s.eof then some (s.out .null)
    else some s
  | _ => some s

/-- `rtab[*sbp]`: all calls looked at have to be in memory. -/
def find (svccbs : ℕ → Option Svccb) (b : Svccb) : List ℕ → Option (Option ℕ)
  | [] => some none
  | osbp :: l => do
      let ob ← svccbs osbp
      if ob.hashValue = b.hashValue then
        if ← b.eq ob then some (some osbp) else find svccbs b l
      else find svccbs b l

/-- `asrv_replay::lookup`. -/
def lookup (s : Asrv) (sbp : ℕ) : Option (Option ℕ × Asrv) := do
  let b ← s.svccbs sbp
  match ← find s.svccbs b s.rtab with
  | none => some (none, { s with rtab := sbp :: s.rtab })
  | some osbp => some (some osbp, s)

def delsbp (s : Asrv) (sbp : ℕ) : Option Asrv := do
  let rtab ← remove s.rtab sbp
  let rq ← remove s.rq sbp
  { s with rtab := rtab, rq := rq }.delete sbp

/-- Evict calls from the front of the queue as long as their offset meets `p`. -/
def evictWhile (p : ℕ → Bool) : List ℕ → Asrv → Option Asrv
  | [], s => some s
  | sbp :: l, s => do
      let b ← s.svccbs sbp
      if p b.offset then
        let s ← s.delsbp sbp
        evictWhile p l s
      else some s

/-- The loop of `asrv_unreliable::sendreply`. -/
def evictOver : List ℕ → Asrv → Option Asrv
  | l, s =>
    if s.rsize ≤ maxrsize then some s
    else
      match l with
      | [] => none
      | sbp :: l => do
          let s ← s.delsbp sbp
          evictOver l { s with rsize := s.rsize - 1 }

/-- `isreplay`. -/
def isreplay (s : Asrv) (sbp : ℕ) (io : Io) : Option (Bool × Asrv) :=
  match s.kind with
  | .asrv | .delayedEof => some (false, s)
  | .unreliable => do
      let (osbp, s) ← s.lookup sbp
      match osbp with
      | none => some (false, s)
      | some osbp => do
          let ob ← s.svccbs osbp
          match ob.res with
          | none => some (true, s)
          | some res => do
              let (_, s) ← s.sendv (some osbp) res ob.addr io
              some (true, s)
  | .resumable => do
      let (osbp, s) ← s.lookup sbp
      match osbp with
      | none => do
          let s ← evictWhile (· = 0) s.rq s
          some (false, s)
      | some osbp => do
          let ob ← s.svccbs osbp
          match ob.res with
          | none => some (true, s)
          | some res => do
              let (_, s) ← s.sendv (some osbp) res ob.addr io
              let rq ← remove s.rq osbp
              let s := s.put osbp { ob with offset := s.xi.rawBytesSent }
              some (true, { s with rq := rq ++ [osbp] })

/-- The end of `asrv::sendreply`. -/
def finishAsrv (s : Asrv) (sbp : ℕ) : Option Asrv := do
  let s ← (s.out (.answered sbp)).decSvccbCount
  s.delete sbp

/-- `sendreply` without a reply. -/
def finishNull (s : Asrv) (sbp : ℕ) : Option Asrv :=
  match s.kind with
  | .asrv => s.finishAsrv sbp
  | .delayedEof =>
    if s.eof ∨ s.xi.ateof then (s.out (.answered sbp)).decSvccbCount
    else s.finishAsrv sbp
  | .unreliable | .resumable => do
      let rtab ← remove s.rtab sbp
      ({ s with rtab := rtab }.out (.answered sbp)).delete sbp

/-- The replay servers, when the reply is saved and sent. -/
def finishReplay (s : Asrv) (sbp : ℕ) (nocache : Bool) : Option Asrv := do
  let b ← s.svccbs sbp
  let s := s.out (.answered sbp)
  if nocache then
    let rtab ← remove s.rtab sbp
    { s with rtab := rtab }.delete sbp
  else
    match s.kind with
    | .unreliable =>
      let s := s.put sbp { b with srv := false }
      let s := { s with rsize := s.rsize + 1, rq := s.rq ++ [sbp] }
      evictOver s.rq s
    | .resumable =>
      let s := s.put sbp { b with offset := s.xi.rawBytesSent, srv := false }
      let s := { s with rq := s.rq ++ [sbp] }
      evictWhile (fun o => o ≠ 0 ∧ o < s.xi.knownReceived) s.rq s
    | _ => none

def finish (s : Asrv) : Rest → Option Asrv
  | .asrv sbp => s.finishAsrv sbp
  | .replay sbp nocache => s.finishReplay sbp nocache
  | .null sbp => s.finishNull sbp

/-- Where the transport broke and says so at once, the callbacks run before the rest. -/
def sent (s : Asrv) (r : Rest) (sync : Bool) : Option Asrv :=
  if sync ∧ s.xi.ateof ∧ s.xi.rcb then
    let s := s.xhinfoSeteof
    some { s with pend := r :: s.pend }
  else s.finish r

/-- `asrv::sendreply` with a reply, `io'` being the fate of the error where it was refused. -/
def asrvSendreply (s : Asrv) (sbp : ℕ) (x : List Byte) (io io' : Io) (sync : Bool) :
    Option Asrv := do
  let b ← s.svccbs sbp
  if s.xi.ateof then s.finishAsrv sbp
  else
    let (ok, s) ← s.sendv (some sbp) x b.addr io
    if ¬ ok ∧ ¬ s.xi.ateof then
      let e ← asrvAccepterr s.xi.stab .systemErr b.msg
      let (_, s) ← s.sendv none e b.addr io'
      s.sent (.asrv sbp) sync
    else s.sent (.asrv sbp) sync

/-- `sendreply` with a reply. -/
def sendreply (s : Asrv) (sbp : ℕ) (x : List Byte) (nocache : Bool) (io io' : Io)
    (sync : Bool) : Option Asrv :=
  match s.kind with
  | .asrv => s.asrvSendreply sbp x io io' sync
  | .delayedEof =>
    if s.eof ∨ s.xi.ateof then (s.out (.answered sbp)).decSvccbCount
    else s.asrvSendreply sbp x io io' sync
  | .unreliable | .resumable => do
      -- assert (!(x && nocache))
      if s.kind = .resumable ∧ nocache then none
      else
        let b ← s.svccbs sbp
        let s := s.put sbp { b with res := some x }
        if s.xi.ateof then s.finish (.replay sbp nocache)
        else
          let (_, s) ← s.sendv (some sbp) x b.addr io
          s.sent (.replay sbp nocache) sync

/-- `svccb::reject`. -/
def reject (s : Asrv) (sbp : ℕ) (stat : RejectStat) (io : Io) (sync : Bool) : Option Asrv := do
  let b ← s.svccbs sbp
  if s.xi.ateof then s.finishNull sbp
  else
    let e ← match stat with
      | .auth stat => asrvAuthReject b.xid stat
      | .accept stat => asrvAccepterr s.xi.stab stat b.msg
    let (_, s) ← s.sendv none e b.addr io
    s.sent (.null sbp) sync

/-- What `xhinfo::dispatch` and the head of `asrv::dispatch` make of a packet. -/
inductive Input where
  | seteof
  | ignored
  | badCallmsg
  | call (m : CallMsg) (body : List Byte)
  deriving DecidableEq

/-- The types of messages: `CALL` and `REPLY`. -/
def rpcInput (xdrCallmsg : List Byte → Option (CallMsg × List Byte)) (clist : Bool)
    (pkt : List Byte) : Input :=
  if pkt.length < 8 ∨ pkt.length % 4 ≠ 0 then .seteof
  else
    match getint (pkt.drop 4) with
    | some (0, _) =>
      match xdrCallmsg pkt with
      | none => .badCallmsg
      | some (m, body) => .call m body
    | some (1, _) => if clist then .ignored else .seteof
    | _ => .seteof

/-- `asrv::dispatch` from `sbp->init` on. -/
def recv (s : Asrv) (m : CallMsg) (body : List Byte) (src : Option (List Byte)) (io : Io) :
    Option Asrv :=
  let sbp := s.brk
  let s := s.init m src
  if s.rpcprog.nproc ≤ m.cb_proc then do
    let e ← asrvAccepterr s.xi.stab .procUnavail m
    let (_, s) ← s.sendv none e src io
    s.delete sbp
  else do
    let (replay, s) ← s.isreplay sbp io
    if replay then s.delete sbp
    else if ¬ s.rpcprog.xdrArg m.cb_proc body then
      let e ← asrvAccepterr s.xi.stab .garbageArgs m
      let (_, s) ← s.sendv none e src io
      s.incSvccbCount.finishNull sbp
    else
      let s := s.incSvccbCount
      some { s.out (.serve sbp) with given := s.given ++ [sbp] }

variable (xdrCallmsg : List Byte → Option (CallMsg × List Byte))

/-- `asrv::dispatch`. A call for a program that another server of the transport has is none
of this server's. -/
def dispatch (s : Asrv) (pkt : List Byte) (src : Option (List Byte)) (io : Io) : Option Asrv :=
  match rpcInput xdrCallmsg s.xi.clist pkt with
  | .seteof => some s.xhinfoSeteof
  | .ignored => some s
  | .badCallmsg => some s.asrvSeteof
  | .call m body =>
    if m.cb_rpcvers ≠ rpcMsgVersion then do
      let (_, s) ← s.sendv none (asrvRpcMismatch m.rm_xid) src io
      some s
    else if (m.cb_prog, m.cb_vers) = (s.rpcprog.progno, s.rpcprog.versno) then
      s.recv m body src io
    else if (m.cb_prog, m.cb_vers) ∈ s.xi.stab then some s
    else do
      let e ← asrvAccepterr s.xi.stab .progUnavail m
      let (_, s) ← s.sendv none e src io
      some s

/-- `fail` is a transport that breaks and does not say so yet, and `encodeFails` a reply
that `xdr_replymsg` does not take. -/
inductive Event where
  | packet (pkt : List Byte) (src : Option (List Byte)) (io : Io)
  | eof
  | fail
  | reply (sbp : ℕ) (res : List Byte) (nocache : Bool) (io io' : Io) (sync : Bool)
  | encodeFails (sbp : ℕ)
  | reject (sbp : ℕ) (stat : RejectStat) (io : Io) (sync : Bool)
  | ignore (sbp : ℕ)
  | unwind

/-- A call leaves the hands of the callback. -/
def take (s : Asrv) (sbp : ℕ) : Option Asrv := do
  let given ← remove s.given sbp
  some { s with given := given }

/-- The addresses that a transport comes with. -/
def SrcOk (xi : Xhinfo) (src : Option (List Byte)) : Prop :=
  src.map List.length = if xi.connected then none else some xi.socksize

instance (xi : Xhinfo) (src : Option (List Byte)) : Decidable (SrcOk xi src) :=
  inferInstanceAs (Decidable (_ = _))

def step (s : Asrv) : Event → Option Asrv
  | .packet pkt src io =>
    if s.xi.rcb ∧ SrcOk s.xi src then s.dispatch xdrCallmsg pkt src io else none
  | .eof =>
    if s.xi.rcb ∧ s.xi.connected then
      some { s with xi := { s.xi with closed := true } }.xhinfoSeteof
    else none
  | .fail =>
    if s.xi.reliable then some { s with xi := { s.xi with closed := true } } else none
  | .reply sbp res nocache io io' sync => do
      let s ← s.take sbp
      s.sendreply sbp res nocache io io' sync
  | .encodeFails sbp => do
      let s ← s.take sbp
      (s.out (.answered sbp)).delete sbp
  | .reject sbp stat io sync => do
      let s ← s.take sbp
      s.reject sbp stat io sync
  | .ignore sbp => do
      let s ← s.take sbp
      s.finishNull sbp
  | .unwind =>
    match s.pend with
    | [] => none
    | r :: pend => { s with pend := pend }.finish r

variable {xdrCallmsg} {s s' : Asrv} {sbp : ℕ}

theorem remove_eq_some {l l' : List ℕ} {x : ℕ} : remove l x = some l' ↔ x ∈ l ∧ l' = l.erase x := by
  unfold remove
  split <;> simp_all [eq_comm]

/-- The fields of a transport that no operation changes. -/
structure SameXhinfo (xi xi' : Xhinfo) : Prop where
  reliable : xi'.reliable = xi.reliable
  connected : xi'.connected = xi.connected
  socksize : xi'.socksize = xi.socksize
  stab : xi'.stab = xi.stab

theorem svcdel_eq_some {xi xi' : Xhinfo} :
    xi.svcdel = some xi' ↔ xi.nsvc ≠ 0 ∧ xi' = { xi with nsvc := xi.nsvc - 1 } := by
  unfold Xhinfo.svcdel
  split
  · rename_i h
    simp only [reduceCtorEq, ne_eq, h, not_true_eq_false, false_and]
  · rename_i h
    simp only [Option.some.injEq, ne_eq, h, not_false_eq_true, true_and]
    exact eq_comm

theorem take_eq_some :
    s.take sbp = some s' ↔ sbp ∈ s.given ∧ s' = { s with given := s.given.erase sbp } := by
  simp only [take, Option.bind_eq_bind, Option.bind_eq_some_iff, remove_eq_some,
    Option.some.injEq]
  constructor
  · rintro ⟨_, ⟨hmem, rfl⟩, rfl⟩
    exact ⟨hmem, rfl⟩
  · rintro ⟨hmem, rfl⟩
    exact ⟨_, ⟨hmem, rfl⟩, rfl⟩

theorem delete_eq_some :
    s.delete sbp = some s' ↔ ∃ b xi, s.svccbs sbp = some b ∧
      (if b.srv then s.xi.svcdel else some s.xi) = some xi ∧
      s' = { s with svccbs := Function.update s.svccbs sbp none, xi := xi } := by
  simp only [delete, Option.bind_eq_bind, Option.bind_eq_some_iff]
  constructor
  · rintro ⟨b, hb, hs⟩
    cases hsrv : b.srv
    · simp only [hsrv, Bool.false_eq_true, if_false, Option.some.injEq] at hs
      exact ⟨b, s.xi, hb, by simp [hsrv], hs.symm⟩
    · simp only [hsrv, if_true, Option.bind_eq_some_iff, Option.some.injEq] at hs
      obtain ⟨xi, hxi, rfl⟩ := hs
      exact ⟨b, xi, hb, by simp [hsrv, hxi], rfl⟩
  · rintro ⟨b, xi, hb, hxi, rfl⟩
    refine ⟨b, hb, ?_⟩
    cases hsrv : b.srv
    · simp only [hsrv, Bool.false_eq_true, if_false, Option.some.injEq] at hxi
      simp [hxi]
    · simp only [hsrv, if_true] at hxi
      simp [hxi]

theorem sameXhinfo_svcdel {xi xi' : Xhinfo} {srv : Bool}
    (h : (if srv then xi.svcdel else some xi) = some xi') : SameXhinfo xi xi' := by
  cases srv
  · simp only [Bool.false_eq_true, if_false, Option.some.injEq] at h
    subst h
    exact ⟨rfl, rfl, rfl, rfl⟩
  · simp only [if_true, svcdel_eq_some] at h
    obtain ⟨-, rfl⟩ := h
    exact ⟨rfl, rfl, rfl, rfl⟩

theorem incSvccbCount_of_ne (h : s.kind ≠ .delayedEof) : s.incSvccbCount = s := by
  unfold incSvccbCount
  split <;> simp_all

theorem cbNull_of_ne (h : s.kind ≠ .delayedEof) : s.cbNull = (s.out .eof).out .null := by
  cases hk : s.kind <;> simp_all [cbNull, out]

theorem finishNull_unreliable (h : s.kind = .unreliable) (hmem : sbp ∈ s.rtab) :
    s.finishNull sbp =
      ({ s with rtab := s.rtab.erase sbp }.out (.answered sbp)).delete sbp := by
  simp only [finishNull, h, remove, if_pos hmem, Option.bind_eq_bind, Option.bind_some]

theorem sendv_dgram {x : List Byte} {osbp : Option ℕ} {addr : Option (List Byte)} {io : Io}
    (hrel : s.xi.reliable = false) (haddr : SrcOk s.xi addr) :
    s.sendv osbp x addr io = some (true, s.out (.send osbp x addr)) := by
  have hconn : s.xi.connected = addr.isNone := by
    unfold SrcOk at haddr
    cases hc : s.xi.connected <;> cases addr <;> simp_all
  simp [sendv, Xhinfo.sendv, hrel, hconn]

end Asrv

end Sfslite.Arpc
