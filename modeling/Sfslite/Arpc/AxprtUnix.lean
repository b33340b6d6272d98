import Sfslite.Arpc.AxprtPipe
import Sfslite.Lib.Frames

/-!
Descriptors that go with packets over a socket: `axprt_unix.C` on top of `axprt_pipe.C`. The queue
of unsent bytes is given by its iovecs, with the sync points that end a run of them; how suio lays
bytes out and what each `writev` accepts are arguments. `allow_recvfd` is set, as it is at first. A
failed assertion and a `panic` answer `none`.
-/

namespace Sfslite.Arpc

open Sfslite.Lib

/-- How suio lays out bytes that are appended: whether the first of them extend the last
iovec, and the sizes of the iovecs. -/
structure Layout where
  merge : Bool
  cuts : List ℕ

def pieces : (cuts : List ℕ) → List Byte → List (List Byte)
  | _, [] => []
  | [], b => [b]
  | k :: cuts, b => b.take (k + 1) :: pieces cuts (b.drop (k + 1))

/-- Bytes that were written in one call, with the descriptor that went with them. -/
abbrev Chunk (φ : Type*) := Option φ × List Byte

/-- What the receiver sees: a packet, what `recvfd` answers when a marker arrives, and the end
of the file. -/
inductive Got (φ : Type*) where
  | pkt (m : List Byte)
  | recvfd (fd : Option φ)
  | eof

/-- A transport with its receive callback set. `broken` is set where `breakiov` has forgotten
the end of the last iovec. -/
structure AxprtUnix (φ : Type*) where
  pktsize : ℕ
  foosp : Bool
  isopen : Bool
  out : List (List Byte)
  iovno : ℕ
  broken : Bool
  syncpts : List ℕ
  fdsendq : List φ
  wcbset : Bool
  pktbuf : List Byte
  fdrecvq : List φ
  closed : List φ
  got : List (Got φ)

def uioMaxiov : ℕ := 16

namespace AxprtUnix

variable {φ : Type*}

def alloc (pktsize : ℕ) : AxprtUnix φ :=
  ⟨pktsize, false, true, [], 0, false, [], [], false, [], [], [], []⟩

def room (s : AxprtUnix φ) : ℕ := s.pktsize + 4 - s.pktbuf.length

def fail (s : AxprtUnix φ) (ingetpkt : Bool) : AxprtUnix φ :=
  { s with
    isopen := false
    wcbset := false
    got := if ingetpkt then s.got else s.got ++ [.eof]
    out := [] }

/-- Append bytes as suio lays them out. -/
def push (s : AxprtUnix φ) (lay : Layout) (b : List Byte) : AxprtUnix φ :=
  match pieces lay.cuts b with
  | [] => s
  | v :: vs =>
    if lay.merge ∧ ¬ s.broken ∧ s.out ≠ [] then
      { s with out := s.out.modify (s.out.length - 1) (· ++ v) ++ vs }
    else { s with out := s.out ++ v :: vs, broken := false }

/-- How many iovecs go with some bytes, and what is left of the rest. -/
def remIovs : (n : ℕ) → List (List Byte) → ℕ × List (List Byte)
  | _, [] => (0, [])
  | n, v :: vs =>
    if v.length ≤ n then
      let (k, rest) := remIovs (n - v.length) vs
      (k + 1, rest)
    else (0, v.drop n :: vs)

def rembytes (s : AxprtUnix φ) (n : ℕ) : AxprtUnix φ :=
  let (k, out) := remIovs n s.out
  { s with iovno := s.iovno + k, out := out }

def wrsync (s : AxprtUnix φ) : AxprtUnix φ :=
  let iovno := s.iovno + s.out.length
  if s.syncpts.getLast? = some iovno then s
  else { s with syncpts := s.syncpts ++ [iovno], broken := true }

/-- The bytes of the iovecs before the iovec number `lim` that one call may write. -/
def towrite (s : AxprtUnix φ) (lim : Option ℕ) : List Byte :=
  match lim with
  | none => (s.out.take uioMaxiov).flatten
  | some lim => (s.out.take (min (lim - s.iovno) uioMaxiov)).flatten

/-- `suio::output`: the result, the queue, what was written and the results not used. -/
def suioOutput (lim : Option ℕ) : (ws : List (Option ℕ)) → AxprtUnix φ →
    Int × AxprtUnix φ × List (Chunk φ) × List (Option ℕ)
  | [], s => (0, s, [], [])
  | w :: ws, s =>
    if s.out = [] ∨ lim.any (· ≤ s.iovno) then (0, s, [], w :: ws)
    else
      match w with
      | none => (-1, s, [], ws)
      | some 0 => (0, s, [], ws)
      | some (k + 1) =>
        let b := (s.towrite lim).take (k + 1)
        let (n, s, chunks, ws) := suioOutput lim ws (s.rembytes b.length)
        (if n < 0 then -1 else 1, s, (none, b) :: chunks, ws)

/-- The first descriptor goes with the next bytes. -/
def dowritev (s : AxprtUnix φ) (lim : Option ℕ) (ws : List (Option ℕ)) :
    Int × AxprtUnix φ × List (Chunk φ) × List (Option ℕ) :=
  match s.fdsendq with
  | [] => suioOutput lim ws s
  | fd :: fds =>
    match ws with
    | [] => (0, s, [], [])
    | none :: ws => (-1, s, [], ws)
    | some 0 :: ws => (0, s, [], ws)
    | some (k + 1) :: ws =>
      let b := (s.towrite lim).take (k + 1)
      (1, { s with fdsendq := fds }.rembytes b.length, [(some fd, b)], ws)

/-- The loop of `output`. -/
def outputLoop : (fuel : ℕ) → AxprtUnix φ → (ws : List (Option ℕ)) →
    Int × AxprtUnix φ × List (Chunk φ)
  | 0, s, _ => (0, s, [])
  | fuel + 1, s, ws =>
    let s := { s with syncpts := s.syncpts.dropWhile (· ≤ s.iovno) }
    let (n, s, chunks, ws) := s.dowritev s.syncpts.head? ws
    if n > 0 then
      let (n, s, chunks') := outputLoop fuel s ws
      (n, s, chunks ++ chunks')
    else (n, s, chunks)

def output (s : AxprtUnix φ) (ws : List (Option ℕ)) : AxprtUnix φ × List (Chunk φ) :=
  let (n, s, chunks) := outputLoop (ws.length + 1) s ws
  if n < 0 then (s.fail false, chunks)
  else ({ s with wcbset := s.out ≠ [] }, chunks)

def sendbreak (s : AxprtUnix φ) (lay : Layout) (ws : List (Option ℕ)) :
    AxprtUnix φ × List (Chunk φ) :=
  ((s.push lay [0, 0, 0, 0]).wrsync).output ws

def sendfd (s : AxprtUnix φ) (fd : φ) (lay : Layout) (ws : List (Option ℕ)) :
    AxprtUnix φ × List (Chunk φ) :=
  { s with fdsendq := s.fdsendq ++ [fd] }.sendbreak lay ws

/-- The result, the transport and what was written. `skip` is what the first `writev` accepts
where it is tried. -/
def sendv (s : AxprtUnix φ) (iov : List (List Byte)) (lay : Layout) (skip : Option ℕ)
    (ws : List (Option ℕ)) : Option (Bool × AxprtUnix φ × List (Chunk φ)) :=
  let len := BitVec.ofNat 32 iov.flatten.length
  -- panic ("axprt_pipe::sendv: called after an EOF\n")
  if ¬ s.isopen then none
  else if s.pktsize < len.toNat then some (false, if s.foosp then s.fail false else s, [])
  else
    let bytes := htonl (0x80000000 ||| len) ++ iov.flatten
    if s.out = [] ∧ iov.length < min 16 uioMaxiov then
      match skip with
      | none => some (false, s.fail false, [])
      | some n =>
        let (s, chunks) := (s.push lay (bytes.drop n)).output ws
        some (true, s, (none, bytes.take n) :: chunks)
    else
      let (s, chunks) := (s.push lay bytes).output ws
      some (true, s, chunks)

def recvfd (s : AxprtUnix φ) : Option φ × AxprtUnix φ :=
  match s.fdrecvq with
  | [] => (none, s)
  | fd :: fds => (some fd, { s with fdrecvq := fds })

/-- A marker arrives, and its receiver calls `recvfd`. -/
def recvbreak (s : AxprtUnix φ) : AxprtUnix φ :=
  let (fd, s) := s.recvfd
  { s with got := s.got ++ [.recvfd fd] }

def getpkt (s : AxprtUnix φ) (b : List Byte) : Bool × List Byte × AxprtUnix φ :=
  match getint b with
  | none => (false, b, s)
  | some (len, cp) =>
    if len = 0 then (true, cp, s.recvbreak)
    else
      match AxprtPipe.checklen s.pktsize len with
      | none => (false, b, s.fail true)
      | some len =>
        if cp.length < len then (false, b, s)
        else (true, cp.drop len, { s with got := s.got ++ [.pkt (cp.take len)] })

/-- The loop of `callgetpkt`. -/
def getpktLoop : (fuel : ℕ) → AxprtUnix φ → List Byte → Option (AxprtUnix φ × List Byte)
  | 0, _, _ => none
  | fuel + 1, s, b =>
    match s.getpkt b with
    | (true, b, s) => getpktLoop fuel s b
    | (false, b, s) => some (s, b)

def callgetpkt (s : AxprtUnix φ) : Option (AxprtUnix φ) := do
  let (s, b) ← getpktLoop (s.pktbuf.length + 1) s s.pktbuf
  if ¬ s.isopen then return { s with got := s.got ++ [.eof] }
  -- assert (pktlen < pktsize)
  else if b.length < s.pktsize then return { s with pktbuf := b }
  else none

/-- What `readfd` gave goes to the buffer and to the queue of descriptors. -/
def doread (s : AxprtUnix φ) (nfd : Option φ) (chunk : List Byte) : AxprtUnix φ :=
  let s := { s with pktbuf := s.pktbuf ++ chunk }
  match nfd with
  | none => s
  | some fd =>
    if 4 ≤ s.fdrecvq.length then { s with closed := s.closed ++ [fd] }
    else { s with fdrecvq := s.fdrecvq ++ [fd] }

/-- `chunk` is empty at the end of the file or after an error. -/
def input (s : AxprtUnix φ) (nfd : Option φ) (chunk : List Byte) : Option (AxprtUnix φ) :=
  if ¬ s.isopen then some s
  else if chunk = [] then some (s.fail false)
  else (s.doread nfd chunk).callgetpkt

end AxprtUnix

variable {φ : Type*}

def wireBytes (wire : List (Chunk φ)) : List Byte := wire.flatMap (·.2)

def wireFds (wire : List (Chunk φ)) : List φ := wire.filterMap (·.1)

/-- The first `n` bytes under way and the descriptors that went with them; a descriptor is
taken with the first byte it was written with. -/
def takeWire : (n : ℕ) → List (Chunk φ) → List φ × List Byte × List (Chunk φ)
  | 0, wire => ([], [], wire)
  | _ + 1, [] => ([], [], [])
  | n + 1, (fd, b) :: wire =>
    if b.length ≤ n + 1 then
      let (fds, bytes, wire) := takeWire (n + 1 - b.length) wire
      (fd.toList ++ fds, b ++ bytes, wire)
    else (fd.toList, b.take (n + 1), (none, b.drop (n + 1)) :: wire)

/-- What the program sends: a message, or a descriptor with its marker. -/
inductive Item (φ : Type*) where
  | msg (m : List Byte)
  | fd (f : φ)

namespace Item

def bytes : Item φ → List Byte
  | msg m => htonl (0x80000000 ||| BitVec.ofNat 32 m.length) ++ m
  | fd _ => [0, 0, 0, 0]

def size : Item φ → ℕ
  | msg m => 4 + m.length
  | fd _ => 4

def isFd : Item φ → Bool
  | msg _ => false
  | fd _ => true

def toFd : Item φ → Option φ
  | msg _ => none
  | fd f => some f

/-- What the receiver is to see of it. -/
def given : Item φ → Got φ
  | msg m => .pkt m
  | fd f => .recvfd (some f)

end Item

/-- Two transports, what is under way from the one to the other, all that was written, and
what the sender was given and accepted. -/
structure UnixWorld (φ : Type*) where
  snd : AxprtUnix φ
  rcv : AxprtUnix φ
  wire : List (Chunk φ)
  written : List (Chunk φ)
  sent : List (Item φ)

inductive UnixOp (φ : Type*) where
  | send (iov : List (List Byte)) (lay : Layout) (skip : Option ℕ) (ws : List (Option ℕ))
  | sendfd (fd : φ) (lay : Layout) (ws : List (Option ℕ))
  | output (ws : List (Option ℕ))
  | read (n : ℕ)

def UnixOp.items : UnixOp φ → List (Item φ)
  | .send iov _ _ _ => [.msg iov.flatten]
  | .sendfd fd _ _ => [.fd fd]
  | _ => []

namespace UnixWorld

def init (pktsize : ℕ) : UnixWorld φ := ⟨.alloc pktsize, .alloc pktsize, [], [], []⟩

def wrote (w : UnixWorld φ) (s : AxprtUnix φ) (chunks : List (Chunk φ)) : UnixWorld φ :=
  { w with snd := s, wire := w.wire ++ chunks, written := w.written ++ chunks }

def step (w : UnixWorld φ) : UnixOp φ → Option (UnixWorld φ)
  | .send iov lay skip ws => do
      let (ret, s, chunks) ← w.snd.sendv iov lay skip ws
      return { w with sent := if ret then w.sent ++ [Item.msg iov.flatten] else w.sent }.wrote s chunks
  | .sendfd fd lay ws =>
    let (s, chunks) := w.snd.sendfd fd lay ws
    some ({ w with sent := w.sent ++ [Item.fd fd] }.wrote s chunks)
  | .output ws =>
    let (s, chunks) := w.snd.output ws
    some (w.wrote s chunks)
  | .read n => do
      let (fds, chunk, wire) := takeWire n w.wire
      let rcv ← w.rcv.input fds.head? chunk
      return { w with rcv := rcv, wire := wire }

/-- A message passes the length check of `sendv`, the queue is written while the descriptor
is watched, a read takes bytes that are there and that there is room for, with at most one
descriptor, and no write fails. -/
def Legal (w : UnixWorld φ) : UnixOp φ → Prop
  | .send iov _ skip ws => (BitVec.ofNat 32 iov.flatten.length).toNat ≤ w.snd.pktsize ∧
      skip ≠ none ∧ none ∉ ws
  | .sendfd _ _ ws => none ∉ ws
  | .output ws => w.snd.wcbset = true ∧ none ∉ ws
  | .read n => 0 < n ∧ n ≤ (wireBytes w.wire).length ∧ n ≤ w.rcv.room ∧
      (takeWire n w.wire).1.length ≤ 1

def pending (w : UnixWorld φ) : List (Item φ) := w.sent.drop w.rcv.got.length

/-- A message is no longer than the length word can say. A read leaves fewer than `pktsize`
bytes behind what is whole, and brings a descriptor only where fewer than four that came
before it are unclaimed. -/
def Works (w : UnixWorld φ) : UnixOp φ → Prop
  | .send iov _ _ _ => iov.flatten.length < 2 ^ 31
  | .read n => leftOver (w.pending.map Item.size) (w.rcv.pktbuf.length + n) < w.rcv.pktsize ∧
      ((takeWire n w.wire).1 ≠ [] → w.rcv.fdrecvq.length < 4)
  | _ => True

end UnixWorld

end Sfslite.Arpc
