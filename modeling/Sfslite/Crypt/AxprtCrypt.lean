import Sfslite.Arpc.AxprtDelivery
import Sfslite.Crypt.Pad
import Sfslite.Lib.KeyStream
import Sfslite.Lib.Frames

/-!
The encrypted packet transport of `axprt_crypt.C`, from the call of `encrypt` on. The bytes that
each `arc4` context gives are a stream, and a transport has the number of bytes it drew from each.
SHA-1 and the results of `writev` are arguments. An assertion that fails, a `panic` and a write
behind a buffer answer `none`.
-/

namespace Sfslite.Crypt

open Sfslite.Arpc Sfslite.Lib

def macsize : ℕ := 16

/-- The bytes of `mackey1`, and of `mackey2`. -/
def mackeysize : ℕ := 16

/-- A transport with its receive callback set; the calls that the callback had are kept. -/
structure AxprtCrypt where
  pktsize : ℕ
  isopen : Bool
  pktbuf : List Byte
  out : List Byte
  wcbset : Bool
  rawBytesSent : ℕ
  recvd : List (Option (List Byte))
  ctxSend : ℕ
  ctxRecv : ℕ
  macset : Bool
  mackey1 : List Byte
  mackey2 : List Byte
  lenpad : BitVec 32

namespace AxprtCrypt

/-- A new transport after `encrypt`: both contexts have their keys. -/
def encrypted (pktsize : ℕ) : AxprtCrypt :=
  ⟨pktsize, true, [], [], false, 0, [], 0, 0, false, [], [], 0⟩

def bufsize (c : AxprtCrypt) : ℕ := c.pktsize + macsize + 4

def room (c : AxprtCrypt) : ℕ := c.bufsize - c.pktbuf.length

def fail (c : AxprtCrypt) (ingetpkt : Bool) : AxprtCrypt :=
  { c with
    isopen := false
    wcbset := false
    recvd := if ingetpkt then c.recvd else c.recvd ++ [none]
    out := [] }

def output (c : AxprtCrypt) (ws : List (Option ℕ)) : AxprtCrypt × List Byte :=
  let (n, out, w) := AxprtPipe.outputLoop (ws.length + 1) ws c.out
  let c := { c with out := out }
  if n < 0 then (c.fail false, w)
  else ({ c with wcbset := out ≠ [] }, w)

section

variable (sha1 : Sha1) (ks : ℕ → Byte)

/-- Bytes of the stream from a position on, each `^=` with the one in its place. -/
def xorStream (pos : ℕ) (bs : List Byte) : List Byte := mask (· ^^^ ·) ks pos bs

/-- The result, the transport and the bytes written. -/
def sendv (c : AxprtCrypt) (iov : List (List Byte)) (ws : List (Option ℕ)) :
    Option (Bool × AxprtCrypt × List Byte) :=
  let len := BitVec.ofNat 32 iov.flatten.length
  -- panic ("axprt_stream::sendv: called after an EOF\n")
  if ¬ c.isopen then none
  else if c.pktsize < len.toNat then some (false, c.fail false, [])
  else if len.toNat < iov.flatten.length then none
  else
    let mk1 := streamTake ks c.ctxSend mackeysize
    let mk2 := streamTake ks (c.ctxSend + mackeysize) mackeysize
    let msgbuf := htonl (0x80000000 ||| len) ++ iov.flatten
    let mac := (sha1 (mk1 ++ msgbuf ++ mk2)).toList.take macsize
    let pos := c.ctxSend + 2 * mackeysize
    let bytes := xorStream ks pos msgbuf ++ xorStream ks (pos + msgbuf.length) mac
    let c' := { c with
      ctxSend := pos + msgbuf.length + macsize
      rawBytesSent := c.rawBytesSent + bytes.length
      out := c.out ++ bytes }
    if c.out ≠ [] then some (true, c', [])
    else
      let (c', w) := c'.output ws
      some (true, c', w)

def recvbreak (c : AxprtCrypt) : AxprtCrypt := c.fail true

/-- The keys of the next packet are drawn when it is first looked for. The four calls of
`getbyte` in the expression for `lenpad` are made from left to right. -/
def setmac (c : AxprtCrypt) : AxprtCrypt :=
  if c.macset then c
  else
    let pos := c.ctxRecv + 2 * mackeysize
    { c with
      mackey1 := streamTake ks c.ctxRecv mackeysize
      mackey2 := streamTake ks (c.ctxRecv + mackeysize) mackeysize
      lenpad := ks pos ++ ks (pos + 1) ++ ks (pos + 2) ++ ks (pos + 3)
      ctxRecv := pos + 4
      macset := true }

/-- One packet of the bytes from `cp` on: the result, the bytes left and the transport. -/
def getpkt (c : AxprtCrypt) (b : List Byte) : Bool × List Byte × AxprtCrypt :=
  let c := c.setmac ks
  match getint b with
  | none => (false, b, c)
  | some (word, cp) =>
    let len := word ^^^ c.lenpad
    if len = 0 then (true, cp, c.recvbreak)
    else
      match AxprtPipe.checklen c.pktsize len with
      | none => (false, b, c.fail true)
      | some n =>
        if cp.length < n + macsize then (false, b, c)
        else
          let pkt := xorStream ks c.ctxRecv (cp.take (n + macsize))
          let c := { c with macset := false, ctxRecv := c.ctxRecv + (n + macsize) }
          let mac := (sha1 (c.mackey1 ++ (htonl len ++ pkt.take n) ++ c.mackey2)).toList
          if mac.take macsize ≠ pkt.drop n then (false, b, c.fail true)
          else (true, cp.drop (n + macsize), { c with recvd := c.recvd ++ [some (pkt.take n)] })

/-- The loop of `callgetpkt`. -/
def getpktLoop : (fuel : ℕ) → AxprtCrypt → List Byte → Option (AxprtCrypt × List Byte)
  | 0, _, _ => none
  | fuel + 1, c, b =>
    match c.getpkt sha1 ks b with
    | (true, b, c) => getpktLoop fuel c b
    | (false, b, c) => some (c, b)

def callgetpkt (c : AxprtCrypt) : Option AxprtCrypt := do
  let (c, b) ← getpktLoop sha1 ks (c.pktbuf.length + 1) c c.pktbuf
  if ¬ c.isopen then return { c with recvd := c.recvd ++ [none] }
  -- assert (pktlen < pktsize)
  else if b.length < c.pktsize then return { c with pktbuf := b }
  else none

/-- `chunk` is what `read` gave, and nothing at the end of the file or after an error. -/
def input (c : AxprtCrypt) (chunk : List Byte) : Option AxprtCrypt :=
  if ¬ c.isopen then some c
  else if chunk = [] then some (c.fail false)
  else callgetpkt sha1 ks { c with pktbuf := c.pktbuf ++ chunk }

end

end AxprtCrypt

/-- Two transports, the bytes under way from the one to the other, and the messages that
were accepted. -/
structure CryptWorld where
  snd : AxprtCrypt
  rcv : AxprtCrypt
  wire : List Byte
  sent : List (List Byte)

/-- `send` and `output` carry what each `writev` accepts, `read` what a read takes. -/
inductive CryptOp where
  | send (iov : List (List Byte)) (ws : List (Option ℕ))
  | output (ws : List (Option ℕ))
  | read (n : ℕ)

def CryptOp.messages : CryptOp → List (List Byte)
  | .send iov _ => [iov.flatten]
  | _ => []

namespace CryptWorld

/-- Two transports of one packet size after `encrypt` with matching keys. -/
def init (pktsize : ℕ) : CryptWorld :=
  ⟨.encrypted pktsize, .encrypted pktsize, [], []⟩

/-- A step; the sender's stream and the receiver's are the same. -/
def step (sha1 : Sha1) (ks : ℕ → Byte) (w : CryptWorld) : CryptOp → Option CryptWorld
  | .send iov ws => do
      let (ret, snd, bytes) ← w.snd.sendv sha1 ks iov ws
      return { w with
        snd := snd
        wire := w.wire ++ bytes
        sent := if ret then w.sent ++ [iov.flatten] else w.sent }
  | .output ws =>
    let (snd, bytes) := w.snd.output ws
    some { w with snd := snd, wire := w.wire ++ bytes }
  | .read n => do
      let rcv ← w.rcv.input sha1 ks (w.wire.take n)
      return { w with rcv := rcv, wire := w.wire.drop n }

/-- A message passes the length check of `sendv`, the queue is written while the descriptor
is watched, a read takes bytes that are there and that there is room for, and no write
fails. -/
def Legal (w : CryptWorld) : CryptOp → Prop
  | .send iov ws => (BitVec.ofNat 32 iov.flatten.length).toNat ≤ w.snd.pktsize ∧ none ∉ ws
  | .output ws => w.snd.wcbset = true ∧ none ∉ ws
  | .read n => 0 < n ∧ n ≤ w.wire.length ∧ n ≤ w.rcv.room

def pending (w : CryptWorld) : List ℕ :=
  (w.sent.drop w.rcv.recvd.length).map fun m => 4 + m.length + macsize

/-- A message is no longer than the length word can say, and a read leaves fewer than
`pktsize` bytes behind the packets that are whole. -/
def Works (w : CryptWorld) : CryptOp → Prop
  | .send iov _ => iov.flatten.length < 2 ^ 31
  | .output _ => True
  | .read n => leftOver w.pending (w.rcv.pktbuf.length + n) < w.rcv.pktsize

instance (w : CryptWorld) : (op : CryptOp) → Decidable (w.Legal op)
  | .send iov ws => inferInstanceAs (Decidable
      ((BitVec.ofNat 32 iov.flatten.length).toNat ≤ w.snd.pktsize ∧ none ∉ ws))
  | .output ws => inferInstanceAs (Decidable (w.snd.wcbset = true ∧ none ∉ ws))
  | .read n => inferInstanceAs (Decidable (0 < n ∧ n ≤ w.wire.length ∧ n ≤ w.rcv.room))

instance (w : CryptWorld) : (op : CryptOp) → Decidable (w.Works op)
  | .send iov _ => inferInstanceAs (Decidable (iov.flatten.length < 2 ^ 31))
  | .output _ => inferInstanceAs (Decidable True)
  | .read n => inferInstanceAs (Decidable
      (leftOver w.pending (w.rcv.pktbuf.length + n) < w.rcv.pktsize))

end CryptWorld

end Sfslite.Crypt
