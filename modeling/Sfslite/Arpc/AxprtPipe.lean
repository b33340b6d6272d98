import Sfslite.Arpc.Bytes

/-!
The packet transport over a pair of file descriptors of `axprt_pipe.C`. Packets go out
behind a word with their length; what arrives is kept in a buffer until a packet is
complete. The queue of unsent bytes is given by the bytes it holds, and the results of
`writev` and `read` are arguments. A failed assertion and a `panic` answer `none`.
-/

namespace Sfslite.Arpc

/-- What the receive callback does to its transport before it returns. -/
inductive CbAct where
  | keep
  | unset
  | fail
  deriving DecidableEq, Repr

/-- A transport, with the calls that its receive callback has had so far; `none` stands
for the call that reports the end of the file. -/
structure AxprtPipe where
  pktsize : ℕ
  ateof : Bool
  cb : Bool
  pktbuf : List Byte
  out : List Byte
  wcbset : Bool
  foosp : Bool
  rawBytesSent : ℕ
  recvd : List (Option (List Byte))
  deriving DecidableEq

namespace AxprtPipe

def alloc (pktsize : ℕ) : AxprtPipe := ⟨pktsize, false, false, [], [], false, false, 0, []⟩

def bufsize (p : AxprtPipe) : ℕ := p.pktsize + 4

def room (p : AxprtPipe) : ℕ := p.bufsize - p.pktbuf.length

section

variable (rcb : List (Option (List Byte)) → CbAct)

/-- Call the receive callback, which may look at all it was called with. -/
def callcb (p : AxprtPipe) (pkt : Option (List Byte)) : AxprtPipe :=
  let p := { p with recvd := p.recvd ++ [pkt] }
  match rcb p.recvd with
  | .keep => p
  | .unset => { p with cb := false }
  | .fail => { p with ateof := true, wcbset := false, out := [] }

def fail (p : AxprtPipe) (ingetpkt : Bool) : AxprtPipe :=
  let p := { p with ateof := true, wcbset := false }
  let p := if p.cb ∧ ¬ ingetpkt then p.callcb rcb none else p
  { p with out := [] }

/-- `suio::output`: write until the queue is empty or a write accepts nothing; `none`
stands for an error. Left are the queue, the bytes written and the results not used. -/
def suioOutput : (ws : List (Option ℕ)) → (out : List Byte) →
    Int × List Byte × List Byte × List (Option ℕ)
  | ws, [] => (0, [], [], ws)
  | [], out => (0, out, [], [])
  | none :: ws, out => (-1, out, [], ws)
  | some 0 :: ws, out => (0, out, [], ws)
  | some (k + 1) :: ws, out =>
    let (n, out', w, ws') := suioOutput ws (out.drop (k + 1))
    (if n < 0 then -1 else 1, out', out.take (k + 1) ++ w, ws')

theorem suioOutput_bytes (ws : List (Option ℕ)) (out : List Byte) :
    (suioOutput ws out).2.2.1 ++ (suioOutput ws out).2.1 = out := by
  fun_induction suioOutput ws out with
  | case1 ws => rfl
  | case2 out => rfl
  | case3 ws out => rfl
  | case4 ws out => rfl
  | case5 k ws out _ n out' w ws' heq ih =>
    rw [heq] at ih
    simp only [List.append_assoc, ih, List.take_append_drop]

/-- The loop of `output`, which goes on while bytes are written. -/
def outputLoop : (fuel : ℕ) → (ws : List (Option ℕ)) → (out : List Byte) →
    Int × List Byte × List Byte
  | 0, _, out => (0, out, [])
  | fuel + 1, ws, out =>
    let (n, out', w, ws') := suioOutput ws out
    if n > 0 then
      let (n', out'', w') := outputLoop fuel ws' out'
      (n', out'', w ++ w')
    else (n, out', w)

def output (p : AxprtPipe) (ws : List (Option ℕ)) : AxprtPipe × List Byte :=
  let (n, out, w) := outputLoop (ws.length + 1) ws p.out
  let p := { p with out := out }
  if n < 0 then (p.fail rcb false, w)
  else ({ p with wcbset := out ≠ [] }, w)

/-- The result, the transport and the bytes written. `skip` is what the first `writev`
accepts where it is tried. -/
def sendv (p : AxprtPipe) (iov : List (List Byte)) (skip : Option ℕ) (ws : List (Option ℕ)) :
    Option (Bool × AxprtPipe × List Byte) :=
  let len := BitVec.ofNat 32 iov.flatten.length
  -- panic ("axprt_pipe::sendv: called after an EOF\n")
  if p.ateof then none
  else if p.pktsize < len.toNat then
    some (false, if p.foosp then p.fail rcb false else p, [])
  else
    let p := { p with rawBytesSent := p.rawBytesSent + len.toNat + 4 }
    let bytes := htonl (0x80000000 ||| len) ++ iov.flatten
    if p.out = [] ∧ iov.length < 16 then
      match skip with
      | none => some (false, p.fail rcb false, [])
      | some n =>
        let (p, w) := { p with out := bytes.drop n }.output rcb ws
        some (true, p, bytes.take n ++ w)
    else
      let (p, w) := { p with out := p.out ++ bytes }.output rcb ws
      some (true, p, w)

def recvbreak (p : AxprtPipe) : AxprtPipe := p.fail rcb true

def checklen (pktsize : ℕ) (len : BitVec 32) : Option ℕ :=
  if len &&& 0x80000000 = 0 then none
  else
    let len := len &&& 0x7fffffff
    if pktsize < len.toNat then none else some len.toNat

/-- One packet of the bytes from `cp` on: the result, the bytes left and the transport. -/
def getpkt (p : AxprtPipe) (b : List Byte) : Bool × List Byte × AxprtPipe :=
  if ¬ p.cb then (false, b, p)
  else
    match getint b with
    | none => (false, b, p)
    | some (len, cp) =>
      if len = 0 then (true, cp, p.recvbreak rcb)
      else
        match checklen p.pktsize len with
        | none => (false, b, p.fail rcb true)
        | some len =>
          if cp.length < len then (false, b, p)
          else (true, cp.drop len, p.callcb rcb (some (cp.take len)))

/-- The loop of `callgetpkt`. -/
def getpktLoop : (fuel : ℕ) → AxprtPipe → List Byte → Option (AxprtPipe × List Byte)
  | 0, _, _ => none
  | fuel + 1, p, b =>
    match p.getpkt rcb b with
    | (true, b, p) => getpktLoop fuel p b
    | (false, b, p) => some (p, b)

def callgetpkt (p : AxprtPipe) : Option AxprtPipe := do
  let (p, b) ← getpktLoop rcb (p.pktbuf.length + 1) p p.pktbuf
  if p.ateof then return if p.cb then p.callcb rcb none else p
  -- assert (pktlen < pktsize)
  else if b.length < p.pktsize then return { p with pktbuf := b }
  else none

/-- `chunk` is what `read` gave, and nothing at the end of the file or after an error. -/
def input (p : AxprtPipe) (chunk : List Byte) : Option AxprtPipe :=
  if p.ateof then some p
  else if chunk = [] then some (p.fail rcb false)
  else callgetpkt rcb { p with pktbuf := p.pktbuf ++ chunk }

def setrcb (p : AxprtPipe) (c : Bool) : Option AxprtPipe :=
  let p := { p with cb := c }
  if p.ateof then some (if c then p.callcb rcb none else p)
  else if c ∧ p.pktbuf ≠ [] then callgetpkt rcb p
  else some p

end

end AxprtPipe

end Sfslite.Arpc
