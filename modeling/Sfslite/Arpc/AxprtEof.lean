import Sfslite.Arpc.AxprtFraming

/-!
The end of the file of `axprt_pipe.C`. All that goes through the descriptors of a transport
and to its receive callback is kept in one log, and the callback sends packets from inside
the loop over the buffer. The callback stays set.
-/

namespace Sfslite.Arpc

open Sfslite.Lib

/-- What a transport does, in order: data read and written, the failure that closes the
descriptors, and the packets and the end of the file that its callback is called with. -/
inductive PipeIo where
  | read (bs : List Byte)
  | write (bs : List Byte)
  | fail
  | pkt (m : List Byte)
  | eof
  deriving DecidableEq, Repr

/-- A call of a function that writes, with what each `writev` accepts; `none` stands for an
error. -/
inductive WriteCall where
  | sendv (iov : List (List Byte)) (skip : Option ℕ) (ws : List (Option ℕ))
  | sendbreak (ws : List (Option ℕ))

/-- What `read` answers. -/
inductive ReadRes where
  | data (bs : List Byte)
  | again
  | eof
  | error

structure PipeConn where
  pktsize : ℕ
  foosp : Bool
  isopen : Bool
  ingetpkt : Bool
  pktbuf : List Byte
  out : List Byte
  wcbset : Bool
  log : List PipeIo
  deriving DecidableEq

namespace PipeConn

def new (pktsize : ℕ) (foosp : Bool) : PipeConn :=
  ⟨pktsize, foosp, true, false, [], [], false, []⟩

def room (p : PipeConn) : ℕ := p.pktsize + 4 - p.pktbuf.length

def fail (p : PipeConn) : PipeConn :=
  let p := if p.isopen then
    { p with isopen := false, wcbset := false, log := p.log ++ [.fail] } else p
  let p := if p.ingetpkt then p else { p with log := p.log ++ [.eof] }
  { p with out := [] }

def written (p : PipeConn) (w : List Byte) : PipeConn :=
  if w = [] then p else { p with log := p.log ++ [.write w] }

/-- After a failure the descriptor is -1, and a write to it is an error. -/
def output (p : PipeConn) (ws : List (Option ℕ)) : PipeConn :=
  let ws := if p.isopen then ws else [none]
  let (n, out, w) := AxprtPipe.outputLoop (ws.length + 1) ws p.out
  let p := { p with out := out }.written w
  if n < 0 then p.fail else { p with wcbset := out ≠ [] }

def sendv (p : PipeConn) (iov : List (List Byte)) (skip : Option ℕ) (ws : List (Option ℕ)) :
    Option (Bool × PipeConn) :=
  let len := BitVec.ofNat 32 iov.flatten.length
  -- panic ("axprt_pipe::sendv: called after an EOF\n")
  if ¬ p.isopen then none
  else if p.pktsize < len.toNat then some (false, if p.foosp then p.fail else p)
  else
    let bytes := htonl (0x80000000 ||| len) ++ iov.flatten
    if p.out = [] ∧ iov.length < 16 then
      match skip with
      | none => some (false, p.fail)
      | some n => some (true, { p.written (bytes.take n) with out := bytes.drop n }.output ws)
    else some (true, { p with out := p.out ++ bytes }.output ws)

def sendbreak (p : PipeConn) (ws : List (Option ℕ)) : PipeConn :=
  { p with out := p.out ++ [0, 0, 0, 0] }.output ws

def call (p : PipeConn) : WriteCall → Option PipeConn
  | .sendv iov skip ws => (p.sendv iov skip ws).map Prod.snd
  | .sendbreak ws => some (p.sendbreak ws)

/-- Calls in a row, by a caller that stops at the end of the file. -/
def calls (p : PipeConn) : List WriteCall → PipeConn
  | [] => p
  | c :: cs =>
    if p.isopen then
      match p.call c with
      | none => p
      | some p => p.calls cs
    else p

section

variable (rcb : List PipeIo → List WriteCall)

/-- Call the receive callback with a packet; what it sends may depend on all that happened. -/
def callcb (p : PipeConn) (m : List Byte) : PipeConn :=
  let p : PipeConn := { p with log := p.log ++ [.pkt m] }
  p.calls (rcb p.log)

def recvbreak (p : PipeConn) : PipeConn := p.fail

def getpkt (p : PipeConn) (b : List Byte) : Bool × List Byte × PipeConn :=
  match getint b with
  | none => (false, b, p)
  | some (len, cp) =>
    if len = 0 then (true, cp, p.recvbreak)
    else
      match AxprtPipe.checklen p.pktsize len with
      | none => (false, b, p.fail)
      | some len =>
        if cp.length < len then (false, b, p)
        else (true, cp.drop len, p.callcb rcb (cp.take len))

/-- The loop of `callgetpkt`. -/
def getpktLoop : (fuel : ℕ) → PipeConn → List Byte → Option (PipeConn × List Byte)
  | 0, _, _ => none
  | fuel + 1, p, b =>
    match p.getpkt rcb b with
    | (true, b, p) => getpktLoop fuel p b
    | (false, b, p) => some (p, b)

def callgetpkt (p : PipeConn) : Option PipeConn := do
  let (p, b) ← getpktLoop rcb (p.pktbuf.length + 1) { p with ingetpkt := true } p.pktbuf
  if ¬ p.isopen then return { p with log := p.log ++ [.eof], ingetpkt := false }
  -- assert (pktlen < pktsize)
  else if b.length < p.pktsize then return { p with pktbuf := b, ingetpkt := false }
  else none

def input (p : PipeConn) (r : ReadRes) : Option PipeConn :=
  if ¬ p.isopen then some p
  else
    match r with
    | .again => some p
    | .eof | .error => some p.fail
    | .data bs =>
      callgetpkt rcb { p with pktbuf := p.pktbuf ++ bs, log := p.log ++ [.read bs] }

/-- What may happen to a transport: its descriptor can be read from or written to, or the
program calls it. -/
inductive Ev where
  | read (r : ReadRes)
  | writable (ws : List (Option ℕ))
  | call (c : WriteCall)

def step (p : PipeConn) : Ev → Option PipeConn
  | .read r => p.input rcb r
  | .writable ws => some (p.output ws)
  | .call c => p.call c

end

/-- A read gives at least one byte and no more than there is room for, the descriptor is
written to while it is watched, and nothing is sent after the end of the file. -/
def Legal (p : PipeConn) : Ev → Prop
  | .read (.data bs) => bs ≠ [] ∧ bs.length ≤ p.room
  | .read _ => True
  | .writable _ => p.wcbset = true
  | .call _ => p.isopen = true

/-- `Leaves rcb p b rest`: of the bytes `b` whole packets are delivered, the calls that the
callback makes for them leave the transport open, and `rest` is not a whole packet. -/
inductive Leaves (rcb : List PipeIo → List WriteCall) : PipeConn → List Byte → List Byte → Prop
  | rest {p : PipeConn} {b : List Byte} : p.isopen = true → Unfinished p.pktsize b →
      Leaves rcb p b b
  | next {p : PipeConn} {m b rest : List Byte} : m.length ≤ p.pktsize →
      Leaves rcb (p.callcb rcb m) b rest → Leaves rcb p (frame m ++ b) rest

/-- A transport behind a read, before the loop. -/
def arrived (p : PipeConn) (bs : List Byte) : PipeConn :=
  { p with pktbuf := p.pktbuf ++ bs, log := p.log ++ [.read bs], ingetpkt := true }

/-- A read leaves fewer than `pktsize` bytes behind the packets that it delivers. -/
def Works (rcb : List PipeIo → List WriteCall) (p : PipeConn) : Ev → Prop
  | .read (.data bs) => p.isopen = true →
      ∀ rest, Leaves rcb (p.arrived bs) (p.pktbuf ++ bs) rest → rest.length < p.pktsize
  | _ => True

variable {rcb : List PipeIo → List WriteCall} {p p' : PipeConn} {b b' : List Byte}

def Clean (l : List PipeIo) : Prop := .fail ∉ l ∧ .eof ∉ l

/-- An open transport has a clean log. After the failure only packets are delivered, and
outside the loop the end of the file was reported behind them. -/
structure Logged (p : PipeConn) : Prop where
  clean : p.isopen = true → Clean p.log
  quiet : p.isopen = false → p.wcbset = false
  failed : p.isopen = false → ∃ (before : List PipeIo) (pkts : List (List Byte)),
    Clean before ∧
      p.log = before ++ .fail :: (pkts.map .pkt ++ if p.ingetpkt then [] else [.eof])

/-- What no step changes, and that a closed transport stays closed. -/
structure Same (p p' : PipeConn) : Prop where
  pktsize : p'.pktsize = p.pktsize
  ingetpkt : p'.ingetpkt = p.ingetpkt
  closed : p.isopen = false → p'.isopen = false

theorem Same.refl (p : PipeConn) : Same p p := ⟨rfl, rfl, id⟩

theorem Same.trans {p'' : PipeConn} (h : Same p p') (h' : Same p' p'') : Same p p'' :=
  ⟨h'.pktsize.trans h.pktsize, h'.ingetpkt.trans h.ingetpkt, fun hc => h'.closed (h.closed hc)⟩

theorem Clean.append {l l' : List PipeIo} (h : Clean l) (h' : Clean l') : Clean (l ++ l') := by
  constructor
  · simp [h.1, h'.1]
  · simp [h.2, h'.2]

theorem fail_isopen : p.fail.isopen = false := by
  cases hopen : p.isopen <;> cases hin : p.ingetpkt <;> simp [fail, hopen, hin]

theorem same_fail : Same p p.fail := by
  refine ⟨?_, ?_, fun _ => fail_isopen⟩
  · cases hopen : p.isopen <;> cases hin : p.ingetpkt <;> simp [fail, hopen, hin]
  · cases hopen : p.isopen <;> cases hin : p.ingetpkt <;> simp [fail, hopen, hin]

theorem Logged.fail (h : p.Logged) (hopen : p.isopen = true ∨ p.ingetpkt = true) :
    p.fail.Logged := by
  refine ⟨fun ho => absurd ho (by simp [fail_isopen]), fun _ => ?_, fun _ => ?_⟩
  · cases hio : p.isopen with
    | true => cases hin : p.ingetpkt <;> simp [PipeConn.fail, hio, hin]
    | false =>
      have hquiet := h.quiet hio
      cases hin : p.ingetpkt <;> simp [PipeConn.fail, hio, hin, hquiet]
  · cases hio : p.isopen with
    | true =>
      refine ⟨p.log, [], h.clean hio, ?_⟩
      cases hin : p.ingetpkt <;> simp [PipeConn.fail, hio, hin]
    | false =>
      have hin : p.ingetpkt = true := hopen.resolve_left (by simp [hio])
      obtain ⟨before, pkts, hclean, hlog⟩ := h.failed hio
      refine ⟨before, pkts, hclean, ?_⟩
      simpa [PipeConn.fail, hio, hin] using hlog

theorem Logged.written (h : p.Logged) (hopen : p.isopen = true) (w : List Byte) :
    (p.written w).Logged := by
  unfold PipeConn.written
  split_ifs
  · exact h
  · refine ⟨fun _ => (h.clean hopen).append ⟨by simp, by simp⟩, fun ho => ?_, fun ho => ?_⟩
    · exact absurd ho (by simp [hopen])
    · exact absurd ho (by simp [hopen])

theorem same_written (w : List Byte) : Same p (p.written w) := by
  unfold PipeConn.written
  split_ifs
  · exact .refl p
  · exact ⟨rfl, rfl, id⟩

theorem written_isopen (w : List Byte) : (p.written w).isopen = p.isopen := by
  unfold PipeConn.written
  split_ifs <;> rfl

theorem Logged.setOut (h : p.Logged) (out : List Byte) : Logged { p with out := out } :=
  { h with }

theorem Logged.setWcbset (h : p.Logged) (hopen : p.isopen = true) (c : Bool) :
    Logged { p with wcbset := c } :=
  ⟨h.clean, fun ho => absurd ho (by simp [hopen]), h.failed⟩

theorem output_cases (p : PipeConn) (ws : List (Option ℕ)) :
    ∃ out w, p.output ws = ({ p with out := out }.written w).fail ∨
      ∃ c, p.output ws = { { p with out := out }.written w with wcbset := c } := by
  obtain ⟨⟨n, out, w⟩, hloop⟩ : ∃ r, AxprtPipe.outputLoop
      ((if p.isopen then ws else [none]).length + 1) (if p.isopen then ws else [none]) p.out = r :=
    ⟨_, rfl⟩
  refine ⟨out, w, ?_⟩
  unfold PipeConn.output
  dsimp only
  rw [hloop]
  dsimp only
  split_ifs
  · exact Or.inl rfl
  · exact Or.inr ⟨_, rfl⟩

theorem Logged.output (h : p.Logged) (hopen : p.isopen = true) (ws : List (Option ℕ)) :
    (p.output ws).Logged := by
  obtain ⟨out, w, heq | ⟨c, heq⟩⟩ := output_cases p ws
  · rw [heq]
    exact ((h.setOut out).written hopen w).fail (Or.inl ((written_isopen w).trans hopen))
  · rw [heq]
    exact ((h.setOut out).written hopen w).setWcbset ((written_isopen w).trans hopen) c

theorem same_output (p : PipeConn) (ws : List (Option ℕ)) : Same p (p.output ws) := by
  obtain ⟨out, w, heq⟩ := output_cases p ws
  have hset : Same p { p with out := out } := ⟨rfl, rfl, id⟩
  have hwritten : Same p (PipeConn.written { p with out := out } w) := hset.trans (same_written w)
  rcases heq with heq | ⟨c, heq⟩
  · rw [heq]
    exact hwritten.trans same_fail
  · rw [heq]
    exact hwritten.trans ⟨rfl, rfl, id⟩

theorem setOut_output (h : p.Logged) (hopen : p.isopen = true) (out : List Byte)
    (ws : List (Option ℕ)) : ({ p with out := out }.output ws).Logged ∧
      Same p ({ p with out := out }.output ws) := by
  have hset : Same p { p with out := out } := ⟨rfl, rfl, id⟩
  exact ⟨(h.setOut out).output hopen ws, hset.trans (same_output _ ws)⟩

theorem call_spec (h : p.Logged) (hopen : p.isopen = true) (c : WriteCall) :
    ∃ p', p.call c = some p' ∧ p'.Logged ∧ Same p p' := by
  cases c with
  | sendbreak ws => exact ⟨_, rfl, setOut_output h hopen (p.out ++ [0, 0, 0, 0]) ws⟩
  | sendv iov skip ws =>
    simp only [call, sendv, if_neg (not_not_intro hopen)]
    split_ifs with hbig hfoosp hfast
    · exact ⟨_, rfl, h.fail (Or.inl hopen), same_fail⟩
    · exact ⟨_, rfl, h, .refl p⟩
    · cases skip with
      | none => exact ⟨_, rfl, h.fail (Or.inl hopen), same_fail⟩
      | some n =>
        generalize htonl (0x80000000 ||| BitVec.ofNat 32 iov.flatten.length) ++
          iov.flatten = bytes
        obtain ⟨hlogged, hsame⟩ := setOut_output (h.written hopen (bytes.take n))
          ((written_isopen _).trans hopen) (bytes.drop n) ws
        exact ⟨_, rfl, hlogged, (same_written _).trans hsame⟩
    · exact ⟨_, rfl, setOut_output h hopen _ ws⟩

theorem calls_spec (h : p.Logged) (cs : List WriteCall) :
    (p.calls cs).Logged ∧ Same p (p.calls cs) := by
  induction cs generalizing p with
  | nil => exact ⟨h, .refl p⟩
  | cons c cs ih =>
    cases hopen : p.isopen with
    | false => simpa [calls, hopen] using And.intro h (Same.refl p)
    | true =>
      obtain ⟨p₁, hcall, hlogged, hsame⟩ := call_spec h hopen c
      obtain ⟨hlogged', hsame'⟩ := ih hlogged
      simp only [calls, hopen, if_true, hcall]
      exact ⟨hlogged', hsame.trans hsame'⟩

theorem callcb_spec (h : p.Logged) (hin : p.ingetpkt = true) (m : List Byte) :
    (p.callcb rcb m).Logged ∧ Same p (p.callcb rcb m) := by
  have hlogged : Logged { p with log := p.log ++ [.pkt m] } := by
    refine ⟨fun ho => (h.clean ho).append ⟨by simp, by simp⟩, h.quiet, fun ho => ?_⟩
    obtain ⟨before, pkts, hclean, hlog⟩ := h.failed ho
    refine ⟨before, pkts ++ [m], hclean, ?_⟩
    simp [hlog, hin]
  obtain ⟨hcalls, hsame⟩ := calls_spec hlogged (rcb (p.log ++ [.pkt m]))
  have hlog : Same p { p with log := p.log ++ [.pkt m] } := ⟨rfl, rfl, id⟩
  exact ⟨hcalls, hlog.trans hsame⟩

/-- All that taking one packet can do: stop where the packet is not whole, deliver a packet,
or fail the transport. -/
theorem getpkt_cases (r : Bool) (h : p.getpkt rcb b = (r, b', p')) :
    (r = false ∧ b' = b ∧ p' = p ∧ Unfinished p.pktsize b) ∨
    (r = true ∧ ∃ m, m.length ≤ p.pktsize ∧ b = frame m ++ b' ∧ p' = p.callcb rcb m) ∨
    ((r = true → b'.length < b.length) ∧ p' = p.fail) := by
  simp only [getpkt] at h
  split at h
  · next hget =>
      cases h
      exact Or.inl ⟨rfl, rfl, rfl, Or.inl (getint_eq_none_iff.mp hget)⟩
  · next len cp hget =>
      obtain rfl := eq_of_getint hget
      split_ifs at h with hzero
      · cases h
        refine Or.inr (Or.inr ⟨fun _ => ?_, rfl⟩)
        rw [List.length_append, length_htonl]
        omega
      · split at h
        · cases h
          exact Or.inr (Or.inr ⟨nofun, rfl⟩)
        · next n hlen =>
            obtain ⟨hn, h31, rfl⟩ := checklen_eq_some hlen
            split_ifs at h with hshort
            · cases h
              exact Or.inl ⟨rfl, rfl, rfl, Or.inr ⟨n, cp, hn, hshort, h31, rfl⟩⟩
            · cases h
              have hm : (cp.take n).length = n := by
                rw [List.length_take]
                omega
              refine Or.inr (Or.inl ⟨rfl, cp.take n, by omega, ?_, rfl⟩)
              rw [frame, hm, List.append_assoc, List.take_append_drop]

theorem getpktLoop_spec {fuel : ℕ} (h : p.Logged) (hin : p.ingetpkt = true)
    (hfuel : b.length < fuel) :
    ∃ p' b', getpktLoop rcb fuel p b = some (p', b') ∧ p'.Logged ∧ Same p p' ∧
      (p'.isopen = true → Leaves rcb p b b') := by
  induction fuel generalizing p b with
  | zero => omega
  | succ fuel ih =>
    obtain ⟨r, b₁, p₁, hget⟩ : ∃ r b₁ p₁, p.getpkt rcb b = (r, b₁, p₁) := ⟨_, _, _, rfl⟩
    rcases getpkt_cases r hget with ⟨rfl, rfl, rfl, hcut⟩ | ⟨rfl, m, hm, rfl, rfl⟩ |
      ⟨hlen, rfl⟩
    · exact ⟨p₁, b₁, by simp only [getpktLoop, hget], h, .refl p₁, fun ho => .rest ho hcut⟩
    · obtain ⟨hlogged, hsame⟩ := @callcb_spec rcb p h hin m
      rw [List.length_append, length_frame] at hfuel
      obtain ⟨p', b', hloop, hlogged', hsame', hleaves⟩ :=
        ih (b := b₁) hlogged (hsame.ingetpkt.trans hin) (by omega)
      refine ⟨p', b', by simp only [getpktLoop, hget, hloop], hlogged', hsame.trans hsame',
        fun ho => .next hm (hleaves ho)⟩
    · have hlogged := h.fail (Or.inr hin)
      cases r with
      | false =>
        refine ⟨p.fail, b₁, by simp only [getpktLoop, hget], hlogged, same_fail, fun ho => ?_⟩
        exact absurd ho (by simp [fail_isopen])
      | true =>
        obtain ⟨p', b', hloop, hlogged', hsame, -⟩ :=
          ih (b := b₁) hlogged (same_fail.ingetpkt.trans hin)
            (Nat.lt_of_lt_of_le (hlen rfl) (by omega))
        refine ⟨p', b', by simp only [getpktLoop, hget, hloop], hlogged',
          same_fail.trans hsame, fun ho => ?_⟩
        exact absurd ho (by simp [hsame.closed fail_isopen])

theorem Logged.report (h : p.Logged) (hin : p.ingetpkt = true) (hclosed : p.isopen = false) :
    Logged { p with log := p.log ++ [.eof], ingetpkt := false } := by
  refine ⟨fun ho => absurd ho (by simp [hclosed]), fun _ => h.quiet hclosed, fun _ => ?_⟩
  obtain ⟨before, pkts, hclean, hlog⟩ := h.failed hclosed
  refine ⟨before, pkts, hclean, ?_⟩
  simp [hlog, hin]

theorem input_data (h : p.Logged) (hopen : p.isopen = true) {bs : List Byte}
    (hshort : ∀ rest, Leaves rcb (p.arrived bs) (p.pktbuf ++ bs) rest → rest.length < p.pktsize) :
    ∃ p', p.input rcb (.data bs) = some p' ∧ p'.Logged ∧ p'.ingetpkt = false := by
  have harrived : (p.arrived bs).Logged := by
    refine ⟨fun _ => (h.clean hopen).append ⟨by simp, by simp⟩, fun ho => ?_, fun ho => ?_⟩
    · exact absurd hopen (by simpa [arrived] using ho)
    · exact absurd hopen (by simpa [arrived] using ho)
  obtain ⟨p₁, b₁, hloop, hlogged, hsame, hleaves⟩ :=
    @getpktLoop_spec rcb _ _ _ harrived rfl (Nat.lt_succ_self (p.pktbuf ++ bs).length)
  have hin : p₁.ingetpkt = true := hsame.ingetpkt
  have hcall : p.input rcb (.data bs) =
      (getpktLoop rcb ((p.pktbuf ++ bs).length + 1) (p.arrived bs) (p.pktbuf ++ bs)).bind
        fun r => if ¬ r.1.isopen then
            some { r.1 with log := r.1.log ++ [.eof], ingetpkt := false }
          else if r.2.length < r.1.pktsize then
            some { r.1 with pktbuf := r.2, ingetpkt := false } else none := by
    unfold input
    rw [if_neg (not_not_intro hopen)]
    rfl
  rw [hcall, hloop, Option.bind_some]
  cases ho : p₁.isopen with
  | false =>
    rw [if_pos (by simp)]
    exact ⟨_, rfl, hlogged.report hin ho, rfl⟩
  | true =>
    have hlt : b₁.length < p₁.pktsize := by
      rw [hsame.pktsize]
      exact hshort b₁ (hleaves ho)
    rw [if_neg (by simp), if_pos hlt]
    refine ⟨_, rfl, ⟨fun _ => hlogged.clean ho, fun hc => ?_, fun hc => ?_⟩, rfl⟩
    · exact absurd ho (by simpa using hc)
    · exact absurd ho (by simpa using hc)

theorem fail_ingetpkt (hin : p.ingetpkt = false) : p.fail.ingetpkt = false :=
  same_fail.ingetpkt.trans hin

theorem Logged.step (h : p.Logged) (hin : p.ingetpkt = false) {ev : Ev} (hlegal : p.Legal ev)
    (hworks : p.Works rcb ev) :
    ∃ p', p.step rcb ev = some p' ∧ p'.Logged ∧ p'.ingetpkt = false := by
  cases ev with
  | read r =>
    cases hopen : p.isopen with
    | false => exact ⟨p, by simp [PipeConn.step, input, hopen], h, hin⟩
    | true =>
      have hfail : p.fail.Logged ∧ p.fail.ingetpkt = false :=
        ⟨h.fail (Or.inl hopen), fail_ingetpkt hin⟩
      cases r with
      | data bs => exact input_data h hopen (hworks hopen)
      | again => exact ⟨p, by simp [PipeConn.step, input, hopen], h, hin⟩
      | eof => exact ⟨p.fail, by simp [PipeConn.step, input, hopen], hfail⟩
      | error => exact ⟨p.fail, by simp [PipeConn.step, input, hopen], hfail⟩
  | writable ws =>
    have hopen : p.isopen = true := by
      by_contra hclosed
      have hquiet := h.quiet (by simpa using hclosed)
      exact absurd hlegal (by simp [Legal, hquiet])
    exact ⟨p.output ws, rfl, h.output hopen ws, (same_output p ws).ingetpkt.trans hin⟩
  | call c =>
    obtain ⟨p', hcall, hlogged, hsame⟩ := call_spec h hlegal c
    exact ⟨p', hcall, hlogged, hsame.ingetpkt.trans hin⟩

theorem Leaves.length_le {rest : List Byte} (h : Leaves rcb p b rest) : rest.length ≤ b.length := by
  induction h with
  | rest => exact Nat.le_refl _
  | next _ _ ih =>
    rw [List.length_append]
    omega

end PipeConn

end Sfslite.Arpc
