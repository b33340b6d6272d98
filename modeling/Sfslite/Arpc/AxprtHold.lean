import Sfslite.Arpc.AxprtPipe
import Sfslite.Lib.Run

/-!
The life of an `axprt_pipe`. Between two steps other code runs: the program, or the receive
callback, which may do what the program may do. The transport is destroyed with its last
reference, and the functions that run other code hold one on their own.
-/

namespace Sfslite.Arpc

/-- What has not returned: other code; `fail` behind its callback; `output` behind `fail`; `input`;
the loop of `callgetpkt`, with the bytes behind the packet; and the rest of it behind the call for
the end of the file. -/
inductive PipeFrame where
  | user
  | fail
  | output
  | input
  | callgetpkt (b : List Byte)
  | eof
deriving DecidableEq, Repr

/-- `ref<axprt> hold (mkref (this))` -/
def PipeFrame.holds : PipeFrame → ℕ
  | .user => 0
  | .fail => 1
  | .output => 0
  | .input => 1
  | .callgetpkt _ => 1
  | .eof => 1

/-- A transport, with the references that other code has. -/
structure AxprtHold where
  p : AxprtPipe
  ingetpkt : Bool
  destroyed : Bool
  refs : ℕ
  stack : List PipeFrame
deriving DecidableEq

namespace AxprtHold

/-- A field is used that is no longer there; or the event cannot happen, or stops the program. -/
inductive Stop where
  | freed
  | disabled
deriving DecidableEq, Repr

def count (s : AxprtHold) : ℕ := s.refs + (s.stack.map PipeFrame.holds).sum

/-- `(*cb) (pkt, len, NULL)` -/
def callcb (s : AxprtHold) (pkt : Option (List Byte)) : AxprtHold :=
  { s with p := { s.p with recvd := s.p.recvd ++ [pkt] }, stack := .user :: s.stack }

/-- `fail`, up to its callback where it has one. -/
def fail (s : AxprtHold) : AxprtHold :=
  let s := { s with p := { s.p with ateof := true, wcbset := false } }
  if s.destroyed then s
  else if s.p.cb ∧ ¬ s.ingetpkt then { s with stack := .fail :: s.stack }.callcb none
  else { s with p := { s.p with out := [] } }

/-- `output`, up to the callback of `fail`. A write to a descriptor that is closed is an error. -/
def output (s : AxprtHold) (ws : List (Option ℕ)) : AxprtHold :=
  let ws := if s.p.ateof then [none] else ws
  let (n, out, _) := AxprtPipe.outputLoop (ws.length + 1) ws s.p.out
  let s := { s with p := { s.p with out := out } }
  if n < 0 then { s with stack := .output :: s.stack }.fail
  else { s with p := { s.p with wcbset := out ≠ [] } }

/-- The destructor, with what `writev` accepts of the bytes that are left. -/
def delete (s : AxprtHold) (ws : List (Option ℕ)) : AxprtHold :=
  let s := { s with destroyed := true }
  let s :=
    if ¬ s.p.ateof ∧ s.p.out ≠ [] then
      let (n, out, _) := AxprtPipe.outputLoop (ws.length + 1) ws s.p.out
      let s := { s with p := { s.p with out := out } }
      if n < 0 then s.fail else s
    else s
  s.fail

def release (s : AxprtHold) (ws : List (Option ℕ)) : AxprtHold :=
  if s.count = 0 then s.delete ws else s

/-- What the loop of `callgetpkt` comes to: a packet, with the bytes behind it, or its end. -/
inductive Scan where
  | pkt (m b : List Byte) (p : AxprtPipe)
  | done (b : List Byte) (p : AxprtPipe)

/-- `while (cb && getpkt (&cp, eom))`, up to the next call of the callback. Here `fail` runs none,
as `ingetpkt` is set. -/
def scan : ℕ → AxprtPipe → List Byte → Option Scan
  | 0, _, _ => none
  | fuel + 1, p, b =>
    if ¬ p.cb then some (.done b p)
    else
      match getint b with
      | none => some (.done b p)
      | some (len, cp) =>
        let failed := { p with ateof := true, wcbset := false, out := [] }
        if len = 0 then scan fuel failed cp
        else
          match AxprtPipe.checklen p.pktsize len with
          | none => some (.done b failed)
          | some len =>
            if cp.length < len then some (.done b p)
            else some (.pkt (cp.take len) (cp.drop len) p)

/-- The functions go on that have not returned, up to other code. -/
def unwind (ws : List (Option ℕ)) : List PipeFrame → AxprtHold → Except Stop AxprtHold
  | [], s => .ok { s with stack := [] }
  | .user :: fs, s => .ok { s with stack := .user :: fs }
  | .fail :: fs, s =>
    -- out->clear ()
    if s.destroyed then .error .freed
    else unwind ws fs ({ s with p := { s.p with out := [] }, stack := fs }.release ws)
  | .output :: fs, s =>
    -- out->resid ()
    if s.destroyed then .error .freed
    else unwind ws fs { s with stack := fs }
  | .input :: fs, s => unwind ws fs ({ s with stack := fs }.release ws)
  | .callgetpkt b :: fs, s =>
    if s.destroyed then .error .freed
    else
      match scan (b.length + 1) s.p b with
      | none => .error .disabled
      | some (.pkt m b p) => .ok ({ s with p := p, stack := .callgetpkt b :: fs }.callcb (some m))
      | some (.done b p) =>
        if p.ateof then
          if p.cb then .ok ({ s with p := p, stack := .eof :: fs }.callcb none)
          else unwind ws fs ({ s with p := p, ingetpkt := false, stack := fs }.release ws)
        -- assert (pktlen < pktsize)
        else if b.length < p.pktsize then
          unwind ws fs
            ({ s with p := { p with pktbuf := b }, ingetpkt := false, stack := fs }.release ws)
        else .error .disabled
  | .eof :: fs, s =>
    if s.destroyed then .error .freed
    else unwind ws fs ({ s with ingetpkt := false, stack := fs }.release ws)

def settle (s : AxprtHold) (ws : List (Option ℕ)) : Except Stop AxprtHold :=
  unwind ws s.stack s

/-- `callgetpkt`, up to its loop. -/
def callgetpkt (s : AxprtHold) : AxprtHold :=
  if s.ingetpkt then s
  else { s with ingetpkt := true, stack := .callgetpkt s.p.pktbuf :: s.stack }

/-- What other code does, the end of the receive callback, and what the event loop or `poll` finds
at the descriptors: `read` gives some bytes, nothing yet, or `some []` at the end of the file and
after an error. -/
inductive Event where
  | take
  | drop (ws : List (Option ℕ))
  | setrcb (c : Bool)
  | sendv (iov : List (List Byte)) (skip : Option ℕ) (ws : List (Option ℕ))
  | sendbreak (ws : List (Option ℕ))
  | ungetpkt (pkt : List Byte)
  | reclaim
  | ret (ws : List (Option ℕ))
  | input (chunk : Option (List Byte))
  | output (ws : List (Option ℕ))
  | poll (chunk : Option (List Byte))
  | pollOutput (ws : List (Option ℕ))
deriving DecidableEq, Repr

def setrcb (s : AxprtHold) (c : Bool) : AxprtHold :=
  let s := { s with p := { s.p with cb := c } }
  if s.p.ateof then (if c then s.callcb none else s)
  else if c ∧ s.p.pktbuf ≠ [] then s.callgetpkt
  else s

/-- `skip` is what the first `writev` accepts where it is tried. -/
def sendv (s : AxprtHold) (iov : List (List Byte)) (skip : Option ℕ) (ws : List (Option ℕ)) :
    Except Stop AxprtHold :=
  let len := BitVec.ofNat 32 iov.flatten.length
  -- panic ("axprt_pipe::sendv: called after an EOF\n")
  if s.p.ateof then .error .disabled
  else if s.p.pktsize < len.toNat then .ok (if s.p.foosp then s.fail else s)
  else
    let s := { s with p := { s.p with rawBytesSent := s.p.rawBytesSent + len.toNat + 4 } }
    let bytes := htonl (0x80000000 ||| len) ++ iov.flatten
    if s.p.out = [] ∧ iov.length < 16 then
      match skip with
      | none => .ok s.fail
      | some n => .ok ({ s with p := { s.p with out := bytes.drop n } }.output ws)
    else .ok ({ s with p := { s.p with out := s.p.out ++ bytes } }.output ws)

def ungetpkt (s : AxprtHold) (pkt : List Byte) : Except Stop AxprtHold :=
  if pkt.length ≤ s.p.pktsize ∧ s.p.pktbuf = [] then
    let s := { s with p :=
      { s.p with pktbuf := htonl (0x80000000 ||| BitVec.ofNat 32 pkt.length) ++ pkt } }
    .ok (if s.p.cb then s.callgetpkt else s)
  else .error .disabled

def reclaim (s : AxprtHold) : AxprtHold :=
  { s with p := { s.p with ateof := true, wcbset := false } }.fail

def input (s : AxprtHold) (chunk : Option (List Byte)) : AxprtHold :=
  let s := { s with stack := .input :: s.stack }
  match chunk with
  | none => s
  | some [] => s.fail
  | some chunk => { s with p := { s.p with pktbuf := s.p.pktbuf ++ chunk } }.callgetpkt

/-- `doread` reads no more than there is room for. -/
def Fits (s : AxprtHold) (chunk : Option (List Byte)) : Prop :=
  ∀ b ∈ chunk, b.length ≤ s.p.room

instance (s : AxprtHold) (chunk : Option (List Byte)) : Decidable (s.Fits chunk) :=
  inferInstanceAs (Decidable (∀ b ∈ chunk, b.length ≤ s.p.room))

/-- Other code calls the transport as long as it has a reference, and the event loop as long as it
waits for a descriptor. -/
def step (s : AxprtHold) : Event → Except Stop AxprtHold
  | .take => if 0 < s.refs then .ok { s with refs := s.refs + 1 } else .error .disabled
  | .drop ws =>
    if 0 < s.refs then .ok ({ s with refs := s.refs - 1 }.release ws) else .error .disabled
  | .setrcb c => if 0 < s.refs then (s.setrcb c).settle [] else .error .disabled
  | .sendv iov skip ws =>
    if 0 < s.refs then do
      let s ← s.sendv iov skip ws
      s.settle []
    else .error .disabled
  | .sendbreak ws =>
    if 0 < s.refs then
      ({ s with p := { s.p with out := s.p.out ++ [0, 0, 0, 0] } }.output ws).settle []
    else .error .disabled
  | .ungetpkt pkt =>
    if 0 < s.refs then do
      let s ← s.ungetpkt pkt
      s.settle []
    else .error .disabled
  | .reclaim => if 0 < s.refs then s.reclaim.settle [] else .error .disabled
  | .ret ws =>
    match s.stack with
    | .user :: fs => unwind ws fs s
    | _ => .error .disabled
  | .input chunk =>
    if s.stack = [] ∧ s.p.ateof = false ∧ s.p.cb = true ∧ s.Fits chunk then
      if s.destroyed then .error .freed else (s.input chunk).settle []
    else .error .disabled
  | .output ws =>
    if s.stack = [] ∧ s.p.wcbset = true then
      if s.destroyed then .error .freed else (s.output ws).settle []
    else .error .disabled
  -- assert (cb); assert (!ateof ()); panic from within a callback
  | .poll chunk =>
    if 0 < s.refs ∧ s.p.cb = true ∧ s.p.ateof = false ∧ s.ingetpkt = false ∧ s.Fits chunk then
      (s.input chunk).settle []
    else .error .disabled
  | .pollOutput ws =>
    if 0 < s.refs ∧ s.p.cb = true ∧ s.p.ateof = false ∧ s.ingetpkt = false ∧
        s.p.wcbset = true then
      (s.output ws).settle []
    else .error .disabled

def alloc (pktsize : ℕ) (foosp : Bool) : AxprtHold :=
  ⟨{ AxprtPipe.alloc pktsize with foosp := foosp }, false, false, 1, []⟩

/-- Other code runs; it was called by the event loop or other code, by way of the functions of the
transport that are between. -/
inductive Settled : List PipeFrame → Prop
  | nil : Settled []
  | user {fs : List PipeFrame} : Settled fs → Settled (.user :: fs)
  | fail {fs : List PipeFrame} : Settled fs → Settled (.user :: .fail :: fs)
  | failInput {fs : List PipeFrame} : Settled fs → Settled (.user :: .fail :: .input :: fs)
  | failOutput {fs : List PipeFrame} : Settled fs → Settled (.user :: .fail :: .output :: fs)
  | loop {fs : List PipeFrame} (b : List Byte) :
      Settled fs → Settled (.user :: .callgetpkt b :: fs)
  | loopInput {fs : List PipeFrame} (b : List Byte) :
      Settled fs → Settled (.user :: .callgetpkt b :: .input :: fs)
  | eof {fs : List PipeFrame} : Settled fs → Settled (.user :: .eof :: fs)
  | eofInput {fs : List PipeFrame} : Settled fs → Settled (.user :: .eof :: .input :: fs)

/-- The transport is destroyed when there is no reference left, and then the event loop does not
wait for its descriptors. -/
structure Counted (s : AxprtHold) : Prop where
  count : s.destroyed = true ↔ s.count = 0
  closed : s.destroyed = true → s.p.ateof = true ∧ s.p.wcbset = false

structure Good (s : AxprtHold) : Prop where
  stack : Settled s.stack
  counted : s.Counted

variable {s s' : AxprtHold} {fs t : List PipeFrame} {ws : List (Option ℕ)} {b : List Byte}

attribute [local simp] unwind in
theorem unwind_settled (h : Settled fs) (ws : List (Option ℕ)) (s : AxprtHold) :
    unwind ws fs s = .ok { s with stack := fs } := by
  cases h <;> rfl

theorem count_eq (s : AxprtHold) : s.count = s.refs + (s.stack.map PipeFrame.holds).sum := rfl

theorem counted_of_pos (hd : s.destroyed = false) (hcount : 0 < s.count) : s.Counted :=
  ⟨iff_of_false (by simp [hd]) hcount.ne', by simp [hd]⟩

theorem Counted.alive (h : s.Counted) (hcount : 0 < s.count) : s.destroyed = false := by
  rw [← Bool.not_eq_true]
  exact fun hd => hcount.ne' (h.count.mp hd)

/-- What does not change who refers to the transport. -/
structure Same (s s' : AxprtHold) : Prop where
  destroyed : s'.destroyed = s.destroyed
  refs : s'.refs = s.refs

theorem fail_spec (s : AxprtHold) : Same s s.fail ∧
    (s.fail.stack = s.stack ∨ s.destroyed = false ∧ s.fail.stack = .user :: .fail :: s.stack) := by
  by_cases hd : s.destroyed = true
  · simp only [fail, if_pos hd]
    exact ⟨⟨rfl, rfl⟩, Or.inl trivial⟩
  · by_cases hcb : s.p.cb = true ∧ ¬ s.ingetpkt = true
    · simp only [fail, if_neg hd, if_pos hcb]
      exact ⟨⟨rfl, rfl⟩, Or.inr ⟨by simpa using hd, rfl⟩⟩
    · simp only [fail, if_neg hd, if_neg hcb]
      exact ⟨⟨rfl, rfl⟩, Or.inl trivial⟩

theorem output_spec (s : AxprtHold) (ws : List (Option ℕ)) : Same s (s.output ws) ∧
    ((s.output ws).stack = s.stack ∨ (s.output ws).stack = .output :: s.stack ∨
      (s.output ws).stack = .user :: .fail :: .output :: s.stack) := by
  generalize hws : (if s.p.ateof then [none] else ws) = ws'
  rcases hloop : AxprtPipe.outputLoop (ws'.length + 1) ws' s.p.out with ⟨n, out, w⟩
  by_cases hn : n < 0
  · simp only [output, hws, hloop, if_pos hn]
    obtain ⟨hsame, hstack⟩ := fail_spec
      { s with p := { s.p with out := out }, stack := .output :: s.stack }
    exact ⟨⟨hsame.destroyed, hsame.refs⟩, Or.inr (hstack.imp id And.right)⟩
  · simp only [output, hws, hloop, if_neg hn]
    exact ⟨⟨rfl, rfl⟩, Or.inl trivial⟩

theorem fail_destroyed (h : s.destroyed = true) :
    s.fail = { s with p := { s.p with ateof := true, wcbset := false } } := by
  simp only [fail, if_pos h]

theorem delete_spec (s : AxprtHold) (ws : List (Option ℕ)) :
    (s.delete ws).destroyed = true ∧ (s.delete ws).refs = s.refs ∧
      (s.delete ws).stack = s.stack ∧ (s.delete ws).p.ateof = true ∧
      (s.delete ws).p.wcbset = false := by
  rcases hloop : AxprtPipe.outputLoop (ws.length + 1) ws s.p.out with ⟨n, out, w⟩
  by_cases hout : ¬ s.p.ateof = true ∧ s.p.out ≠ []
  · by_cases hn : n < 0
    · simp only [delete, if_pos hout, hloop, if_pos hn, fail_destroyed, and_self]
    · simp only [delete, if_pos hout, hloop, if_neg hn, fail_destroyed, and_self]
  · simp only [delete, if_neg hout, fail_destroyed, and_self]

theorem release_spec (hs : s.destroyed = false) (ws : List (Option ℕ)) :
    (s.release ws).Counted ∧ (s.release ws).refs = s.refs ∧ (s.release ws).stack = s.stack := by
  by_cases hcount : s.count = 0
  · obtain ⟨hdestroyed, hrefs, hstack, hclosed⟩ := delete_spec s ws
    rw [release, if_pos hcount]
    refine ⟨⟨iff_of_true hdestroyed ?_, fun _ => hclosed⟩, hrefs, hstack⟩
    rw [count_eq, hrefs, hstack, ← count_eq, hcount]
  · rw [release, if_neg hcount]
    exact ⟨counted_of_pos hs (Nat.pos_of_ne_zero hcount), rfl, rfl⟩

theorem good_of_stack (hs : s.Counted) (hfs : Settled fs) (hstack : s.stack = fs) :
    Good { s with stack := fs } := by
  rw [← hstack] at hfs ⊢
  exact ⟨hfs, hs⟩

theorem unwind_input (ws : List (Option ℕ)) (hfs : Settled fs) (ht : t = fs ∨ t = .input :: fs)
    (hstack : s.stack = t) (hs : s.Counted) : ∃ s', unwind ws t s = .ok s' ∧ s'.Good := by
  rcases ht with rfl | rfl
  · exact ⟨_, unwind_settled hfs ws s, good_of_stack hs hfs hstack⟩
  · -- `input` has a reference
    have hcount : 0 < s.count := by
      rw [count_eq, hstack, List.map_cons, List.sum_cons, PipeFrame.holds]
      omega
    have hd : ({ s with stack := fs } : AxprtHold).destroyed = false := hs.alive hcount
    obtain ⟨hcounted, -, hstack'⟩ := release_spec hd ws
    exact ⟨_, unwind_settled hfs ws _, good_of_stack hcounted hfs hstack'⟩

theorem unwind_callgetpkt (ws : List (Option ℕ)) (b : List Byte) (hfs : Settled fs)
    (ht : t = fs ∨ t = .input :: fs) (hd : s.destroyed = false) :
    unwind ws (.callgetpkt b :: t) s = .error .disabled ∨
      ∃ s', unwind ws (.callgetpkt b :: t) s = .ok s' ∧ s'.Good := by
  have hthere : ¬ s.destroyed = true := by simp [hd]
  have hcalled : ∀ (p : AxprtPipe) (g : Bool) (f : PipeFrame) (pkt : Option (List Byte)),
      f.holds = 1 → Settled (.user :: f :: t) →
      Good (callcb { s with p := p, ingetpkt := g, stack := f :: t } pkt) := by
    intro p g f pkt hf hsettled
    refine ⟨hsettled, counted_of_pos hd ?_⟩
    simp only [count_eq, callcb, List.map_cons, List.sum_cons, hf]
    omega
  have hreleased : ∀ p : AxprtPipe, ∃ s',
      unwind ws t (release { s with p := p, ingetpkt := false, stack := t } ws) = .ok s' ∧
        s'.Good := by
    intro p
    have hd' : ({ s with p := p, ingetpkt := false, stack := t } : AxprtHold).destroyed = false :=
      hd
    obtain ⟨hcounted, -, hstack'⟩ := release_spec hd' ws
    exact unwind_input ws hfs ht hstack' hcounted
  have hloop : ∀ b, Settled (.user :: .callgetpkt b :: t) := by
    rcases ht with rfl | rfl
    · exact fun b => .loop b hfs
    · exact fun b => .loopInput b hfs
  have heof : Settled (.user :: .eof :: t) := by
    rcases ht with rfl | rfl
    · exact .eof hfs
    · exact .eofInput hfs
  rw [unwind, if_neg hthere]
  cases hscan : scan (b.length + 1) s.p b with
  | none => exact Or.inl rfl
  | some r =>
    cases r with
    | pkt m b' p => exact Or.inr ⟨_, rfl, hcalled p s.ingetpkt _ _ rfl (hloop b')⟩
    | done b' p =>
      simp only
      by_cases heof' : p.ateof = true
      · rw [if_pos heof']
        by_cases hcb : p.cb = true
        · rw [if_pos hcb]
          exact Or.inr ⟨_, rfl, hcalled p s.ingetpkt _ _ rfl heof⟩
        · rw [if_neg hcb]
          exact Or.inr (hreleased p)
      · rw [if_neg heof']
        by_cases hlen : b'.length < p.pktsize
        · rw [if_pos hlen]
          exact Or.inr (hreleased _)
        · rw [if_neg hlen]
          exact Or.inl rfl

theorem settle_spec (hfs : Settled fs) (hd : s.destroyed = false) (hrefs : 0 < s.refs)
    (hstack : s.stack = fs ∨ s.stack = .output :: fs ∨ s.stack = .user :: .fail :: fs ∨
      s.stack = .user :: .fail :: .output :: fs ∨ s.stack = .user :: fs) :
    ∃ s', s.settle ws = .ok s' ∧ s'.Good := by
  have hcounted : ∀ l, ({ s with stack := l } : AxprtHold).Counted := by
    intro l
    refine counted_of_pos hd ?_
    rw [count_eq]
    exact Nat.add_pos_left hrefs _
  rw [settle]
  rcases hstack with hstack | hstack | hstack | hstack | hstack
  · rw [hstack]
    exact ⟨_, unwind_settled hfs ws s, hfs, hcounted fs⟩
  · rw [hstack, unwind, if_neg (by simp [hd])]
    exact ⟨_, unwind_settled hfs ws _, hfs, hcounted fs⟩
  · rw [hstack]
    exact ⟨_, rfl, .fail hfs, hcounted _⟩
  · rw [hstack]
    exact ⟨_, rfl, .failOutput hfs, hcounted _⟩
  · rw [hstack]
    exact ⟨_, rfl, .user hfs, hcounted _⟩

/-- The callback returns that `fail` has called for an error of a write in `output`, and no
reference is left. -/
def Lost (s : AxprtHold) (e : Event) : Prop :=
  ∃ ws fs, e = .ret ws ∧ s.stack = .user :: .fail :: .output :: fs ∧
    s.refs + (fs.map PipeFrame.holds).sum = 0

theorem Good.alive (h : s.Good) (hrefs : 0 < s.refs) : s.destroyed = false :=
  h.counted.alive (Nat.add_pos_left hrefs _)

theorem unwind_fail (ws : List (Option ℕ)) (hd : s.destroyed = false) (hfs : Settled fs)
    (ht : t = fs ∨ t = .input :: fs) : ∃ s', unwind ws (.fail :: t) s = .ok s' ∧ s'.Good := by
  obtain ⟨hcounted, -, hstack⟩ :=
    release_spec (s := { s with p := { s.p with out := [] }, stack := t }) hd ws
  rw [unwind, if_neg (by simp [hd])]
  exact unwind_input ws hfs ht hstack hcounted

theorem unwind_eof (ws : List (Option ℕ)) (hd : s.destroyed = false) (hfs : Settled fs)
    (ht : t = fs ∨ t = .input :: fs) : ∃ s', unwind ws (.eof :: t) s = .ok s' ∧ s'.Good := by
  obtain ⟨hcounted, -, hstack⟩ :=
    release_spec (s := { s with ingetpkt := false, stack := t }) hd ws
  rw [unwind, if_neg (by simp [hd])]
  exact unwind_input ws hfs ht hstack hcounted

theorem unwind_failOutput (ws : List (Option ℕ)) (hd : s.destroyed = false) (hfs : Settled fs) :
    (s.refs + (fs.map PipeFrame.holds).sum = 0 ∧
        unwind ws (.fail :: .output :: fs) s = .error .freed) ∨
      s.refs + (fs.map PipeFrame.holds).sum ≠ 0 ∧
        ∃ s', unwind ws (.fail :: .output :: fs) s = .ok s' ∧ s'.Good := by
  obtain ⟨hcounted, hrefs, hstack⟩ :=
    release_spec (s := { s with p := { s.p with out := [] }, stack := .output :: fs }) hd ws
  rw [unwind, if_neg (by simp [hd])]
  generalize release { s with p := { s.p with out := [] }, stack := .output :: fs } ws = s₁ at *
  have hcount : s₁.count = s.refs + (fs.map PipeFrame.holds).sum := by
    rw [count_eq, hstack, hrefs, List.map_cons, List.sum_cons, PipeFrame.holds, Nat.zero_add]
  have hzero_iff := hcounted.count
  rw [hcount] at hzero_iff
  by_cases hzero : s.refs + (fs.map PipeFrame.holds).sum = 0
  · refine Or.inl ⟨hzero, ?_⟩
    rw [unwind, if_pos (hzero_iff.mpr hzero)]
  · refine Or.inr ⟨hzero, { s₁ with stack := fs }, ?_, hfs, ?_, hcounted.closed⟩
    · rw [unwind, if_neg fun hd => hzero (hzero_iff.mp hd), unwind_settled hfs]
    · rw [count_eq]
      simp only [hrefs]
      exact hzero_iff

theorem ret_spec (h : s.Good) (ws : List (Option ℕ)) :
    (s.Lost (.ret ws) ∧ s.step (.ret ws) = .error .freed) ∨
      ¬ s.Lost (.ret ws) ∧
        (s.step (.ret ws) = .error .disabled ∨ ∃ s', s.step (.ret ws) = .ok s' ∧ s'.Good) := by
  have hcounted := h.counted
  have hheld : ∀ f t, s.stack = .user :: f :: t → f.holds = 1 → s.destroyed = false := by
    intro f t hstack hf
    refine hcounted.alive ?_
    rw [count_eq, hstack]
    simp only [List.map_cons, List.sum_cons, hf]
    omega
  have hstep : ∀ t, s.stack = .user :: t → s.step (.ret ws) = unwind ws t s := by
    intro t hstack
    simp only [step, hstack]
  have hkept : ∀ t, s.stack = .user :: t → (∀ fs, t ≠ .fail :: .output :: fs) →
      ¬ s.Lost (.ret ws) := by
    rintro t hstack hne ⟨-, fs, -, hstack', -⟩
    rw [hstack] at hstack'
    exact hne fs (List.cons.inj hstack').2
  have hsettled := h.stack
  generalize hstack : s.stack = stack at hsettled
  cases hsettled with
  | nil =>
    refine Or.inr ⟨?_, Or.inl (by simp only [step, hstack])⟩
    rintro ⟨-, fs, -, hstack', -⟩
    rw [hstack] at hstack'
    cases hstack'
  | @user fs hfs =>
    refine Or.inr ⟨hkept _ hstack ?_,
      Or.inr ⟨{ s with stack := fs }, ?_, hfs, ?_, hcounted.closed⟩⟩
    · rintro fs' rfl
      cases hfs
    · rw [hstep fs hstack, unwind_settled hfs]
    · have hcount := hcounted.count
      rw [count_eq, hstack, List.map_cons, List.sum_cons, PipeFrame.holds,
        Nat.zero_add] at hcount
      exact hcount
  | @fail fs hfs =>
    refine Or.inr ⟨hkept _ hstack ?_, Or.inr ?_⟩
    · rintro fs' heq
      rw [(List.cons.inj heq).2] at hfs
      cases hfs
    · rw [hstep _ hstack]
      exact unwind_fail ws (hheld _ _ hstack rfl) hfs (Or.inl rfl)
  | @failInput fs hfs =>
    refine Or.inr ⟨hkept _ hstack (by simp), Or.inr ?_⟩
    rw [hstep _ hstack]
    exact unwind_fail ws (hheld _ _ hstack rfl) hfs (Or.inr rfl)
  | @failOutput fs hfs =>
    rw [hstep _ hstack]
    rcases unwind_failOutput ws (hheld _ _ hstack rfl) hfs with ⟨hzero, hfreed⟩ | ⟨hzero, hok⟩
    · exact Or.inl ⟨⟨ws, fs, rfl, hstack, hzero⟩, hfreed⟩
    · refine Or.inr ⟨?_, Or.inr hok⟩
      rintro ⟨-, fs', -, hstack', hzero'⟩
      rw [hstack] at hstack'
      cases hstack'
      exact hzero hzero'
  | @loop fs b hfs =>
    refine Or.inr ⟨hkept _ hstack (by simp), ?_⟩
    rw [hstep _ hstack]
    exact unwind_callgetpkt ws b hfs (Or.inl rfl) (hheld _ _ hstack rfl)
  | @loopInput fs b hfs =>
    refine Or.inr ⟨hkept _ hstack (by simp), ?_⟩
    rw [hstep _ hstack]
    exact unwind_callgetpkt ws b hfs (Or.inr rfl) (hheld _ _ hstack rfl)
  | @eof fs hfs =>
    refine Or.inr ⟨hkept _ hstack (by simp), Or.inr ?_⟩
    rw [hstep _ hstack]
    exact unwind_eof ws (hheld _ _ hstack rfl) hfs (Or.inl rfl)
  | @eofInput fs hfs =>
    refine Or.inr ⟨hkept _ hstack (by simp), Or.inr ?_⟩
    rw [hstep _ hstack]
    exact unwind_eof ws (hheld _ _ hstack rfl) hfs (Or.inr rfl)

theorem called_spec (h : s.Good) (hrefs : 0 < s.refs) (hsame : Same s s')
    (hstack : s'.stack = s.stack ∨ s'.stack = .output :: s.stack ∨
      s'.stack = .user :: .fail :: s.stack ∨ s'.stack = .user :: .fail :: .output :: s.stack ∨
      s'.stack = .user :: s.stack) :
    ∃ s'', s'.settle [] = .ok s'' ∧ s''.Good :=
  settle_spec h.stack (hsame.destroyed.trans (h.alive hrefs)) (hsame.refs.symm ▸ hrefs) hstack

theorem called_fail (h : s.Good) (hrefs : 0 < s.refs) (p : AxprtPipe) :
    ∃ s', (fail { s with p := p }).settle [] = .ok s' ∧ s'.Good := by
  obtain ⟨hfail, hcases⟩ := fail_spec { s with p := p }
  refine called_spec h hrefs ⟨hfail.destroyed, hfail.refs⟩ ?_
  rcases hcases with heq | ⟨-, heq⟩
  · exact Or.inl heq
  · exact Or.inr (Or.inr (Or.inl heq))

theorem called_output (h : s.Good) (hrefs : 0 < s.refs) (p : AxprtPipe) (ws : List (Option ℕ)) :
    ∃ s', (output { s with p := p } ws).settle [] = .ok s' ∧ s'.Good := by
  obtain ⟨hout, hcases⟩ := output_spec { s with p := p } ws
  refine called_spec h hrefs ⟨hout.destroyed, hout.refs⟩ ?_
  rcases hcases with heq | heq | heq
  · exact Or.inl heq
  · exact Or.inr (Or.inl heq)
  · exact Or.inr (Or.inr (Or.inr (Or.inl heq)))

theorem called_callgetpkt (h : s.Good) (hrefs : 0 < s.refs) (p : AxprtPipe) :
    (callgetpkt { s with p := p }).settle [] = .error .disabled ∨
      ∃ s', (callgetpkt { s with p := p }).settle [] = .ok s' ∧ s'.Good := by
  have hd := h.alive hrefs
  by_cases hin : s.ingetpkt = true
  · rw [callgetpkt, if_pos hin]
    exact Or.inr (called_spec h hrefs ⟨rfl, rfl⟩ (Or.inl rfl))
  · rw [callgetpkt, if_neg hin, settle]
    exact unwind_callgetpkt [] _ h.stack (Or.inl rfl) hd

theorem setrcb_spec (h : s.Good) (hrefs : 0 < s.refs) (c : Bool) :
    (s.setrcb c).settle [] = .error .disabled ∨
      ∃ s', (s.setrcb c).settle [] = .ok s' ∧ s'.Good := by
  rw [setrcb]
  split_ifs
  · refine Or.inr (called_spec h hrefs ⟨rfl, rfl⟩ ?_)
    exact Or.inr (Or.inr (Or.inr (Or.inr rfl)))
  · exact Or.inr (called_spec h hrefs ⟨rfl, rfl⟩ (Or.inl rfl))
  · exact called_callgetpkt h hrefs _
  · exact Or.inr (called_spec h hrefs ⟨rfl, rfl⟩ (Or.inl rfl))

theorem sendv_spec (h : s.Good) (hrefs : 0 < s.refs) (iov : List (List Byte)) (skip : Option ℕ)
    (ws : List (Option ℕ)) :
    s.sendv iov skip ws = .error .disabled ∨
      ∃ s₁, s.sendv iov skip ws = .ok s₁ ∧ ∃ s', s₁.settle [] = .ok s' ∧ s'.Good := by
  rw [sendv]
  by_cases heof : s.p.ateof = true
  · rw [if_pos heof]
    exact Or.inl rfl
  rw [if_neg heof]
  refine Or.inr ?_
  by_cases hlen : s.p.pktsize < (BitVec.ofNat 32 iov.flatten.length).toNat
  · rw [if_pos hlen]
    by_cases hfoosp : s.p.foosp = true
    · rw [if_pos hfoosp]
      exact ⟨_, rfl, called_fail h hrefs s.p⟩
    · rw [if_neg hfoosp]
      exact ⟨_, rfl, called_spec h hrefs ⟨rfl, rfl⟩ (Or.inl rfl)⟩
  rw [if_neg hlen]
  by_cases hfast : s.p.out = [] ∧ iov.length < 16
  · simp only [if_pos hfast]
    cases skip with
    | none => exact ⟨_, rfl, called_fail h hrefs _⟩
    | some n => exact ⟨_, rfl, called_output h hrefs _ ws⟩
  · simp only [if_neg hfast]
    exact ⟨_, rfl, called_output h hrefs _ ws⟩

theorem ungetpkt_spec (h : s.Good) (hrefs : 0 < s.refs) (pkt : List Byte) :
    s.ungetpkt pkt = .error .disabled ∨
      ∃ s₁, s.ungetpkt pkt = .ok s₁ ∧
        (s₁.settle [] = .error .disabled ∨ ∃ s', s₁.settle [] = .ok s' ∧ s'.Good) := by
  by_cases hpkt : pkt.length ≤ s.p.pktsize ∧ s.p.pktbuf = []
  · rw [ungetpkt, if_pos hpkt]
    by_cases hcb : s.p.cb = true
    · simp only [if_pos hcb]
      exact Or.inr ⟨_, rfl, called_callgetpkt h hrefs _⟩
    · simp only [if_neg hcb]
      exact Or.inr ⟨_, rfl, Or.inr (called_spec h hrefs ⟨rfl, rfl⟩ (Or.inl rfl))⟩
  · rw [ungetpkt, if_neg hpkt]
    exact Or.inl rfl

theorem input_spec (hfs : Settled s.stack) (hd : s.destroyed = false) (chunk : Option (List Byte)) :
    (s.input chunk).settle [] = .error .disabled ∨
      ∃ s', (s.input chunk).settle [] = .ok s' ∧ s'.Good := by
  have hcounted : ∀ (s₁ : AxprtHold) (t : List PipeFrame), s₁.destroyed = false →
      s₁.stack = t ++ .input :: s.stack → s₁.Counted := by
    intro s₁ t hd₁ hstack₁
    refine counted_of_pos hd₁ ?_
    rw [count_eq, hstack₁, List.map_append, List.sum_append, List.map_cons, List.sum_cons,
      PipeFrame.holds]
    omega
  have hends : ∀ s₁ : AxprtHold, s₁.destroyed = false → s₁.stack = .input :: s.stack →
      ∃ s', s₁.settle [] = .ok s' ∧ s'.Good := by
    intro s₁ hd₁ hstack₁
    rw [settle, hstack₁]
    exact unwind_input [] hfs (Or.inr rfl) hstack₁ (hcounted s₁ [] hd₁ hstack₁)
  cases chunk with
  | none => exact Or.inr (hends _ hd rfl)
  | some chunk =>
    cases chunk with
    | nil =>
      obtain ⟨hsame, hcases⟩ := fail_spec { s with stack := .input :: s.stack }
      have hd' := hsame.destroyed.trans hd
      simp only [input]
      generalize fail { s with stack := .input :: s.stack } = s₁ at *
      rcases hcases with heq | ⟨-, heq⟩
      · exact Or.inr (hends s₁ hd' heq)
      · refine Or.inr ⟨s₁, ?_, ?_, hcounted s₁ [.user, .fail] hd' heq⟩
        · rw [settle, heq, unwind, ← heq]
        · rw [heq]
          exact .failInput hfs
    | cons b chunk =>
      simp only [input, callgetpkt]
      split_ifs
      · exact Or.inr (hends _ hd rfl)
      · exact unwind_callgetpkt [] _ hfs (Or.inr rfl) hd

theorem step_spec (h : s.Good) (e : Event) :
    (s.Lost e ∧ s.step e = .error .freed) ∨
      ¬ s.Lost e ∧ (s.step e = .error .disabled ∨ ∃ s', s.step e = .ok s' ∧ s'.Good) := by
  by_cases hret : ∃ ws, e = .ret ws
  · obtain ⟨ws, rfl⟩ := hret
    exact ret_spec h ws
  have hlost : ¬ s.Lost e := by
    rintro ⟨ws, -, heq, -⟩
    exact hret ⟨ws, heq⟩
  refine Or.inr ⟨hlost, ?_⟩
  have hloop : s.stack = [] → s.destroyed = false → 0 < s.refs := by
    intro hstack hd
    by_contra hzero
    have hcount : s.count = 0 := by
      rw [count_eq, hstack, List.map_nil, List.sum_nil]
      omega
    rw [h.counted.count.mpr hcount] at hd
    cases hd
  cases e with
  | take =>
    rw [step]
    split_ifs with hrefs
    · refine Or.inr ⟨{ s with refs := s.refs + 1 }, rfl, h.stack, ?_⟩
      exact counted_of_pos (h.alive hrefs) (Nat.add_pos_left (Nat.succ_pos _) _)
    · exact Or.inl rfl
  | drop ws =>
    rw [step]
    split_ifs with hrefs
    · obtain ⟨hcounted, -, hstack⟩ :=
        release_spec (s := { s with refs := s.refs - 1 }) (h.alive hrefs) ws
      refine Or.inr ⟨_, rfl, ?_, hcounted⟩
      rw [hstack]
      exact h.stack
    · exact Or.inl rfl
  | setrcb c =>
    rw [step]
    split_ifs with hrefs
    · exact setrcb_spec h hrefs c
    · exact Or.inl rfl
  | sendv iov skip ws =>
    rw [step]
    split_ifs with hrefs
    · rcases sendv_spec h hrefs iov skip ws with hstop | ⟨s₁, hs₁, hok⟩
      · rw [hstop]
        exact Or.inl rfl
      · rw [hs₁]
        exact Or.inr hok
    · exact Or.inl rfl
  | sendbreak ws =>
    rw [step]
    split_ifs with hrefs
    · exact Or.inr (called_output h hrefs _ ws)
    · exact Or.inl rfl
  | ungetpkt pkt =>
    rw [step]
    split_ifs with hrefs
    · rcases ungetpkt_spec h hrefs pkt with hstop | ⟨s₁, hs₁, hcases⟩
      · rw [hstop]
        exact Or.inl rfl
      · rw [hs₁]
        exact hcases
    · exact Or.inl rfl
  | reclaim =>
    rw [step]
    split_ifs with hrefs
    · exact Or.inr (called_fail h hrefs _)
    · exact Or.inl rfl
  | ret ws => exact absurd ⟨ws, rfl⟩ hret
  | input chunk =>
    rw [step]
    split_ifs with hready hd
    · have hclosed := (h.counted.closed hd).1
      rw [hready.2.1] at hclosed
      cases hclosed
    · exact input_spec h.stack (by simpa using hd) chunk
    · exact Or.inl rfl
  | output ws =>
    rw [step]
    split_ifs with hready hd
    · have hclosed := (h.counted.closed hd).2
      rw [hready.2] at hclosed
      cases hclosed
    · exact Or.inr (called_output h (hloop hready.1 (by simpa using hd)) s.p ws)
    · exact Or.inl rfl
  | poll chunk =>
    rw [step]
    split_ifs with hready
    · exact input_spec h.stack (h.alive hready.1) chunk
    · exact Or.inl rfl
  | pollOutput ws =>
    rw [step]
    split_ifs with hready
    · exact Or.inr (called_output h hready.1 s.p ws)
    · exact Or.inl rfl

theorem good_alloc (pktsize : ℕ) (foosp : Bool) : (alloc pktsize foosp).Good :=
  ⟨.nil, counted_of_pos rfl Nat.one_pos⟩

/-- In every run of the transport: the next step uses the transport or its queue behind its end if
and only if the callback returns from a call for an error of a write in `output`, and no reference
is left. -/
theorem axprtPipe_freed_iff {pktsize : ℕ} {foosp : Bool} {es : List Event}
    (hrun : es.foldlM step (alloc pktsize foosp) = .ok s) (e : Event) :
    s.step e = .error .freed ↔ s.Lost e := by
  have hgood : s.Good := by
    refine Lib.foldlM_ok_invariant (I := Good) ?_ (good_alloc pktsize foosp) hrun
    intro a e b ha hs
    rcases step_spec ha e with ⟨-, hfreed⟩ | ⟨-, hstop | ⟨s', hs', hgood⟩⟩
    · rw [hfreed] at hs
      cases hs
    · rw [hstop] at hs
      cases hs
    · rw [hs'] at hs
      cases hs
      exact hgood
  rcases step_spec hgood e with ⟨hlost, hfreed⟩ | ⟨hlost, hstop | ⟨s', hs', -⟩⟩
  · exact iff_of_true hfreed hlost
  · refine iff_of_false ?_ hlost
    rw [hstop]
    simp
  · refine iff_of_false ?_ hlost
    rw [hs']
    simp

theorem axprtPipe_freed_iff_output :
    ∃ s, [.setrcb true, .sendv [[1, 2]] (some 0) [], .output [none], .drop []].foldlM step
        (alloc 64 false) = .ok s ∧
      (s.step (.ret []) = .error .freed ↔ s.Lost (.ret [])) := by
  obtain ⟨s, hs⟩ : ∃ s, [.setrcb true, .sendv [[1, 2]] (some 0) [], .output [none],
      .drop []].foldlM step (alloc 64 false) = .ok s := ⟨_, rfl⟩
  exact ⟨s, hs, axprtPipe_freed_iff hs (.ret [])⟩

/-- A write fails, and the callback gives the last reference up: `output` then looks at the queue
of a transport that is destroyed. -/
theorem output_uses_freed :
    ¬ ∀ (pktsize : ℕ) (foosp : Bool) (es : List Event) (s : AxprtHold),
      es.foldlM step (alloc pktsize foosp) = .ok s → ∀ e, s.step e ≠ .error .freed := by
  intro hclaim
  obtain ⟨s, hs, hfreed⟩ : ∃ s, [.setrcb true, .sendv [[1, 2]] (some 0) [], .output [none],
      .drop []].foldlM step (alloc 64 false) = .ok s ∧
        s.step (.ret []) = .error .freed := ⟨_, rfl, rfl⟩
  exact hclaim 64 false _ s hs (.ret []) hfreed

end AxprtHold

end Sfslite.Arpc
