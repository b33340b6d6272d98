import Sfslite.Arpc.AxprtPipe
import Sfslite.Lib.Run

/-!
Calls over a stream: `aclnt::call` and `rpccb::init` over `axprt_pipe`, with what `xhinfo::dispatch`
and `aclnt::dispatch` do with the packets that arrive and with the end of the file.
-/

namespace Sfslite.Arpc.Aclnt

open Sfslite.Lib (Run)

/-- The statuses of `clnt_stat` that come from here, and all others that a reply decodes to. -/
inductive ClntStat where
  | success
  | cantsend
  | cantrecv
  | timedout
  | other
deriving DecidableEq

/-- The clients of one transport, with the numbers and xids of their calls outstanding. Counted with
them are the calls made; those whose whole request went to the transport, with its length in front;
those whose request it refused; and the callbacks that have run. -/
structure Clients where
  xprt : AxprtPipe
  calls : List (ℕ × BitVec 32)
  made : ℕ
  accepted : List ℕ
  refused : List ℕ
  finished : List (ℕ × ClntStat)
deriving DecidableEq

def Clients.start (xprt : AxprtPipe) : Clients :=
  { xprt := xprt, calls := [], made := 0, accepted := [], refused := [], finished := [] }

/-- What `xhinfo::dispatch` does with a packet. -/
inductive Dispatch where
  | seteof
  | serve
  | reply (xid : BitVec 32)

/-- `xhinfo::dispatch`, with `serves` for a server on the same transport. -/
def dispatch (serves : Bool) : Option (List Byte) → Dispatch
  | none => .seteof
  | some msg =>
    if msg.length < 8 ∨ msg.length % 4 ≠ 0 then .seteof
    else
      match getint msg with
      | none => .seteof
      | some (xid, rest) =>
        match getint rest with
        | none => .seteof
        | some (type, _) =>
          if type = 0 then if serves then .serve else .seteof
          else if type = 1 then .reply xid
          else .seteof

/-- What that does to the transport: `seteof` takes the receive callback away. -/
def rcb (serves : Bool) (recvd : List (Option (List Byte))) : CbAct :=
  match dispatch serves recvd.getLast?.join with
  | .seteof => .unset
  | .serve => .keep
  | .reply _ => .keep

section

variable (serves : Bool) (decodemsg : List Byte → ClntStat)

/-- What it does to the calls: `aclnt::fail`, or `finish` with the status of the reply. What a
callback does comes as further events. -/
def Clients.deliver (r : Clients) (msg : Option (List Byte)) : Clients :=
  match dispatch serves msg with
  | .seteof =>
    { r with calls := [], finished := r.finished ++ r.calls.map fun c => (c.1, .cantrecv) }
  | .serve => r
  | .reply xid =>
    match r.calls.find? fun c => c.2 = xid with
    | none => r
    | some c =>
      { r with
        calls := r.calls.erase c
        finished := r.finished ++ [(c.1, decodemsg (msg.getD []))] }

/-- The transport is `xprt` now, and has run its callback. -/
def Clients.moved (r : Clients) (xprt : AxprtPipe) : Clients :=
  (xprt.recvd.drop r.xprt.recvd.length).foldl (Clients.deliver serves decodemsg)
    { r with xprt := xprt }

/-- What happens to the clients: a call with its xid, request and the results of the writes, what
the transport reads and writes, and calls that are cancelled or time out. -/
inductive Event where
  | call (xid : BitVec 32) (iov : List (List Byte)) (skip : Option ℕ) (ws : List (Option ℕ))
  | input (chunk : List Byte)
  | output (ws : List (Option ℕ))
  | cancel (call : ℕ × BitVec 32)
  | expire (call : ℕ × BitVec 32)

/-- `aclnt::call` without `forget_call`; `genxid` gives an xid that is not in use. -/
def Clients.call (r : Clients) (xid : BitVec 32) (iov : List (List Byte)) (skip : Option ℕ)
    (ws : List (Option ℕ)) : Option Clients :=
  let r := { r with made := r.made + 1 }
  if r.xprt.ateof then some { r with finished := r.finished ++ [(r.made - 1, .cantsend)] }
  else if xid = 0 ∨ xid ∈ r.calls.map Prod.snd then none
  else do
    -- callbase::callbase, then rpccb::init, which drops the result of sendv
    let r := { r with calls := r.calls ++ [(r.made - 1, xid)] }
    let (ok, xprt, _) ← r.xprt.sendv (rcb serves) iov skip ws
    let whole := ok && iov.flatten.length < 2 ^ 32
    let r := { r with
      accepted := if whole then r.accepted ++ [r.made - 1] else r.accepted
      refused := if ok then r.refused else r.refused ++ [r.made - 1] }
    some (r.moved serves decodemsg xprt)

def Clients.step (r : Clients) : Event → Option Clients
  | .call xid iov skip ws => r.call serves decodemsg xid iov skip ws
  | .input chunk => do
      let xprt ← r.xprt.input (rcb serves) chunk
      some (r.moved serves decodemsg xprt)
  | .output ws =>
    if r.xprt.ateof then none
    else some (r.moved serves decodemsg (r.xprt.output (rcb serves) ws).1)
  | .cancel call => some { r with calls := r.calls.erase call }
  | .expire call =>
    if call ∈ r.calls then
      some { r with
        calls := r.calls.erase call, finished := r.finished ++ [(call.1, .timedout)] }
    else none

end

/-- The length that `sendv` computes is over the limit of the transport. -/
def TooLarge (p : AxprtPipe) (iov : List (List Byte)) : Prop :=
  p.pktsize < (BitVec.ofNat 32 iov.flatten.length).toNat

/-- `sendv` writes the request itself, and `writev` fails. -/
def Broken (p : AxprtPipe) (iov : List (List Byte)) (skip : Option ℕ) : Prop :=
  p.out = [] ∧ iov.length < 16 ∧ skip = none

/-- The condition on a call that goes to the transport: where it is refused the transport fails and
tells the clients, and where it is not its length fits the length word. -/
structure Heard (p : AxprtPipe) (iov : List (List Byte)) (skip : Option ℕ) : Prop where
  foosp : TooLarge p iov → p.foosp = true
  cb : TooLarge p iov ∨ Broken p iov skip → p.cb = true
  length_lt : ¬ TooLarge p iov → ¬ Broken p iov skip → iov.flatten.length < 2 ^ 32

def Met (r : Clients) : Event → Prop
  | .call _ iov skip _ => r.xprt.ateof = false → Heard r.xprt iov skip
  | _ => True

/-- A call is outstanding only if its whole request was accepted, and one that was refused was
finished with an error. -/
structure Clients.Settled (r : Clients) : Prop where
  accepted : ∀ c ∈ r.calls, c.1 ∈ r.accepted
  refused : ∀ n ∈ r.refused, ∃ stat, (n, stat) ∈ r.finished ∧ stat ≠ .success

variable {serves : Bool} {decodemsg : List Byte → ClntStat} {r r' : Clients}

theorem deliver_calls (r : Clients) (msg : Option (List Byte)) :
    ∀ c ∈ (r.deliver serves decodemsg msg).calls, c ∈ r.calls := by
  intro c hc
  unfold Clients.deliver at hc
  split at hc
  · exact absurd hc List.not_mem_nil
  · exact hc
  · split at hc
    · exact hc
    · exact List.mem_of_mem_erase hc

theorem deliver_finished (r : Clients) (msg : Option (List Byte)) :
    ∀ f ∈ r.finished, f ∈ (r.deliver serves decodemsg msg).finished := by
  intro f hf
  unfold Clients.deliver
  split
  · exact List.mem_append_left _ hf
  · exact hf
  · split
    · exact hf
    · exact List.mem_append_left _ hf

variable (serves decodemsg) in
theorem deliver_sent (r : Clients) (msg : Option (List Byte)) :
    (r.deliver serves decodemsg msg).accepted = r.accepted ∧
      (r.deliver serves decodemsg msg).refused = r.refused := by
  unfold Clients.deliver
  split
  · exact ⟨rfl, rfl⟩
  · exact ⟨rfl, rfl⟩
  · split
    · exact ⟨rfl, rfl⟩
    · exact ⟨rfl, rfl⟩

theorem Clients.Settled.deliver (h : r.Settled) (msg : Option (List Byte)) :
    (r.deliver serves decodemsg msg).Settled := by
  obtain ⟨haccepted, hrefused⟩ := deliver_sent serves decodemsg r msg
  refine ⟨fun c hc => ?_, fun n hn => ?_⟩
  · rw [haccepted]
    exact h.accepted c (deliver_calls r msg c hc)
  · rw [hrefused] at hn
    obtain ⟨stat, hstat, herr⟩ := h.refused n hn
    exact ⟨stat, deliver_finished r msg _ hstat, herr⟩

theorem Clients.Settled.foldl_deliver (h : r.Settled) (msgs : List (Option (List Byte))) :
    (msgs.foldl (Clients.deliver serves decodemsg) r).Settled := by
  induction msgs generalizing r with
  | nil => exact h
  | cons msg msgs ih => exact ih (h.deliver msg)

theorem Clients.Settled.moved (h : r.Settled) (xprt : AxprtPipe) :
    (r.moved serves decodemsg xprt).Settled := by
  have hstart : Clients.Settled { r with xprt := xprt } := ⟨h.accepted, h.refused⟩
  exact hstart.foldl_deliver _

theorem recvd_fail (p : AxprtPipe) (hcb : p.cb = true) :
    (p.fail (rcb serves) false).recvd = p.recvd ++ [none] := by
  unfold AxprtPipe.fail
  simp only [hcb, Bool.false_eq_true, not_false_eq_true, and_self, if_true, AxprtPipe.callcb]
  split <;> rfl

variable {iov : List (List Byte)} {skip : Option ℕ} {ws : List (Option ℕ)}

theorem sendv_cases {p p' : AxprtPipe} {ok : Bool} {w : List Byte}
    (h : p.sendv (rcb serves) iov skip ws = some (ok, p', w)) :
    (ok = true ∧ ¬ TooLarge p iov ∧ ¬ Broken p iov skip) ∨
      (ok = false ∧ TooLarge p iov ∧ p.foosp = false ∧ p' = p) ∨
      (ok = false ∧ (TooLarge p iov ∨ Broken p iov skip) ∧ (TooLarge p iov → p.foosp = true) ∧
        ∃ q : AxprtPipe, q.recvd = p.recvd ∧ q.cb = p.cb ∧ p' = q.fail (rcb serves) false) := by
  unfold AxprtPipe.sendv at h
  dsimp only at h
  split_ifs at h with heof hlarge hfoosp hdirect
  · obtain ⟨rfl, hrest⟩ := Prod.mk.inj (Option.some.inj h)
    exact Or.inr (Or.inr ⟨rfl, Or.inl hlarge, fun _ => hfoosp, p, rfl, rfl,
      (Prod.mk.inj hrest).1.symm⟩)
  · obtain ⟨rfl, hrest⟩ := Prod.mk.inj (Option.some.inj h)
    exact Or.inr (Or.inl ⟨rfl, hlarge, Bool.eq_false_iff.mpr hfoosp, (Prod.mk.inj hrest).1.symm⟩)
  · cases skip with
    | none =>
      obtain ⟨rfl, hrest⟩ := Prod.mk.inj (Option.some.inj h)
      exact Or.inr (Or.inr ⟨rfl, Or.inr ⟨hdirect.1, hdirect.2, rfl⟩,
        fun h => absurd h hlarge, { p with
          rawBytesSent := p.rawBytesSent + (BitVec.ofNat 32 iov.flatten.length).toNat + 4 },
        rfl, rfl, (Prod.mk.inj hrest).1.symm⟩)
    | some n =>
      obtain ⟨rfl, -⟩ := Prod.mk.inj (Option.some.inj h)
      exact Or.inl ⟨rfl, hlarge, fun hbroken => absurd hbroken.2.2 (by simp)⟩
  · obtain ⟨rfl, -⟩ := Prod.mk.inj (Option.some.inj h)
    exact Or.inl ⟨rfl, hlarge, fun hbroken => hdirect ⟨hbroken.1, hbroken.2.1⟩⟩

/-- The clients before the transport has a word: the call is in the queue, and `ok` is the result
of `sendv`. -/
def Clients.sent (r : Clients) (xid : BitVec 32) (ok whole : Bool) : Clients :=
  { r with
    calls := r.calls ++ [(r.made, xid)]
    made := r.made + 1
    accepted := if whole then r.accepted ++ [r.made] else r.accepted
    refused := if ok then r.refused else r.refused ++ [r.made] }

theorem call_cases {xid : BitVec 32} (h : r.call serves decodemsg xid iov skip ws = some r') :
    (r.xprt.ateof = true ∧ r' = { r with
      made := r.made + 1, finished := r.finished ++ [(r.made, .cantsend)] }) ∨
    (r.xprt.ateof = false ∧ ∃ ok xprt w,
      r.xprt.sendv (rcb serves) iov skip ws = some (ok, xprt, w) ∧
      r' = (r.sent xid ok (ok && iov.flatten.length < 2 ^ 32)).moved serves decodemsg xprt) := by
  unfold Clients.call at h
  dsimp only at h
  split_ifs at h with heof hxid
  · exact Or.inl ⟨heof, (Option.some.inj h).symm⟩
  · obtain ⟨⟨ok, xprt, w⟩, hsend, hrest⟩ := Option.bind_eq_some_iff.mp h
    exact Or.inr ⟨Bool.eq_false_iff.mpr heof, ok, xprt, w, hsend, (Option.some.inj hrest).symm⟩

theorem Clients.Settled.call {xid : BitVec 32} (h : r.Settled)
    (hheard : r.xprt.ateof = false → Heard r.xprt iov skip)
    (hcall : r.call serves decodemsg xid iov skip ws = some r') : r'.Settled := by
  obtain ⟨-, rfl⟩ | ⟨heof, ok, xprt, w, hsend, rfl⟩ := call_cases hcall
  · refine ⟨h.accepted, fun n hn => ?_⟩
    obtain ⟨stat, hstat, herr⟩ := h.refused n hn
    exact ⟨stat, List.mem_append_left _ hstat, herr⟩
  have hmet := hheard heof
  obtain ⟨rfl, hfits, hwrites⟩ | ⟨-, hlarge, hfoosp, -⟩ | ⟨rfl, hfails, -, q, hrecvd, hcb, rfl⟩ :=
    sendv_cases hsend
  · have hwhole : (true && decide (iov.flatten.length < 2 ^ 32)) = true := by
      simpa using hmet.length_lt hfits hwrites
    rw [hwhole]
    refine Clients.Settled.moved (r := r.sent xid true true)
      ⟨fun c hc => ?_, fun n hn => h.refused n hn⟩ xprt
    rcases List.mem_append.mp hc with hc | hc
    · exact List.mem_append_left _ (h.accepted c hc)
    · rw [List.mem_singleton.mp hc]
      exact List.mem_append_right _ (List.mem_singleton.mpr rfl)
  · rw [hmet.foosp hlarge] at hfoosp
    exact absurd hfoosp (by decide)
  · -- every call is told, this one among them
    have htold : (q.fail (rcb serves) false).recvd.drop r.xprt.recvd.length = [none] := by
      rw [recvd_fail q (hcb.trans (hmet.cb hfails)), hrecvd, List.drop_left]
    rw [Clients.moved]
    have hsame : (r.sent xid false (false && decide (iov.flatten.length < 2 ^ 32))).xprt =
        r.xprt := rfl
    rw [hsame, htold]
    refine ⟨fun c hc => absurd hc List.not_mem_nil, fun n hn => ?_⟩
    rcases List.mem_append.mp hn with hn | hn
    · obtain ⟨stat, hstat, herr⟩ := h.refused n hn
      exact ⟨stat, List.mem_append_left _ hstat, herr⟩
    · rw [List.mem_singleton.mp hn]
      refine ⟨.cantrecv, List.mem_append_right _ (List.mem_map.mpr ⟨(r.made, xid), ?_, rfl⟩),
        by decide⟩
      exact List.mem_append_right _ (List.mem_singleton.mpr rfl)

theorem Clients.Settled.step (h : r.Settled) {e : Event} (hmet : Met r e)
    (hstep : r.step serves decodemsg e = some r') : r'.Settled := by
  cases e with
  | call xid iov skip ws => exact h.call hmet hstep
  | input chunk =>
    obtain ⟨xprt, -, hrest⟩ := Option.bind_eq_some_iff.mp hstep
    rw [← Option.some.inj hrest]
    exact h.moved xprt
  | output ws =>
    rw [Clients.step] at hstep
    split_ifs at hstep
    rw [← Option.some.inj hstep]
    exact h.moved _
  | cancel call =>
    rw [← Option.some.inj hstep]
    exact ⟨fun c hc => h.accepted c (List.mem_of_mem_erase hc), h.refused⟩
  | expire call =>
    rw [Clients.step] at hstep
    split_ifs at hstep
    rw [← Option.some.inj hstep]
    refine ⟨fun c hc => h.accepted c (List.mem_of_mem_erase hc), fun n hn => ?_⟩
    obtain ⟨stat, hstat, herr⟩ := h.refused n hn
    exact ⟨stat, List.mem_append_left _ hstat, herr⟩

/-- In every run whose calls meet the condition: what is outstanding was accepted, and what was
refused was finished with an error. -/
theorem run_settled {xprt : AxprtPipe} {es : List Event}
    (hrun : Run (Clients.step serves decodemsg) Met (Clients.start xprt) es r') :
    (∀ c ∈ r'.calls, c.1 ∈ r'.accepted) ∧
      ∀ n ∈ r'.refused, ∃ stat, (n, stat) ∈ r'.finished ∧ stat ≠ .success := by
  have hsettled : r'.Settled :=
    hrun.invariant ⟨fun c hc => absurd hc List.not_mem_nil, fun n hn => absurd hn List.not_mem_nil⟩
      fun _ _ _ h hmet hstep => h.step hmet hstep
  exact ⟨hsettled.accepted, hsettled.refused⟩

instance (p : AxprtPipe) (iov : List (List Byte)) (skip : Option ℕ) :
    Decidable (Heard p iov skip) :=
  haveI : Decidable (TooLarge p iov) := inferInstanceAs (Decidable (_ < _))
  haveI : Decidable (Broken p iov skip) := inferInstanceAs (Decidable (_ ∧ _))
  decidable_of_iff ((TooLarge p iov → p.foosp = true) ∧
    (TooLarge p iov ∨ Broken p iov skip → p.cb = true) ∧
      (¬ TooLarge p iov → ¬ Broken p iov skip → iov.flatten.length < 2 ^ 32))
    ⟨fun h => ⟨h.1, h.2.1, h.2.2⟩, fun h => ⟨h.foosp, h.cb, h.length_lt⟩⟩

instance (r : Clients) (e : Event) : Decidable (Met r e) :=
  match e with
  | .call _ iov skip _ =>
    inferInstanceAs (Decidable (r.xprt.ateof = false → Heard r.xprt iov skip))
  | .input _ => inferInstanceAs (Decidable True)
  | .output _ => inferInstanceAs (Decidable True)
  | .cancel _ => inferInstanceAs (Decidable True)
  | .expire _ => inferInstanceAs (Decidable True)

/-- A transport for packets of 16 bytes that reports the end of the file to its clients. -/
def small (foosp : Bool) : AxprtPipe :=
  { AxprtPipe.alloc 16 with cb := true, foosp := foosp }

/-- A call that fits, and one that does not on a transport that then fails: both end. -/
theorem run_settled_small :
    ∃ r, Run (Clients.step false fun _ => .success) Met (Clients.start (small true))
        [.call 1 [List.replicate 12 0] (some 16) [], .call 2 [List.replicate 20 0] none []] r ∧
      (∀ c ∈ r.calls, c.1 ∈ r.accepted) ∧
        ∀ n ∈ r.refused, ∃ stat, (n, stat) ∈ r.finished ∧ stat ≠ .success := by
  have hrun : Run (Clients.step false fun _ => .success) Met (Clients.start (small true))
      [.call 1 [List.replicate 12 0] (some 16) [], .call 2 [List.replicate 20 0] none []] _ :=
    Run.of_checked rfl
  exact ⟨_, hrun, run_settled hrun⟩

/-- A request of 20 bytes on a transport for packets of 16: it is refused, and the call waits. -/
theorem call_too_large : ¬ ∀ (xprt : AxprtPipe) (es : List Event) (r : Clients),
    xprt.cb = true →
      es.foldlM (Clients.step false fun _ => .success) (Clients.start xprt) = some r →
        (∀ c ∈ r.calls, c.1 ∈ r.accepted) ∧
          ∀ n ∈ r.refused, ∃ stat, (n, stat) ∈ r.finished ∧ stat ≠ .success := by
  intro h
  have hbad := (h (small false) [.call 1 [List.replicate 20 0] none []] _ rfl rfl).1 (0, 1)
    (by decide)
  revert hbad
  decide

end Sfslite.Arpc.Aclnt
