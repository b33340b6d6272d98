import Mathlib.Algebra.Order.BigOperators.Group.List
import Mathlib.Data.List.Perm.Subperm
import Mathlib.Data.Prod.Lex
import Sfslite.Async.Srvlist
import Sfslite.Async.Tcpconnect

/-!
`tcpconnect_srv` of `tcpconnect.C`: a connection to one of the servers of a service. The address and
the list of the servers are looked up at the same time, and the attempts at the servers overlap.
-/

namespace Sfslite.Async

open Sfslite.Arpc (Byte)
open Dnsparse (Hostent Name Srvlist Srvrec strcasecmp)

/-- `dnsreq_cancel`: a failure that `delaycb` is to report stays there. -/
def Lookup.cancel : Lookup → Lookup
  | .waiting => .none
  | l => l

/-- A lookup as it is made: it waits, or it has failed. -/
def Lookup.ask (failure : Option ℕ) : Lookup := failure.elim .waiting .delayed

def Reply.isFd : Reply → Bool
  | .fd _ => true
  | .error _ => false

/-- What an attempt connects to. -/
inductive Dest where
  | addr (a : List Byte)
  | name (n : Name)
deriving DecidableEq, Repr

/-- An attempt, and whether it has failed and `delaycb` is to report that. -/
structure Con where
  dest : Dest
  port : BitVec 16
  delayed : Bool
deriving DecidableEq

def Con.cancel (c : Con) : Option Con := if c.delayed then some c else none

/-- A request, with the list that `delaycb` is to give it, the attempt by name whose lookup is being
sent, and whether `nextsrv` came to its server again; the calls of its callback, the servers that
were tried, the attempts that failed and the descriptors of those that succeeded. -/
structure SrvConnect where
  defport : BitVec 16
  dnserr : ℕ
  areq : Lookup
  h : Option Hostent
  srvreq : Lookup
  srvl : Option Srvlist
  tmo : Bool
  cons : List (Option Con)
  cbad : ℕ
  error : Option Errno
  namep : Bool
  name : Option Name
  delayed : Option Srvlist
  making : Option Con
  again : Bool
  calls : List Reply
  tried : List ℕ
  failed : List ℕ
  connected : List ℕ
  freed : Bool
deriving DecidableEq

namespace SrvConnect

/-- A request is used that was deleted; a server is tried for the second time; or the event cannot
happen. -/
inductive Stop where
  | freed
  | again
  | disabled
deriving DecidableEq, Repr

/-- `(*cb) (fd)` and `delete this` -/
def finish (s : SrvConnect) (r : Reply) : SrvConnect :=
  { s with
    calls := s.calls ++ [r]
    freed := true
    cons := s.cons.map fun c => c.bind Con.cancel
    areq := s.areq.cancel
    srvreq := s.srvreq.cancel
    tmo := false }

/-- The error that is reported when there is more than one. -/
def mergeError (error : Option Errno) (errno : Errno) : Errno :=
  match error with
  | none => errno
  | some error =>
    if errno = .EAGAIN then errno
    else if error ≠ .EAGAIN ∧ errno ≠ .ENOENT then errno
    else error

/-- `srvl->s_srvs[cn].port = 0` -/
def zeroPort (cn : ℕ) (l : Srvlist) : Srvlist :=
  { l with srvs := l.srvs.modify cn fun r => { r with port := 0 } }

def noteFail (s : SrvConnect) (cn : ℕ) (errno : Errno) : SrvConnect :=
  { s with
    cons := s.cons.set cn none
    error := some (mergeError s.error errno)
    srvl := s.srvl.map (zeroPort cn)
    cbad := if s.srvl.isSome then s.cbad + 1 else s.cbad
    failed := s.failed ++ [cn] }

/-- `if (!srvl || ++cbad >= srvl->s_nsrv)` -/
def isLast (s : SrvConnect) : Bool :=
  match s.srvl with
  | none => true
  | some l => l.srvs.length ≤ s.cbad

/-- `connectcb (cn, -1)`, up to the attempt that may follow. -/
def fail (s : SrvConnect) (cn : ℕ) (errno : Errno) : SrvConnect :=
  let s := s.noteFail cn errno
  if s.isLast then s.finish (.error (s.error.getD errno)) else s

/-- A server that is not tried: the service is not there, or it has failed before. -/
def Void (r : Srvrec) : Prop := r.port = 0 ∨ r.name = []

instance (r : Srvrec) : Decidable (Void r) := inferInstanceAs (Decidable (_ ∨ _))

def dest (h : Option Hostent) (l : Srvlist) (r : Srvrec) : Dest :=
  let hint :=
    match l.hints.find? fun x => strcasecmp x.name r.name = 0 with
    | some x => Dest.addr x.address
    | none => .name r.name
  match h with
  | some h => if strcasecmp r.name h.name = 0 then .addr (h.addrList.headD []) else hint
  | none => hint

/-- `cons.push_back` of an attempt, and the timer. -/
def push (s : SrvConnect) (c : Con) : SrvConnect :=
  { s with tried := s.tried ++ [s.cons.length], cons := s.cons ++ [some c], tmo := true }

/-- `nextsrv` at the servers that are left. One that is void fails at once, and as it is the last of
`cons`, `connectcb` goes on with the next. An attempt at an address is there at once, and `delayed`
says how it starts; for one at a name a lookup is sent first. -/
def nextsrvLoop (l : Srvlist) (delayed : Bool) : List Srvrec → SrvConnect → SrvConnect
  | [], s => s
  | r :: rest, s =>
    if Void r then
      let s := { s with
        tried := s.tried ++ [s.cons.length], cons := s.cons ++ [none] }.fail s.cons.length .ENOENT
      if s.freed then s else nextsrvLoop l delayed rest s
    else
      match dest s.h l r with
      | .addr a => s.push ⟨.addr a, r.port, delayed⟩
      | .name n => { s with making := some ⟨.name n, r.port, false⟩ }

/-- Within the making of an attempt, which is not in `cons` yet, the next server is the same. -/
def nextsrv (s : SrvConnect) (delayed : Bool) : SrvConnect :=
  if s.making.isSome then { s with again := true }
  else
    match s.srvl with
    | none => s
    | some l => nextsrvLoop l delayed (l.srvs.drop s.cons.length) { s with tmo := false }

/-- `*namep`, and the port of a server that was connected to. -/
def setName (s : SrvConnect) (cn : ℕ) : SrvConnect :=
  if s.namep then
    match s.srvl with
    | some l =>
      { s with name := (l.srvs[cn]?).map Srvrec.name, srvl := some (zeroPort cn l) }
    | none => { s with name := s.h.map Hostent.name }
  else s

def connectcb (s : SrvConnect) (cn : ℕ) (r : Reply) (delayed : Bool) : SrvConnect :=
  match r with
  | .fd n =>
    ({ s with cons := s.cons.set cn none, connected := s.connected ++ [n] }.setName cn).finish
      (.fd n)
  | .error e =>
    let s := s.fail cn e
    if s.freed then s
    else if s.cons.getLast? = some none then s.nextsrv delayed
    else s

/-- What `maybe_start` keeps of the errors of the lookups. -/
def mergeDnserr (dnserr err : ℕ) : ℕ :=
  if err ≠ 0 ∧ err ≠ nxdomain ∧ err ≠ Dnsparse.arerrNxrec then
    if dnserr = 0 then err
    else if ¬ dnsTmperr dnserr ∧ dnsTmperr err then err
    else dnserr
  else dnserr

def maybeStart (s : SrvConnect) (err : ℕ) (delayed : Bool) : SrvConnect :=
  let s := { s with dnserr := mergeDnserr s.dnserr err }
  if s.srvreq ≠ .none ∨ s.srvl = none ∧ s.areq ≠ .none then s
  else if s.srvl.isSome then s.nextsrv delayed
  else
    match s.h with
    | some h =>
      if s.defport ≠ 0 then
        { s with cons := s.cons ++ [some ⟨.addr (h.addrList.headD []), s.defport, delayed⟩] }
      else s.finish (.error (if dnsTmperr s.dnserr then .EAGAIN else .ENOENT))
    | none => s.finish (.error (if dnsTmperr s.dnserr then .EAGAIN else .ENOENT))

def dnsacb (s : SrvConnect) (h : Option Hostent) (err : ℕ) (delayed : Bool) : SrvConnect :=
  { s with areq := .none, h := h }.maybeStart err delayed

def dnssrvcb (s : SrvConnect) (l : Option Srvlist) (err : ℕ) (delayed : Bool) : SrvConnect :=
  { s with srvreq := .none, srvl := l }.maybeStart err delayed

/-- The answers of the lookups; the list that was given; the lookup for an attempt was sent; an
attempt fails and leaves that to `delaycb`, or reports; or the timer. `delayed` says how an attempt
that is made starts. -/
inductive Event where
  | addr (h : Option Hostent) (err : ℕ) (delayed : Bool)
  | srv (l : Option Srvlist) (err : ℕ) (delayed : Bool)
  | list (delayed : Bool)
  | made (delayed : Bool)
  | fails (cn : ℕ)
  | report (cn : ℕ) (r : Reply) (delayed : Bool)
  | timeout (delayed : Bool)
deriving DecidableEq

/-- The request is used, and comes to `s'`. -/
def uses (s s' : SrvConnect) : Except Stop SrvConnect :=
  if s.freed then .error .freed else if s'.again then .error .again else .ok s'

/-- A lookup answers that waits, or its failure is reported; the list of an answer has a server. -/
def act (s : SrvConnect) : Event → Except Stop SrvConnect
  | .addr h err delayed =>
    if s.areq = .waiting ∨ h = none ∧ s.areq = .delayed err then s.uses (s.dnsacb h err delayed)
    else .error .disabled
  | .srv l err delayed =>
    if s.srvreq = .waiting ∧ (∀ x ∈ l, Srvlist.srvs x ≠ []) ∨
        l = none ∧ s.srvreq = .delayed err then
      s.uses (s.dnssrvcb l err delayed)
    else .error .disabled
  | .list delayed =>
    match s.delayed with
    | none => .error .disabled
    | some l => s.uses ({ s with delayed := none }.dnssrvcb (some l) 0 delayed)
  | .made delayed =>
    match s.making with
    | none => .error .disabled
    | some c => s.uses ({ s with making := none }.push { c with delayed := delayed })
  | .fails cn =>
    match s.cons[cn]? with
    | some (some c) =>
      if c.delayed then .error .disabled
      else .ok { s with cons := s.cons.set cn (some { c with delayed := true }) }
    | _ => .error .disabled
  | .report cn r delayed =>
    match s.cons[cn]? with
    | some (some c) =>
      if c.delayed ∧ r.isFd then .error .disabled else s.uses (s.connectcb cn r delayed)
    | _ => .error .disabled
  | .timeout delayed =>
    if s.tmo then s.uses (s.nextsrv delayed) else .error .disabled

def Con.byName (c : Con) : Bool :=
  match c.dest with
  | .name _ => !c.delayed
  | .addr _ => false

/-- While a lookup is sent, those that were sent before can fail: `cantsend` and `resend` of the
resolver call back at once. -/
def During (s : SrvConnect) : Event → Prop
  | .made _ => True
  | .addr h _ _ => h = none ∧ s.areq = .waiting
  | .report cn r _ => r.isFd = false ∧ ∃ c ∈ s.cons[cn]?, ∃ x ∈ c, Con.byName x = true
  | _ => False

instance (s : SrvConnect) (e : Event) : Decidable (s.During e) :=
  match e with
  | .made _ => .isTrue trivial
  | .addr h _ _ => inferInstanceAs (Decidable (h = none ∧ s.areq = .waiting))
  | .report cn r _ => inferInstanceAs (Decidable
      (r.isFd = false ∧ ∃ c ∈ s.cons[cn]?, ∃ x ∈ c, Con.byName x = true))
  | .srv _ _ _ | .list _ | .fails _ | .timeout _ => .isFalse id

def step (s : SrvConnect) (e : Event) : Except Stop SrvConnect :=
  if s.making.isSome ∧ ¬ s.During e then .error .disabled else s.act e

/-- How a request is made: for a name, where the lookup of the address can fail while the other is
sent; for an address in digits; or for a list. `junk` is whether the memory that `srvreq` has before
it is set is not null. -/
inductive Start where
  | name (areq srvreq : Option ℕ)
  | fails (err : ℕ) (junk : Bool) (srvreq : Option ℕ)
  | digits (h : Hostent) (junk delayed : Bool) (srvreq : Option ℕ)
  | list (l : Srvlist)
deriving DecidableEq

def new (defport : BitVec 16) (namep : Bool) : SrvConnect where
  defport := defport
  dnserr := 0
  areq := .none
  h := none
  srvreq := .none
  srvl := none
  tmo := false
  cons := []
  cbad := 0
  error := none
  namep := namep
  name := none
  delayed := none
  making := none
  again := false
  calls := []
  tried := []
  failed := []
  connected := []
  freed := false

/-- `dnsacb` runs within the constructor, where `srvreq` is not set. -/
def early (defport : BitVec 16) (namep : Bool) (h : Option Hostent) (err : ℕ) (junk delayed : Bool)
    (srvreq : Option ℕ) : Except Stop SrvConnect :=
  let s := { new defport namep with srvreq := if junk then .waiting else .none }.dnsacb h err delayed
  if s.freed then .error .freed else .ok { s with srvreq := .ask srvreq }

def start (defport : BitVec 16) (namep : Bool) : Start → Except Stop SrvConnect
  | .name areq srvreq =>
    .ok { new defport namep with areq := .ask areq, srvreq := .ask srvreq }
  | .fails err junk srvreq => early defport namep none err junk false srvreq
  | .digits h junk delayed srvreq => early defport namep (some h) 0 junk delayed srvreq
  | .list l => .ok { new 0 namep with delayed := some l }

def untried (s : SrvConnect) : List Srvrec :=
  match s.srvl with
  | none => []
  | some l => l.srvs.drop s.cons.length

/-- With the attempt `cn` all have failed. -/
def Last (s : SrvConnect) (cn : ℕ) : Prop :=
  (∀ c ∈ s.cons.set cn none, c = none) ∧ ∀ r ∈ s.untried, Void r

/-- The request does not come to its end while `delaycb` is to report a failure of the lookup of
the address or of another attempt; and while an attempt is being made the lookup of the address does
not fail, nor one whose failure leaves the last of `cons` null. -/
def Meets (s : SrvConnect) : Event → Prop
  | .addr _ _ _ => s.making = none
  | .srv l _ _ => s.areq.isDelayed = true → ∀ x ∈ l, ∃ r ∈ Srvlist.srvs x, ¬ Void r
  | .report cn (.fd _) _ =>
    s.areq.isDelayed = false ∧ ∀ c ∈ s.cons.set cn none, ∀ x ∈ c, Con.delayed x = false
  | .report cn (.error _) _ =>
    (s.areq.isDelayed = true → ¬ s.Last cn) ∧
      (s.making ≠ none → (s.cons.set cn none).getLast? ≠ some none)
  | _ => True

instance (s : SrvConnect) (cn : ℕ) : Decidable (s.Last cn) :=
  inferInstanceAs (Decidable ((∀ c ∈ s.cons.set cn none, c = none) ∧ ∀ r ∈ s.untried, Void r))

instance (s : SrvConnect) (e : Event) : Decidable (s.Meets e) :=
  match e with
  | .addr _ _ _ => inferInstanceAs (Decidable (s.making = none))
  | .srv l _ _ => inferInstanceAs (Decidable (s.areq.isDelayed = true →
      ∀ x ∈ l, ∃ r ∈ Srvlist.srvs x, ¬ Void r))
  | .report cn (.fd _) _ => inferInstanceAs (Decidable (s.areq.isDelayed = false ∧
      ∀ c ∈ s.cons.set cn none, ∀ x ∈ c, Con.delayed x = false))
  | .report cn (.error _) _ => inferInstanceAs (Decidable ((s.areq.isDelayed = true → ¬ s.Last cn) ∧
      (s.making ≠ none → (s.cons.set cn none).getLast? ≠ some none)))
  | .list _ | .made _ | .fails _ | .timeout _ => .isTrue trivial

def Start.Meets : Start → Prop
  | .name _ _ => True
  | .fails _ junk _ => junk = true
  | .digits _ junk _ _ => junk = true
  | .list l => l.srvs ≠ []

def weight : Option Con → ℕ
  | none => 0
  | some c => 2 - c.delayed.toNat

def lookupWeight : Lookup → ℕ
  | .none => 0
  | _ => 4

/-- What the events that can follow are counted by: the answer with the list, and the attempts that
are there or can be made, each with its making and a timer. -/
def left (s : SrvConnect) : ℕ × ℕ :=
  (if s.srvreq = .none ∧ s.delayed = none then 0 else 1,
    lookupWeight s.areq + 4 * s.untried.length + (s.cons.map weight).sum + s.tmo.toNat)

/-- Why the callback is called as it is: with the descriptor of the one attempt that succeeded; or
each server was tried and has failed, or there was no list, and the attempt at the default port has
failed, or there was no address for it. -/
def Ended (s : SrvConnect) : Reply → Prop
  | .fd n => s.connected = [n]
  | .error _ => s.connected = [] ∧
      match s.srvl with
      | some l =>
        s.tried = List.range l.srvs.length ∧ s.failed.Perm (List.range l.srvs.length)
      | none => s.cons.length = 1 ∧ s.failed = [0] ∨ s.cons = [] ∧ (s.h = none ∨ s.defport = 0)

/-- The callback runs just once: as long as it did not the request goes on, tries no server again
and comes nearer to its end with each event; and with it the request ends, and is not used again. -/
structure Kept (s : SrvConnect) : Prop where
  once : s.calls.length = if s.freed then 1 else 0
  goesOn : s.freed = false → ∃ e s', s.Meets e ∧ s.step e = .ok s'
  nearer : ∀ e s', s.Meets e → s.step e = .ok s' → Prod.Lex (· < ·) (· < ·) s'.left s.left
  ended : ∀ r ∈ s.calls, s.Ended r
  quiet : s.freed = true → ∀ e, s.step e = .error .disabled
  untouched : ∀ e, s.step e ≠ .error .freed
  newSrv : ∀ e, s.Meets e → s.step e ≠ .error .again

/-- The callback was not called. -/
structure Live (s : SrvConnect) : Prop where
  areq : s.areq ≠ .calling
  again : s.again = false
  calls : s.calls = []
  connected : s.connected = []
  freed : s.freed = false

/-- The servers of the list are tried, in its order. -/
structure Listed (s : SrvConnect) (l : Srvlist) : Prop extends Live s where
  delayed : s.delayed = none
  srvreq : s.srvreq = .none
  srvl : s.srvl = some l
  length : s.cons.length ≤ l.srvs.length
  tried : s.tried = List.range s.cons.length
  nodup : s.failed.Nodup
  cbad : s.cbad = s.failed.length

structure Tried (s : SrvConnect) (l : Srvlist) : Prop extends Listed s l where
  mem : ∀ i, i ∈ s.failed ↔ s.cons[i]? = some none

structure Over (s : SrvConnect) : Prop where
  freed : s.freed = true
  areq : s.areq = .none
  srvreq : s.srvreq = .none
  delayed : s.delayed = none
  making : s.making = none
  again : s.again = false
  tmo : s.tmo = false
  cons : ∀ c ∈ s.cons, c = none
  calls : ∃ r, s.calls = [r] ∧ s.Ended r

/-- There is no list yet. -/
structure Early (s : SrvConnect) : Prop extends Live s where
  srvl : s.srvl = none
  making : s.making = none
  failed : s.failed = []
  tmo : s.tmo = false

/-- No attempt was made. -/
structure Idle (s : SrvConnect) : Prop extends Early s where
  cons : s.cons = []
  tried : s.tried = []
  cbad : s.cbad = 0

/-- An attempt is there. -/
abbrev Pending (s : SrvConnect) : Prop := ∃ (i : ℕ) (c : Con), s.cons[i]? = some (some c)

inductive Good (s : SrvConnect) : Prop
  | looking (hs : s.Idle) (hdelayed : s.delayed = none) (hsrvreq : s.srvreq ≠ .calling)
      (hpending : s.srvreq ≠ .none ∨ s.areq ≠ .none)
  | given (hs : s.Idle) (hareq : s.areq = .none) (hsrvreq : s.srvreq = .none)
      (hdelayed : ∃ l, s.delayed = some l ∧ l.srvs ≠ [])
  | defport (hs : s.Early) (hcons : ∃ c, s.cons = [some c]) (hareq : s.areq = .none)
      (hsrvreq : s.srvreq = .none) (hdelayed : s.delayed = none)
  | running (l : Srvlist) (hs : s.Tried l) (hmaking : s.making = none) (hpending : s.Pending)
  | making (l : Srvlist) (hs : s.Tried l) (hmaking : s.making ≠ none)
      (hroom : s.cons.length < l.srvs.length)
  | ended (hs : s.Over)

variable {s s' : SrvConnect} {l : Srvlist}

theorem cancel_eq_none {q : Lookup} (hdelayed : q.isDelayed = false) (hcalling : q ≠ .calling) :
    q.cancel = .none := by
  cases q with
  | none => rfl
  | waiting => rfl
  | delayed err => cases hdelayed
  | calling => exact absurd rfl hcalling

theorem over_of_finish {r : Reply} (hcalling : s.areq ≠ .calling) (hagain : s.again = false)
    (hcalls : s.calls = []) (hmaking : s.making = none) (hareq : s.areq.isDelayed = false)
    (hsrvreq : s.srvreq = .none) (hdelayed : s.delayed = none)
    (hcons : ∀ c ∈ s.cons, ∀ x ∈ c, Con.delayed x = false) (hended : s.Ended r) :
    (s.finish r).Over where
  freed := rfl
  areq := cancel_eq_none hareq hcalling
  srvreq := by simp [finish, hsrvreq, Lookup.cancel]
  delayed := hdelayed
  making := hmaking
  again := hagain
  tmo := rfl
  cons := by
    intro c hc
    obtain ⟨c', hc', rfl⟩ := List.mem_map.mp hc
    cases c' with
    | none => rfl
    | some x => simp [Con.cancel, hcons (some x) hc' x rfl]
  calls := by
    refine ⟨r, by simp [finish, hcalls], ?_⟩
    cases r with
    | fd n => exact hended
    | error e =>
      refine ⟨hended.1, ?_⟩
      have hwhy := hended.2
      simp only [finish, List.length_map, List.map_eq_nil_iff]
      exact hwhy

theorem Tried.last (hs : s.Tried l) (hlast : l.srvs.length ≤ s.cbad) :
    s.cons.length = l.srvs.length ∧ s.failed.Perm (List.range l.srvs.length) ∧
      ∀ c ∈ s.cons, c = none := by
  have hsub : s.failed ⊆ List.range s.cons.length := by
    intro i hi
    exact List.mem_range.mpr (List.getElem?_eq_some_iff.mp ((hs.mem i).mp hi)).1
  have hperm := hs.nodup.subperm hsub
  have hle := hperm.length_le
  rw [List.length_range, ← hs.cbad] at hle
  have hlength : s.cons.length = l.srvs.length := by
    have hlen := hs.length
    omega
  have hall : s.failed.Perm (List.range s.cons.length) := by
    refine hperm.perm_of_length_le ?_
    rw [List.length_range, ← hs.cbad]
    omega
  refine ⟨hlength, hlength ▸ hall, fun c hc => ?_⟩
  obtain ⟨i, hi, rfl⟩ := List.getElem_of_mem hc
  have hmem : i ∈ s.failed := hall.mem_iff.mpr (List.mem_range.mpr hi)
  have hnone := (hs.mem i).mp hmem
  rw [List.getElem?_eq_getElem hi] at hnone
  exact Option.some.inj hnone

theorem length_zeroPort (cn : ℕ) (l : Srvlist) : (zeroPort cn l).srvs.length = l.srvs.length :=
  List.length_modify _ _ _

variable {cn : ℕ}

theorem drop_zeroPort {k : ℕ} (l : Srvlist) (h : cn < k) :
    (zeroPort cn l).srvs.drop k = l.srvs.drop k :=
  List.drop_modify_of_lt _ _ _ _ h

theorem getElem?_push {α : Type*} {l : List α} {i : ℕ} (hi : i ≠ l.length) (a : α) :
    (l ++ [a])[i]? = l[i]? := by
  rcases Nat.lt_or_gt_of_ne hi with hlt | hgt
  · exact List.getElem?_append_left hlt
  · rw [List.getElem?_eq_none_iff.mpr hgt.le, List.getElem?_eq_none_iff.mpr]
    rw [List.length_append, List.length_singleton]
    exact hgt

theorem Tried.other (hs : s.Tried l) {areq : Lookup} (hareq : areq ≠ .calling) (h : Option Hostent)
    (dnserr : ℕ) (tmo : Bool) :
    ({ s with areq := areq, h := h, dnserr := dnserr, tmo := tmo } : SrvConnect).Tried l :=
  { hs with areq := hareq }

/-- All that `Tried` says, but for an attempt that is about to report its failure. -/
structure Failing (s : SrvConnect) (l : Srvlist) (cn : ℕ) : Prop extends Listed s l where
  made : cn < s.cons.length
  fresh : cn ∉ s.failed
  mem : ∀ i, i ≠ cn → (i ∈ s.failed ↔ s.cons[i]? = some none)

variable {c : Con}

theorem Tried.failing (hs : s.Tried l) (hc : s.cons[cn]? = some (some c)) :
    s.Failing l cn where
  toListed := hs.toListed
  made := (List.getElem?_eq_some_iff.mp hc).1
  fresh := by
    rw [hs.mem, hc]
    simp
  mem := fun i _ => hs.mem i

theorem Tried.failing_push (hs : s.Tried l) (hroom : s.cons.length < l.srvs.length) :
    ({ s with tried := s.tried ++ [s.cons.length], cons := s.cons ++ [none] } :
      SrvConnect).Failing l s.cons.length where
  toListed := { hs with
    length := by
      rw [List.length_append, List.length_singleton]
      exact hroom
    tried := by rw [List.length_append, List.length_singleton, List.range_succ, hs.tried] }
  made := by simp
  fresh := by
    rw [hs.mem, List.getElem?_eq_none_iff.mpr le_rfl]
    simp
  mem := by
    intro i hi
    rw [hs.mem, getElem?_push hi]

theorem Failing.noteFail_tried (hs : s.Failing l cn) (errno : Errno) :
    (s.noteFail cn errno).Tried (zeroPort cn l) where
  toListed := { hs with
    srvl := by simp [noteFail, hs.srvl]
    length := by
      rw [noteFail, List.length_set, length_zeroPort]
      exact hs.length
    tried := by
      rw [noteFail, List.length_set]
      exact hs.tried
    nodup := by
      rw [noteFail, List.nodup_append_comm]
      exact List.nodup_cons.mpr ⟨hs.fresh, hs.nodup⟩
    cbad := by simp [noteFail, hs.srvl, hs.cbad] }
  mem := by
    intro i
    rw [noteFail, List.mem_append, List.mem_singleton, List.getElem?_set]
    by_cases hi : i = cn
    · subst hi
      simp [hs.made]
    · rw [if_neg (Ne.symm hi)]
      simp [hi, hs.mem i hi]

theorem Failing.fail_spec (hs : s.Failing l cn) (hmaking : s.making = none)
    (errno : Errno) (hareq : s.areq.isDelayed = true → ¬ s.Last cn) :
    (s.fail cn errno).Over ∨
      s.fail cn errno = s.noteFail cn errno ∧ (s.noteFail cn errno).cbad < l.srvs.length := by
  have htried := hs.noteFail_tried errno
  rw [fail]
  by_cases hlast : (s.noteFail cn errno).isLast = true
  · simp only [if_pos hlast]
    have hle : (zeroPort cn l).srvs.length ≤ (s.noteFail cn errno).cbad := by
      simpa [isLast, htried.srvl] using hlast
    obtain ⟨hlength, hperm, hall⟩ := htried.last hle
    refine Or.inl (over_of_finish htried.areq htried.again htried.calls hmaking ?_ htried.srvreq
      htried.delayed ?_ ?_)
    · rw [← Bool.not_eq_true]
      intro hdelayed
      refine hareq hdelayed ⟨hall, ?_⟩
      have hlen : s.cons.length = l.srvs.length := by
        rw [← length_zeroPort cn l, ← hlength, noteFail, List.length_set]
      rw [untried, hs.srvl]
      simp [hlen]
    · intro c hc x hx
      rw [hall c hc] at hx
      cases hx
    · refine ⟨htried.connected, ?_⟩
      rw [htried.srvl]
      exact ⟨hlength ▸ htried.tried, hperm⟩
  · refine Or.inr ?_
    simp only [if_neg hlast, true_and]
    simpa [isLast, htried.srvl, length_zeroPort] using hlast

theorem left_eq (s : SrvConnect) : s.left.2 =
    lookupWeight s.areq + 4 * s.untried.length + (s.cons.map weight).sum + s.tmo.toNat := rfl

theorem sum_map_set {α : Type*} (w : α → ℕ) {l : List α} {i : ℕ} {b : α} (h : l[i]? = some b)
    (a : α) : ((l.set i a).map w).sum + w b = (l.map w).sum + w a := by
  induction l generalizing i with
  | nil => cases h
  | cons x l ih =>
    cases i with
    | zero =>
      cases h
      simp only [List.set_cons_zero, List.map_cons, List.sum_cons]
      omega
    | succ i =>
      have hrest := ih (i := i) (by simpa using h)
      simp only [List.set_cons_succ, List.map_cons, List.sum_cons]
      omega

theorem left_finish (s : SrvConnect) (r : Reply) : (s.finish r).left.2 ≤ s.left.2 := by
  have hcons : ((s.cons.map fun c => c.bind Con.cancel).map weight).sum ≤
      (s.cons.map weight).sum := by
    rw [List.map_map]
    refine List.sum_le_sum fun c _ => ?_
    cases c with
    | none => exact le_rfl
    | some c => cases hc : c.delayed <;> simp [Con.cancel, weight, hc]
  have hareq : lookupWeight s.areq.cancel ≤ lookupWeight s.areq := by
    cases s.areq <;> simp [Lookup.cancel, lookupWeight]
  have huntried : (s.finish r).untried.length = s.untried.length := by
    simp [untried, finish]
  rw [left_eq, left_eq, huntried]
  simp only [finish, Bool.toNat_false]
  omega

theorem Failing.left_noteFail (hs : s.Failing l cn) (errno : Errno) {c : Option Con}
    (hc : s.cons[cn]? = some c) : (s.noteFail cn errno).left.2 + weight c = s.left.2 := by
  have huntried : (s.noteFail cn errno).untried.length = s.untried.length := by
    simp [untried, noteFail, hs.srvl, length_zeroPort]
  have hsum := sum_map_set weight hc none
  rw [left_eq, left_eq, huntried]
  simp only [noteFail]
  rw [show weight none = 0 from rfl] at hsum
  omega

/-- What is reached, with the answer of the list behind it, and how near it is to the end. -/
structure Reaches (s : SrvConnect) (n : ℕ) : Prop where
  good : s.Good
  first : s.left.1 = 0
  second : s.left.2 ≤ n

theorem Reaches.mono {m n : ℕ} (h : s.Reaches m) (hle : m ≤ n) : s.Reaches n :=
  ⟨h.good, h.first, h.second.trans hle⟩

theorem Tried.first (hs : s.Tried l) : s.left.1 = 0 := if_pos ⟨hs.srvreq, hs.delayed⟩

theorem Over.first (hs : s.Over) : s.left.1 = 0 := if_pos ⟨hs.srvreq, hs.delayed⟩

theorem Failing.fail_reaches (hs : s.Failing l cn) (errno : Errno) {c : Option Con}
    (hc : s.cons[cn]? = some c) : (s.fail cn errno).left.2 + weight c ≤ s.left.2 := by
  have hleft := hs.left_noteFail errno hc
  rw [fail]
  split
  · exact (Nat.add_le_add_right (left_finish _ _) _).trans_eq hleft
  · exact hleft.le

theorem Tried.pending (hs : s.Tried l) (hlength : s.cons.length = l.srvs.length)
    (hcbad : s.cbad < l.srvs.length) : s.Pending := by
  by_contra hnone
  have hall : List.range l.srvs.length ⊆ s.failed := by
    intro i hi
    rw [List.mem_range, ← hlength] at hi
    rw [hs.mem, List.getElem?_eq_getElem hi]
    cases hc : s.cons[i] with
    | none => rfl
    | some c => exact absurd ⟨i, c, by rw [List.getElem?_eq_getElem hi, hc]⟩ hnone
  have hle := (List.nodup_range.subperm hall).length_le
  rw [List.length_range, ← hs.cbad] at hle
  omega

theorem Tried.untried_push (hs : s.Tried l) (hroom : s.cons.length < l.srvs.length)
    (c : Option Con) :
    ({ s with cons := s.cons ++ [c] } : SrvConnect).untried.length + 1 = s.untried.length := by
  simp only [untried, hs.srvl, List.length_drop, List.length_append, List.length_singleton]
  omega

theorem Tried.push (hs : s.Tried l) (hmaking : s.making = none)
    (hroom : s.cons.length < l.srvs.length) (c : Con) :
    (s.push c).Good ∧ (s.push c).left.1 = 0 ∧ (s.push c).left.2 < s.left.2 := by
  have htried : (s.push c).Tried l := by
    refine ⟨{ hs with length := ?_, tried := ?_ }, ?_⟩
    · rw [SrvConnect.push, List.length_append, List.length_singleton]
      exact hroom
    · rw [SrvConnect.push, List.length_append, List.length_singleton, List.range_succ, hs.tried]
    · intro i
      show i ∈ s.failed ↔ _
      rw [hs.mem, SrvConnect.push]
      by_cases hi : i = s.cons.length
      · simp [hi]
      · rw [getElem?_push hi]
  refine ⟨.running l htried hmaking ⟨s.cons.length, c, by simp [SrvConnect.push]⟩, htried.first, ?_⟩
  have huntried := hs.untried_push hroom (some c)
  have hsame : (s.push c).untried = ({ s with cons := s.cons ++ [some c] } : SrvConnect).untried :=
    rfl
  rw [left_eq, left_eq, hsame]
  simp only [SrvConnect.push, List.map_append, List.sum_append, List.map_cons, List.map_nil,
    List.sum_cons, List.sum_nil, weight, Bool.toNat_true]
  omega

theorem nextsrvLoop_spec (l₀ : Srvlist) (delayed : Bool) (rest : List Srvrec)
    (hs : s.Tried l) (hmaking : s.making = none) (hrest : l.srvs.drop s.cons.length = rest)
    (hcbad : s.cbad < l.srvs.length)
    (hareq : s.areq.isDelayed = true → s.Pending ∨ ∃ r ∈ rest, ¬ Void r) :
    (nextsrvLoop l₀ delayed rest s).Reaches s.left.2 := by
  induction rest generalizing s l with
  | nil =>
    have hlength : s.cons.length = l.srvs.length :=
      le_antisymm hs.length (List.drop_eq_nil_iff.mp hrest)
    exact ⟨.running l hs hmaking (hs.pending hlength hcbad), hs.first, le_rfl⟩
  | cons r rest ih =>
    have hroom : s.cons.length < l.srvs.length := by
      by_contra hfull
      rw [List.drop_eq_nil_iff.mpr (by omega)] at hrest
      cases hrest
    have hdrop : l.srvs.drop (s.cons.length + 1) = rest := by
      rw [← List.drop_drop, hrest]
      rfl
    by_cases hvoid : Void r
    · -- one that fails at once, and leaves the ones behind it
      rw [nextsrvLoop, if_pos hvoid]
      have hfailing := hs.failing_push hroom
      have hset : (s.cons ++ [none]).set s.cons.length none = s.cons ++ [none] := by simp
      simp only
      generalize hs₁ : ({ s with
        tried := s.tried ++ [s.cons.length], cons := s.cons ++ [none] } : SrvConnect) = s₁
        at hfailing ⊢
      have hcons : s₁.cons = s.cons ++ [none] := by rw [← hs₁]
      have hmaking₁ : s₁.making = none := by rw [← hs₁, ← hmaking]
      have huntried₁ : s₁.untried = rest := by
        rw [untried, hfailing.srvl, hcons, List.length_append, List.length_singleton]
        exact hdrop
      have hleft₁ : s₁.left.2 ≤ s.left.2 := by
        have huntried := hs.untried_push hroom none
        have hsame : s₁.areq = s.areq ∧ s₁.tmo = s.tmo ∧ s₁.untried =
            ({ s with cons := s.cons ++ [none] } : SrvConnect).untried := by
          rw [← hs₁]
          exact ⟨rfl, rfl, rfl⟩
        rw [left_eq, left_eq, hcons, hsame.1, hsame.2.1, hsame.2.2, List.map_append,
          List.sum_append]
        simp only [List.map_cons, List.map_nil, List.sum_cons, List.sum_nil, weight]
        omega
      have hlast : s₁.areq.isDelayed = true → ¬ s₁.Last s.cons.length := by
        rintro hdelayed ⟨hall, hvoids⟩
        rw [hcons, hset] at hall
        rw [huntried₁] at hvoids
        rw [← hs₁] at hdelayed
        rcases hareq hdelayed with ⟨i, c, hc⟩ | ⟨r', hr', hnot⟩
        · cases hall (some c) (List.mem_append_left _ (List.mem_of_getElem? hc))
        · rcases List.mem_cons.mp hr' with rfl | hr'
          · exact hnot hvoid
          · exact hnot (hvoids r' hr')
      have hfail := hfailing.fail_reaches .ENOENT (c := none) (by simp [hcons])
      rcases hfailing.fail_spec hmaking₁ .ENOENT hlast with hover | ⟨heq, hcbad₁⟩
      · simp only [if_pos hover.freed]
        exact ⟨.ended hover, hover.first, hfail.trans hleft₁⟩
      · have htried := hfailing.noteFail_tried .ENOENT
        rw [heq] at hfail ⊢
        simp only [htried.freed, Bool.false_eq_true, if_false]
        have hlength : (s₁.noteFail s.cons.length .ENOENT).cons.length = s.cons.length + 1 := by
          simp [noteFail, hcons]
        refine Reaches.mono (ih htried hmaking₁ ?_ ?_ ?_) (hfail.trans hleft₁)
        · rw [hlength, drop_zeroPort l (Nat.lt_succ_self _), hdrop]
        · rwa [length_zeroPort]
        · intro hdelayed
          have hareq₁ : s.areq.isDelayed = true := by
            rw [← hs₁] at hdelayed
            exact hdelayed
          rcases hareq hareq₁ with ⟨i, c, hc⟩ | ⟨r', hr', hnot⟩
          · refine Or.inl ⟨i, c, ?_⟩
            rw [noteFail, hcons, hset]
            exact (List.getElem?_append_left (List.getElem?_eq_some_iff.mp hc).1).trans hc
          · rcases List.mem_cons.mp hr' with rfl | hr'
            · exact absurd hvoid hnot
            · exact Or.inr ⟨r', hr', hnot⟩
    · rw [nextsrvLoop, if_neg hvoid]
      split
      · obtain ⟨hgood, hfirst, hleft⟩ := hs.push hmaking hroom ⟨.addr _, r.port, delayed⟩
        exact ⟨hgood, hfirst, hleft.le⟩
      · exact ⟨.making l { hs with } (by simp) hroom, hs.first, le_rfl⟩

theorem left_idle (s : SrvConnect) :
    ({ s with tmo := false } : SrvConnect).left.2 + s.tmo.toNat = s.left.2 := rfl

theorem nextsrv_spec (delayed : Bool) (hs : s.Tried l) (hmaking : s.making = none)
    (hcbad : s.cbad < l.srvs.length)
    (hareq : s.areq.isDelayed = true → s.Pending ∨ ∃ r ∈ s.untried, ¬ Void r) :
    (s.nextsrv delayed).Reaches ({ s with tmo := false } : SrvConnect).left.2 := by
  have heq : s.nextsrv delayed =
      nextsrvLoop l delayed (l.srvs.drop s.cons.length) { s with tmo := false } := by
    simp only [nextsrv, hs.srvl, hmaking, Option.isSome_none, Bool.false_eq_true, if_false]
  rw [heq]
  refine nextsrvLoop_spec l delayed _ (hs.other hs.areq s.h s.dnserr false) hmaking rfl hcbad ?_
  rw [untried, hs.srvl] at hareq
  exact hareq

theorem weight_pos (c : Con) : 1 ≤ weight (some c) := by
  cases hc : c.delayed <;> simp [weight, hc]

theorem left_set {b c : Option Con} (hb : s.cons[cn]? = some b) :
    ({ s with cons := s.cons.set cn c } : SrvConnect).left.2 + weight b =
      s.left.2 + weight c := by
  have hsum := sum_map_set weight hb c
  have huntried : ({ s with cons := s.cons.set cn c } : SrvConnect).untried.length =
      s.untried.length := by
    simp [untried]
  rw [left_eq, left_eq, huntried]
  simp only
  omega

theorem untried_setName (s : SrvConnect) (cn : ℕ) :
    (s.setName cn).untried.length = s.untried.length := by
  by_cases hnamep : s.namep = true
  · cases hsrvl : s.srvl with
    | none => simp [setName, hnamep, hsrvl, untried]
    | some l => simp [setName, hnamep, hsrvl, untried, length_zeroPort]
  · rw [setName, if_neg hnamep]

theorem setName_same (s : SrvConnect) (cn : ℕ) :
    (s.setName cn).areq = s.areq ∧ (s.setName cn).srvreq = s.srvreq ∧
      (s.setName cn).delayed = s.delayed ∧ (s.setName cn).cons = s.cons ∧
      (s.setName cn).calls = s.calls ∧ (s.setName cn).connected = s.connected ∧
      (s.setName cn).freed = s.freed ∧ (s.setName cn).tmo = s.tmo ∧
      (s.setName cn).making = s.making ∧ (s.setName cn).again = s.again := by
  rw [setName]
  split
  · cases s.srvl <;> simp
  · simp

theorem success_spec {n : ℕ} (delayed : Bool) (hs : s.Live) (hmaking : s.making = none)
    (hsrvreq : s.srvreq = .none) (hdelayed : s.delayed = none) (hc : s.cons[cn]? = some (some c))
    (hmeets : s.Meets (.report cn (.fd n) delayed)) :
    (s.connectcb cn (.fd n) delayed).Over ∧
      (s.connectcb cn (.fd n) delayed).left.2 < s.left.2 := by
  rw [connectcb]
  obtain ⟨hareq', hsrvreq', hdelayed', hcons', hcalls', hconnected', hfreed', htmo', hmaking',
    hagain'⟩ :=
    setName_same { s with cons := s.cons.set cn none, connected := s.connected ++ [n] } cn
  have huntried :=
    untried_setName { s with cons := s.cons.set cn none, connected := s.connected ++ [n] } cn
  have hleft := left_set (c := none) hc
  rw [left_eq] at hleft
  have hpos := weight_pos c
  generalize setName { s with cons := s.cons.set cn none, connected := s.connected ++ [n] } cn =
    s₁ at *
  refine ⟨over_of_finish (hareq' ▸ hs.areq) (hagain'.trans hs.again) (hcalls'.trans hs.calls)
    (hmaking'.trans hmaking) ?_ (hsrvreq'.trans hsrvreq) (hdelayed'.trans hdelayed) ?_ ?_,
    (left_finish _ _).trans_lt ?_⟩
  · rw [hareq']
    exact hmeets.1
  · rw [hcons']
    exact hmeets.2
  · rw [Ended, hconnected', hs.connected]
    rfl
  · rw [left_eq, hareq', huntried, hcons', htmo']
    have hsame : ({ s with cons := s.cons.set cn none, connected := s.connected ++ [n] } :
        SrvConnect).untried = ({ s with cons := s.cons.set cn none } : SrvConnect).untried := rfl
    rw [hsame]
    simp only [weight] at hleft hpos ⊢
    omega

theorem failure_spec {e : Errno} (delayed : Bool) (hs : s.Tried l) (hmaking : s.making = none)
    (hc : s.cons[cn]? = some (some c)) (hmeets : s.Meets (.report cn (.error e) delayed)) :
    (s.connectcb cn (.error e) delayed).Good ∧ (s.connectcb cn (.error e) delayed).left.1 = 0 ∧
      (s.connectcb cn (.error e) delayed).left.2 < s.left.2 := by
  have hfailing := hs.failing hc
  have hleft := hfailing.fail_reaches e hc
  have hpos := weight_pos c
  rw [connectcb]
  rcases hfailing.fail_spec hmaking e hmeets.1 with hover | ⟨heq, hcbad⟩
  · simp only [if_pos hover.freed]
    exact ⟨.ended hover, hover.first, by omega⟩
  · have htried := hfailing.noteFail_tried e
    have hcons : (s.noteFail cn e).cons = s.cons.set cn none := rfl
    have hareq : (s.noteFail cn e).areq = s.areq := rfl
    have hmaking₁ : (s.noteFail cn e).making = none := hmaking
    have huntried : (s.noteFail cn e).untried = s.untried := by
      rw [untried, untried, htried.srvl, hs.srvl, hcons, List.length_set]
      exact drop_zeroPort l hfailing.made
    rw [heq] at hleft ⊢
    generalize s.noteFail cn e = s₁ at *
    simp only [htried.freed, Bool.false_eq_true, if_false]
    rw [← length_zeroPort cn l] at hcbad
    by_cases hlast : s₁.cons.getLast? = some none
    · rw [if_pos hlast]
      have hidle := left_idle s₁
      have hreaches := nextsrv_spec delayed htried hmaking₁ hcbad ?_
      · refine ⟨hreaches.good, hreaches.first, ?_⟩
        have hsecond := hreaches.second
        omega
      · intro hdelayed
        by_contra hnone
        refine hmeets.1 (hareq ▸ hdelayed) ⟨?_, ?_⟩
        · intro x hx
          rw [← hcons] at hx
          obtain ⟨i, hi⟩ := List.mem_iff_getElem?.mp hx
          cases x with
          | none => rfl
          | some x => exact absurd (Or.inl ⟨i, x, hi⟩) hnone
        · intro r hr
          by_contra hvoid
          exact hnone (Or.inr ⟨r, huntried ▸ hr, hvoid⟩)
    · rw [if_neg hlast]
      refine ⟨.running _ htried hmaking₁ ?_, htried.first, by omega⟩
      have hne : s₁.cons.length ≠ 0 := by
        rw [hcons, List.length_set]
        have hmade := hfailing.made
        omega
      rw [List.getLast?_eq_getElem?] at hlast
      have hi : s₁.cons.length - 1 < s₁.cons.length := by omega
      rw [List.getElem?_eq_getElem hi] at hlast
      cases hx : s₁.cons[s₁.cons.length - 1] with
      | none => exact absurd (congrArg some hx) hlast
      | some x => exact ⟨_, x, (List.getElem?_eq_getElem hi).trans (congrArg some hx)⟩

theorem failure_defport {e : Errno} (delayed : Bool) (hs : s.Early) (hcons : s.cons = [some c])
    (hareq : s.areq = .none) (hsrvreq : s.srvreq = .none) (hdelayed : s.delayed = none) :
    (s.connectcb 0 (.error e) delayed).Over ∧
      (s.connectcb 0 (.error e) delayed).left.2 < s.left.2 := by
  have hlast : (s.noteFail 0 e).isLast = true := by simp [isLast, noteFail, hs.srvl]
  have hover : (s.fail 0 e).Over := by
    rw [fail, if_pos hlast]
    refine over_of_finish (s := s.noteFail 0 e) hs.areq hs.again hs.calls hs.making ?_ hsrvreq
      hdelayed ?_ ?_
    · simp [noteFail, hareq, Lookup.isDelayed]
    · simp [noteFail, hcons]
    · refine ⟨hs.connected, ?_⟩
      simp [noteFail, hs.srvl, hcons, hs.failed]
  have hleft : (s.fail 0 e).left.2 < s.left.2 := by
    rw [fail, if_pos hlast]
    refine (left_finish _ _).trans_lt ?_
    have hpos := weight_pos c
    simp only [left_eq, noteFail, untried, hs.srvl, hcons, Option.map_none, List.set_cons_zero,
      List.map_cons, List.map_nil, List.sum_cons, List.sum_nil, weight] at hpos ⊢
    omega
  simp only [connectcb, if_pos hover.freed]
  exact ⟨hover, hleft⟩

def Moves (s s' : SrvConnect) : Prop := s'.Good ∧ Prod.Lex (· < ·) (· < ·) s'.left s.left

theorem moves_of_first (hgood : s'.Good) (hfirst' : s'.left.1 = 0) (hfirst : s.left.1 = 1) :
    s.Moves s' :=
  ⟨hgood, Prod.lex_def.mpr (Or.inl (by omega))⟩

theorem moves_of_second (hgood : s'.Good) (hfirst : s'.left.1 = s.left.1)
    (hsecond : s'.left.2 < s.left.2) : s.Moves s' :=
  ⟨hgood, Prod.lex_def.mpr (Or.inr ⟨hfirst, hsecond⟩)⟩

theorem maybeStart_noList (err : ℕ) (delayed : Bool) (hs : s.Idle) (hareq : s.areq = .none)
    (hsrvreq : s.srvreq = .none) (hdelayed : s.delayed = none) :
    (s.maybeStart err delayed).Reaches 2 := by
  have hends : ∀ e, s.h = none ∨ s.defport = 0 →
      (finish { s with dnserr := mergeDnserr s.dnserr err } (.error e)).Reaches 2 := by
    intro e hwhy
    have hover : (finish { s with dnserr := mergeDnserr s.dnserr err } (.error e)).Over := by
      refine over_of_finish hs.areq hs.again hs.calls hs.making
        (by simp [hareq, Lookup.isDelayed]) hsrvreq hdelayed (by simp [hs.cons]) ⟨hs.connected, ?_⟩
      simp only [hs.srvl]
      exact Or.inr ⟨hs.cons, hwhy⟩
    refine ⟨.ended hover, hover.first, (left_finish _ _).trans ?_⟩
    simp [left_eq, untried, hs.srvl, hs.cons, hareq, hs.tmo, lookupWeight]
  have hmakes : ∀ c, Reaches
      { s with dnserr := mergeDnserr s.dnserr err, cons := s.cons ++ [some c] } 2 := by
    intro c
    refine ⟨.defport { hs with } ⟨c, by simp [hs.cons]⟩ hareq hsrvreq hdelayed,
      if_pos ⟨hsrvreq, hdelayed⟩, ?_⟩
    simp [left_eq, untried, hs.srvl, hs.cons, hareq, hs.tmo, lookupWeight, weight]
  rw [maybeStart, if_neg (by simp [hsrvreq, hareq]), if_neg (by simp [hs.srvl])]
  simp only
  split
  · split
    · exact hmakes _
    · rename_i hport
      exact hends _ (Or.inr (not_not.mp hport))
  · rename_i hnone
    exact hends _ (Or.inl hnone)

theorem maybeStart_waits (err : ℕ) (delayed : Bool)
    (h : s.srvreq ≠ .none ∨ s.srvl = none ∧ s.areq ≠ .none) :
    s.maybeStart err delayed = { s with dnserr := mergeDnserr s.dnserr err } := by
  rw [maybeStart, if_pos h]

theorem maybeStart_list (err : ℕ) (delayed : Bool) (hs : s.Tried l) (hmaking : s.making = none)
    (hcbad : s.cbad < l.srvs.length)
    (hareq : s.areq.isDelayed = true → s.Pending ∨ ∃ r ∈ s.untried, ¬ Void r) :
    (s.maybeStart err delayed).Reaches s.left.2 := by
  have hnot : ¬ (s.srvreq ≠ .none ∨ s.srvl = none ∧ s.areq ≠ .none) := by
    simp [hs.srvreq, hs.srvl]
  rw [maybeStart, if_neg hnot, if_pos (by simp [hs.srvl])]
  have hidle := left_idle s
  have hother := hs.other hs.areq s.h (mergeDnserr s.dnserr err) s.tmo
  refine Reaches.mono (nextsrv_spec delayed hother hmaking hcbad hareq) ?_
  exact Nat.le.intro hidle

theorem dnssrvcb_list (err : ℕ) (delayed : Bool) (hs : s.Idle) (hdelayed : s.delayed = none)
    (hl : l.srvs ≠ []) (hareq : s.areq.isDelayed = true → ∃ r ∈ l.srvs, ¬ Void r) :
    (s.dnssrvcb (some l) err delayed).Good ∧ (s.dnssrvcb (some l) err delayed).left.1 = 0 := by
  have hreaches := maybeStart_list (s := { s with srvreq := .none, srvl := some l }) err delayed
    ⟨⟨{ hs with }, hdelayed, rfl, rfl, by simp [hs.cons], by simp [hs.cons, hs.tried],
      by simp [hs.failed], by simp [hs.cbad, hs.failed]⟩, by simp [hs.cons, hs.failed]⟩ hs.making
    (hs.cbad ▸ List.length_pos_of_ne_nil hl) ?_
  · exact ⟨hreaches.good, hreaches.first⟩
  · intro hdelayed
    simp only [untried, hs.cons, List.length_nil, List.drop_zero]
    exact Or.inr (hareq hdelayed)

theorem left_answered (hasked : lookupWeight s.areq = 4) (h : Option Hostent) (dnserr : ℕ) :
    ({ s with areq := .none, h := h, dnserr := dnserr } : SrvConnect).left.2 < s.left.2 := by
  have huntried : ({ s with areq := .none, h := h, dnserr := dnserr } : SrvConnect).untried =
      s.untried := rfl
  rw [left_eq, left_eq, huntried, hasked]
  simp only [lookupWeight]
  omega

/-- What an event of a request that is there comes to, and what it needs. -/
inductive Takes (s : SrvConnect) : Event → SrvConnect → Prop
  | addr {h : Option Hostent} {err : ℕ} {d : Bool} (hasked : lookupWeight s.areq = 4) :
      Takes s (.addr h err d) (s.dnsacb h err d)
  | srv {q : Option Srvlist} {err : ℕ} {d : Bool} (hasked : s.srvreq ≠ .none)
      (hq : ∀ l ∈ q, Srvlist.srvs l ≠ []) : Takes s (.srv q err d) (s.dnssrvcb q err d)
  | list {l : Srvlist} {d : Bool} (hgiven : s.delayed = some l) :
      Takes s (.list d) (({ s with delayed := none } : SrvConnect).dnssrvcb (some l) 0 d)
  | made {c : Con} {d : Bool} (hmaking : s.making = some c) :
      Takes s (.made d) (({ s with making := none } : SrvConnect).push { c with delayed := d })
  | fails {cn : ℕ} {c : Con} (hc : s.cons[cn]? = some (some c)) (hnot : c.delayed = false) :
      Takes s (.fails cn) { s with cons := s.cons.set cn (some { c with delayed := true }) }
  | report {cn : ℕ} {r : Reply} {d : Bool} {c : Con} (hc : s.cons[cn]? = some (some c)) :
      Takes s (.report cn r d) (s.connectcb cn r d)
  | timeout {d : Bool} (htmo : s.tmo = true) : Takes s (.timeout d) (s.nextsrv d)

theorem act_cases (hs : s.Live) (e : Event) :
    s.act e = .error .disabled ∨ ∃ s', s.act e = s.uses s' ∧ s.Takes e s' := by
  cases e with
  | addr h err d =>
    by_cases hready : s.areq = .waiting ∨ h = none ∧ s.areq = .delayed err
    · refine Or.inr ⟨_, if_pos hready, .addr ?_⟩
      rcases hready with heq | ⟨-, heq⟩ <;> rw [heq] <;> rfl
    · exact Or.inl (if_neg hready)
  | srv q err d =>
    by_cases hready :
        s.srvreq = .waiting ∧ (∀ x ∈ q, Srvlist.srvs x ≠ []) ∨ q = none ∧ s.srvreq = .delayed err
    · refine Or.inr ⟨_, if_pos hready, ?_⟩
      rcases hready with ⟨heq, hq⟩ | ⟨rfl, heq⟩
      · exact .srv (by simp [heq]) hq
      · exact .srv (by simp [heq]) (by simp)
    · exact Or.inl (if_neg hready)
  | list d =>
    cases hgiven : s.delayed with
    | none => exact Or.inl (by simp [act, hgiven])
    | some l => exact Or.inr ⟨_, by simp only [act, hgiven], .list hgiven⟩
  | made d =>
    cases hmaking : s.making with
    | none => exact Or.inl (by simp [act, hmaking])
    | some c => exact Or.inr ⟨_, by simp only [act, hmaking], .made hmaking⟩
  | fails cn =>
    rw [act]
    split
    · rename_i c hc
      cases hnot : c.delayed with
      | true => exact Or.inl rfl
      | false =>
        refine Or.inr ⟨_, ?_, .fails hc hnot⟩
        simp [uses, hs.freed, hs.again]
    · exact Or.inl rfl
  | report cn r d =>
    rw [act]
    split
    · rename_i c hc
      split
      · exact Or.inl rfl
      · exact Or.inr ⟨_, rfl, .report hc⟩
    · exact Or.inl rfl
  | timeout d =>
    cases htmo : s.tmo with
    | false => exact Or.inl (by simp [act, htmo])
    | true => exact Or.inr ⟨_, by simp only [act, htmo, if_true], .timeout htmo⟩

theorem step_cases (hs : s.Live) (e : Event) :
    s.step e = .error .disabled ∨
      ∃ s', s.step e = s.uses s' ∧ s.Takes e s' ∧ (s.making ≠ none → s.During e) := by
  rw [step]
  split
  · exact Or.inl rfl
  · rename_i hready
    refine (act_cases hs e).imp_right fun ⟨s', hs', htakes⟩ => ⟨s', hs', htakes, fun hmaking => ?_⟩
    by_contra hnot
    exact hready ⟨Option.isSome_iff_ne_none.mpr hmaking, hnot⟩

variable {e : Event}

theorem looking_step (hs : s.Idle) (hdelayed : s.delayed = none) (hsrvreq : s.srvreq ≠ .calling)
    (hmeets : s.Meets e) (htakes : s.Takes e s') : s.Moves s' := by
  cases htakes with
  | @addr h err d hasked =>
    rw [dnsacb]
    by_cases hq : s.srvreq = .none
    · have hreaches := maybeStart_noList (s := { s with areq := .none, h := h }) err d
        { hs with areq := by simp } rfl hq hdelayed
      refine moves_of_second hreaches.good
        (hreaches.first.trans (if_pos ⟨hq, hdelayed⟩).symm) ?_
      refine hreaches.second.trans_lt ?_
      rw [left_eq, hasked]
      omega
    · rw [maybeStart_waits (s := { s with areq := .none, h := h }) err d (Or.inl hq)]
      exact moves_of_second (.looking { hs with areq := by simp } hdelayed hsrvreq (Or.inl hq)) rfl
        (left_answered hasked h _)
  | @srv q err d hasked hq =>
    have hfirst : s.left.1 = 1 := if_neg fun hnone => hasked hnone.1
    cases q with
    | some l =>
      obtain ⟨hgood, hfirst'⟩ := dnssrvcb_list err d hs hdelayed (hq l rfl) fun hareq =>
        hmeets hareq l rfl
      exact moves_of_first hgood hfirst' hfirst
    | none =>
      rw [dnssrvcb]
      by_cases hareq : s.areq = .none
      · have hreaches := maybeStart_noList (s := { s with srvreq := .none, srvl := none })
          err d { hs with srvl := rfl } hareq rfl hdelayed
        exact moves_of_first hreaches.good hreaches.first hfirst
      · rw [maybeStart_waits (s := { s with srvreq := .none, srvl := none }) err d
          (Or.inr ⟨rfl, hareq⟩)]
        exact moves_of_first (.looking { hs with srvl := rfl } hdelayed (by simp) (Or.inr hareq))
          (if_pos ⟨rfl, hdelayed⟩) hfirst
  | list hgiven => simp [hdelayed] at hgiven
  | made hmade => simp [hs.making] at hmade
  | fails hc _ => simp [hs.cons] at hc
  | report hc => simp [hs.cons] at hc
  | timeout hrings => simp [hs.tmo] at hrings

theorem given_step (hs : s.Idle) (hareq : s.areq = .none) (hsrvreq : s.srvreq = .none)
    (hdelayed : ∃ l, s.delayed = some l ∧ l.srvs ≠ []) (htakes : s.Takes e s') : s.Moves s' := by
  obtain ⟨l, hthis, hl⟩ := hdelayed
  cases htakes with
  | addr hasked => simp [hareq, lookupWeight] at hasked
  | srv hasked _ => exact absurd hsrvreq hasked
  | @list l' d hgiven =>
    obtain rfl := Option.some.inj (hthis.symm.trans hgiven)
    obtain ⟨hgood, hfirst'⟩ := dnssrvcb_list (s := { s with delayed := none }) 0 d { hs with } rfl hl
      (by simp [hareq, Lookup.isDelayed])
    exact moves_of_first hgood hfirst' (if_neg (by simp [hgiven]))
  | made hmade => simp [hs.making] at hmade
  | fails hc _ => simp [hs.cons] at hc
  | report hc => simp [hs.cons] at hc
  | timeout hrings => simp [hs.tmo] at hrings

theorem left_fails (hc : s.cons[cn]? = some (some c)) (hnot : c.delayed = false) :
    ({ s with cons := s.cons.set cn (some { c with delayed := true }) } : SrvConnect).left.2 <
      s.left.2 := by
  have hleft := left_set (c := some { c with delayed := true }) hc
  simp only [weight, hnot, Bool.toNat_true, Bool.toNat_false] at hleft
  omega

theorem defport_step (hs : s.Early) (hcons : ∃ c, s.cons = [some c]) (hareq : s.areq = .none)
    (hsrvreq : s.srvreq = .none) (hdelayed : s.delayed = none) (hmeets : s.Meets e)
    (htakes : s.Takes e s') : s.Moves s' := by
  obtain ⟨c₀, hcons⟩ := hcons
  have hfirst : s.left.1 = 0 := if_pos ⟨hsrvreq, hdelayed⟩
  cases htakes with
  | addr hasked => simp [hareq, lookupWeight] at hasked
  | srv hasked _ => exact absurd hsrvreq hasked
  | list hgiven => simp [hdelayed] at hgiven
  | made hmade => simp [hs.making] at hmade
  | timeout hrings => simp [hs.tmo] at hrings
  | @fails cn c hc hnot =>
    cases cn with
    | succ cn => simp [hcons] at hc
    | zero =>
      exact moves_of_second (.defport { hs with } ⟨_, by rw [hcons]; rfl⟩ hareq hsrvreq hdelayed) rfl
        (left_fails hc hnot)
  | @report cn r d c hc =>
    cases cn with
    | succ cn => simp [hcons] at hc
    | zero =>
      cases r with
      | fd n =>
        obtain ⟨hover, hleft⟩ := success_spec d hs.toLive hs.making hsrvreq hdelayed hc hmeets
        exact moves_of_second (.ended hover) (hover.first.trans hfirst.symm) hleft
      | error err =>
        obtain ⟨hover, hleft⟩ := failure_defport (e := err) d hs hcons hareq hsrvreq hdelayed
        exact moves_of_second (.ended hover) (hover.first.trans hfirst.symm) hleft

theorem Tried.fails (hs : s.Tried l) (hc : s.cons[cn]? = some (some c)) :
    ({ s with cons := s.cons.set cn (some { c with delayed := true }) } : SrvConnect).Tried l := by
  have hmade := (List.getElem?_eq_some_iff.mp hc).1
  refine ⟨{ hs with length := by simpa using hs.length, tried := by simp [hs.tried] }, fun i => ?_⟩
  rw [hs.mem, List.getElem?_set]
  by_cases hi : cn = i
  · subst hi
    rw [if_pos rfl, if_pos hmade, hc]
    simp
  · rw [if_neg hi]

theorem running_step (hs : s.Tried l) (hmaking : s.making = none) (hpending : s.Pending)
    (hmeets : s.Meets e) (htakes : s.Takes e s') : s.Moves s' := by
  have hcbad : s.cbad < l.srvs.length := by
    by_contra hlast
    obtain ⟨i, c, hc⟩ := hpending
    cases (hs.last (by omega)).2.2 (some c) (List.mem_of_getElem? hc)
  cases htakes with
  | @addr h err d hasked =>
    have hother := hs.other (show Lookup.none ≠ .calling by simp) h s.dnserr s.tmo
    have hreaches := maybeStart_list err d hother hmaking hcbad fun _ => Or.inl hpending
    exact moves_of_second hreaches.good (hreaches.first.trans hs.first.symm)
      (hreaches.second.trans_lt (left_answered hasked h s.dnserr))
  | srv hasked _ => exact absurd hs.srvreq hasked
  | list hgiven => simp [hs.delayed] at hgiven
  | made hmade => simp [hmaking] at hmade
  | @fails cn c hc hnot =>
    have hmade := (List.getElem?_eq_some_iff.mp hc).1
    exact moves_of_second (.running l (hs.fails hc) hmaking ⟨cn, _, by simp [hmade]; rfl⟩) rfl
      (left_fails hc hnot)
  | @report cn r d c hc =>
    cases r with
    | fd n =>
      obtain ⟨hover, hleft⟩ := success_spec d hs.toLive hmaking hs.srvreq hs.delayed hc hmeets
      exact moves_of_second (.ended hover) (hover.first.trans hs.first.symm) hleft
    | error err =>
      obtain ⟨hgood, hfirst, hleft⟩ := failure_spec d hs hmaking hc hmeets
      exact moves_of_second hgood (hfirst.trans hs.first.symm) hleft
  | @timeout d htmo =>
    have hreaches := nextsrv_spec d hs hmaking hcbad fun _ => Or.inl hpending
    refine moves_of_second hreaches.good (hreaches.first.trans hs.first.symm) ?_
    have hidle := left_idle s
    have hsecond := hreaches.second
    rw [htmo, Bool.toNat_true] at hidle
    omega

theorem failure_during {e : Errno} (delayed : Bool) (hs : s.Tried l)
    (hmaking : s.making ≠ none) (hroom : s.cons.length < l.srvs.length)
    (hc : s.cons[cn]? = some (some c)) (hmeets : s.Meets (.report cn (.error e) delayed)) :
    s.Moves (s.connectcb cn (.error e) delayed) := by
  have hfailing := hs.failing hc
  have htried := hfailing.noteFail_tried e
  have hleft := hfailing.left_noteFail e hc
  have hpos := weight_pos c
  have hlength : (s.noteFail cn e).cons.length < (zeroPort cn l).srvs.length := by
    rw [length_zeroPort, noteFail, List.length_set]
    exact hroom
  have hlast : ¬ (s.noteFail cn e).isLast = true := by
    intro hlast
    have hle : (zeroPort cn l).srvs.length ≤ (s.noteFail cn e).cbad := by
      simpa [isLast, htried.srvl] using hlast
    exact absurd (htried.last hle).1 hlength.ne
  have heq : s.connectcb cn (.error e) delayed = s.noteFail cn e := by
    simp only [connectcb, fail, if_neg hlast, htried.freed, Bool.false_eq_true, if_false]
    exact if_neg (hmeets.2 hmaking)
  rw [heq]
  exact moves_of_second (.making _ htried hmaking hlength) (htried.first.trans hs.first.symm)
    (by omega)

theorem making_step (hs : s.Tried l) (hmaking : s.making ≠ none)
    (hroom : s.cons.length < l.srvs.length) (hduring : s.During e)
    (hmeets : s.Meets e) (htakes : s.Takes e s') : s.Moves s' := by
  cases htakes with
  | addr => exact absurd hmeets hmaking
  | made =>
    have hother : ({ s with making := none } : SrvConnect).Tried l := { hs with }
    obtain ⟨hgood, hfirst, hleft⟩ := hother.push rfl hroom _
    exact moves_of_second hgood (hfirst.trans hs.first.symm) hleft
  | @report cn r d c hc =>
    cases r with
    | fd n => cases hduring.1
    | error err => exact failure_during d hs hmaking hroom hc hmeets
  | srv | list | fails | timeout => exact hduring.elim

theorem Over.disabled (hs : s.Over) (e : Event) : s.step e = .error .disabled := by
  have hcons : ∀ (cn : ℕ) (c : Con), s.cons[cn]? ≠ some (some c) := by
    intro cn c hc
    cases hs.cons (some c) (List.mem_of_getElem? hc)
  rw [step, if_neg (by simp [hs.making])]
  cases e with
  | addr h err d => simp [act, hs.areq]
  | srv q err d => simp [act, hs.srvreq]
  | list d => simp [act, hs.delayed]
  | made d => simp [act, hs.making]
  | timeout d => simp [act, hs.tmo]
  | fails cn | report cn r d =>
    rw [act]
    split
    · rename_i c hc
      exact absurd hc (hcons cn c)
    · rfl

theorem Good.live_or_over (h : s.Good) : s.Live ∨ s.Over := by
  cases h with
  | looking hs => exact Or.inl hs.toLive
  | given hs => exact Or.inl hs.toLive
  | defport hs => exact Or.inl hs.toLive
  | running l hs => exact Or.inl hs.toLive
  | making l hs => exact Or.inl hs.toLive
  | ended hs => exact Or.inr hs

theorem Good.again (h : s.Good) : s.again = false :=
  h.live_or_over.elim Live.again Over.again

theorem step_spec (h : s.Good) (hmeets : s.Meets e) :
    s.step e = .error .disabled ∨ ∃ s', s.step e = .ok s' ∧ s.Moves s' := by
  rcases h.live_or_over with hlive | hover
  · rcases step_cases hlive e with hstop | ⟨s', hs', htakes, hduring⟩
    · exact Or.inl hstop
    suffices hmoves : s.Moves s' by
      refine Or.inr ⟨s', ?_, hmoves⟩
      rw [hs', uses, hlive.freed, hmoves.1.again]
      rfl
    cases h with
    | looking hs hdelayed hsrvreq hpending =>
      exact looking_step hs hdelayed hsrvreq hmeets htakes
    | given hs hareq hsrvreq hdelayed => exact given_step hs hareq hsrvreq hdelayed htakes
    | defport hs hcons hareq hsrvreq hdelayed =>
      exact defport_step hs hcons hareq hsrvreq hdelayed hmeets htakes
    | running l hs hmaking hpending => exact running_step hs hmaking hpending hmeets htakes
    | making l hs hmaking hroom =>
      exact making_step hs hmaking hroom (hduring hmaking) hmeets htakes
    | ended hs => exact absurd (hlive.freed.symm.trans hs.freed) Bool.false_ne_true
  · exact Or.inl (hover.disabled e)

theorem step_alive (hs : s.Live) (e : Event) : s.step e ≠ .error .freed := by
  rcases step_cases hs e with hstop | ⟨s', hs', -⟩
  · simp [hstop]
  · rw [hs', uses, hs.freed]
    cases s'.again <;> simp

theorem Good.takes (h : s.Good) (hmeets : s.Meets e)
    (hmaking : s.making = none) (hready : s.act e ≠ .error .disabled) :
    ∃ e s', s.Meets e ∧ s.step e = .ok s' := by
  rcases step_spec h hmeets with hstop | ⟨s', hs', -⟩
  · rw [step, if_neg (by simp [hmaking])] at hstop
    exact absurd hstop hready
  · exact ⟨e, s', hmeets, hs'⟩

theorem uses_ne (s s' : SrvConnect) : s.uses s' ≠ .error .disabled := by
  rw [uses]
  split
  · simp
  · split <;> simp

theorem Good.addr_goesOn (h : s.Good) (hmaking : s.making = none) (hasked : s.areq ≠ .none)
    (hcalling : s.areq ≠ .calling) : ∃ e s', s.Meets e ∧ s.step e = .ok s' := by
  cases hareq : s.areq with
  | none => exact absurd hareq hasked
  | calling => exact absurd hareq hcalling
  | waiting =>
    refine h.takes (e := .addr none 0 false) hmaking hmaking ?_
    rw [act, if_pos (Or.inl hareq)]
    exact uses_ne _ _
  | delayed err =>
    refine h.takes (e := .addr none err false) hmaking hmaking ?_
    rw [act, if_pos (Or.inr ⟨rfl, hareq⟩)]
    exact uses_ne _ _

theorem Good.report_goesOn (h : s.Good) (hmaking : s.making = none)
    (hc : s.cons[cn]? = some (some c)) (hareq : s.areq.isDelayed = false) :
    ∃ e s', s.Meets e ∧ s.step e = .ok s' := by
  refine h.takes (e := .report cn (.error .EAGAIN) false) ⟨?_, fun hnot => absurd hmaking hnot⟩
    hmaking ?_
  · intro hdelayed
    rw [hareq] at hdelayed
    cases hdelayed
  · have hready : ¬ (c.delayed = true ∧ (Reply.error .EAGAIN).isFd = true) := by
      simp [Reply.isFd]
    simp only [act, hc, if_neg hready]
    exact uses_ne _ _

theorem Good.goesOn (h : s.Good) (hs : s.freed = false) :
    ∃ e s', s.Meets e ∧ s.step e = .ok s' := by
  cases h with
  | looking hidle hdelayed hsrvreq hpending =>
    have h := Good.looking hidle hdelayed hsrvreq hpending
    cases hq : s.srvreq with
    | none => exact h.addr_goesOn hidle.making (hpending.resolve_left (not_not.mpr hq)) hidle.areq
    | calling => exact absurd hq hsrvreq
    | waiting =>
      refine h.takes (e := .srv none 0 false) (by simp [Meets]) hidle.making ?_
      rw [act, if_pos (Or.inl ⟨hq, by simp⟩)]
      exact uses_ne _ _
    | delayed err =>
      refine h.takes (e := .srv none err false) (by simp [Meets]) hidle.making ?_
      rw [act, if_pos (Or.inr ⟨rfl, hq⟩)]
      exact uses_ne _ _
  | given hidle hareq hsrvreq hdelayed =>
    have h := Good.given hidle hareq hsrvreq hdelayed
    obtain ⟨l, hgiven, -⟩ := hdelayed
    refine h.takes (e := .list false) trivial hidle.making ?_
    simp only [act, hgiven]
    exact uses_ne _ _
  | defport hearly hcons hareq hsrvreq hdelayed =>
    have h := Good.defport hearly hcons hareq hsrvreq hdelayed
    obtain ⟨c, hcons⟩ := hcons
    have hc : s.cons[0]? = some (some c) := by rw [hcons]; rfl
    exact h.report_goesOn hearly.making hc (by rw [hareq]; rfl)
  | running l htried hmaking hpending =>
    have h := Good.running l htried hmaking hpending
    obtain ⟨i, c, hc⟩ := hpending
    cases hareq : s.areq.isDelayed with
    | true =>
      refine h.addr_goesOn hmaking ?_ htried.areq
      intro hnone
      rw [hnone] at hareq
      cases hareq
    | false => exact h.report_goesOn hmaking hc hareq
  | making l htried hmaking hroom =>
    obtain ⟨c, hc⟩ := Option.ne_none_iff_exists'.mp hmaking
    rcases step_spec (.making l htried hmaking hroom) (e := .made false) trivial with
      hstop | ⟨s', hs', -⟩
    · rw [step, if_neg (by simp [During]), act, hc] at hstop
      exact absurd hstop (uses_ne _ _)
    · exact ⟨.made false, s', trivial, hs'⟩
  | ended hover =>
    rw [hover.freed] at hs
    cases hs

theorem kept_of_live (h : s.Good) (hs : s.Live) : s.Kept where
  once := by simp [hs.calls, hs.freed]
  goesOn := h.goesOn
  nearer := by
    intro e s' hmeets hstep
    rcases step_spec h hmeets with hstop | ⟨s₁, hs₁, hmoves⟩
    · rw [hstop] at hstep
      cases hstep
    · rw [hs₁] at hstep
      cases hstep
      exact hmoves.2
  ended := by simp [hs.calls]
  quiet := by simp [hs.freed]
  untouched := step_alive hs
  newSrv := by
    intro e hmeets hstep
    rcases step_spec h hmeets with hstop | ⟨s₁, hs₁, -⟩
    · rw [hstop] at hstep
      cases hstep
    · rw [hs₁] at hstep
      cases hstep

theorem Over.kept (hs : s.Over) : s.Kept := by
  obtain ⟨r, hcalls, hended⟩ := hs.calls
  refine ⟨by simp [hcalls, hs.freed], by simp [hs.freed], ?_, ?_, fun _ => hs.disabled,
    fun e => by simp [hs.disabled e], fun e _ => by simp [hs.disabled e]⟩
  · intro e s' _ hstep
    rw [hs.disabled e] at hstep
    cases hstep
  · intro r' hr'
    rw [hcalls, List.mem_singleton] at hr'
    exact hr' ▸ hended

theorem Good.kept (h : s.Good) : s.Kept := by
  rcases h.live_or_over with hlive | hover
  · exact kept_of_live h hlive
  · exact hover.kept

theorem ask_ne (failure : Option ℕ) :
    Lookup.ask failure ≠ .calling ∧ Lookup.ask failure ≠ .none := by
  cases failure <;> simp [Lookup.ask]

theorem early_spec {defport : BitVec 16} {namep delayed : Bool} {h : Option Hostent} {err : ℕ}
    {srvreq : Option ℕ} (heq : early defport namep h err true delayed srvreq = .ok s) : s.Good := by
  cases heq
  exact .looking ⟨⟨⟨show Lookup.none ≠ .calling by simp, rfl, rfl, rfl, rfl⟩, rfl, rfl, rfl, rfl⟩,
    rfl, rfl, rfl⟩ rfl (ask_ne srvreq).1 (Or.inl (ask_ne srvreq).2)

theorem start_spec {defport : BitVec 16} {namep : Bool} {st : Start} (hst : st.Meets)
    (h : start defport namep st = .ok s) : s.Good := by
  cases st with
  | name areq srvreq =>
    cases h
    exact .looking ⟨⟨⟨(ask_ne areq).1, rfl, rfl, rfl, rfl⟩, rfl, rfl, rfl, rfl⟩, rfl, rfl, rfl⟩ rfl
      (ask_ne srvreq).1 (Or.inl (ask_ne srvreq).2)
  | fails err junk srvreq =>
    obtain rfl : junk = true := hst
    exact early_spec h
  | digits host junk d srvreq =>
    obtain rfl : junk = true := hst
    exact early_spec h
  | list l =>
    cases h
    exact .given ⟨⟨⟨by simp [new], rfl, rfl, rfl, rfl⟩, rfl, rfl, rfl, rfl⟩, rfl, rfl, rfl⟩ rfl rfl
      ⟨l, rfl, hst⟩

def next (s : SrvConnect) (e : Event) : Option SrvConnect := (s.step e).toOption

/-- Every run whose steps the code is ready for: the callback runs just once, and for the reason
that it should. -/
theorem tcpconnectSrv_kept {defport : BitVec 16} {namep : Bool} {st : Start} {s₀ : SrvConnect}
    (hst : st.Meets) (hstart : start defport namep st = .ok s₀) {es : List Event}
    (hrun : Lib.Run next Meets s₀ es s) : s.Kept := by
  refine Good.kept (hrun.invariant (start_spec hst hstart) ?_)
  intro a e b ha hmeets hb
  rcases step_spec ha hmeets with hstop | ⟨s', hs', hmoves⟩
  · rw [next, hstop] at hb
    cases hb
  · rw [next, hs'] at hb
    cases hb
    exact hmoves.1

/-- Two servers: the first has no service, and the attempt at the second succeeds. -/
theorem tcpconnectSrv_kept_second :
    ∃ s, Lib.Run next Meets { new 80 false with areq := .waiting, srvreq := .waiting }
        [.srv (some ⟨[], [], [⟨0, 0, 0, [0x61]⟩, ⟨0, 0, 443, [0x62]⟩]⟩) 0 false, .made false,
          .report 1 (.fd 5) false] s ∧ s.Kept := by
  obtain ⟨s, hs⟩ : ∃ s, [.srv (some ⟨[], [], [⟨0, 0, 0, [0x61]⟩, ⟨0, 0, 443, [0x62]⟩]⟩) 0 false,
      .made false, .report 1 (.fd 5) false].foldlM (fun s e => if Meets s e then next s e else none)
        { new 80 false with areq := .waiting, srvreq := .waiting } = some s :=
    Option.isSome_iff_exists.mp (by decide +kernel)
  have hrun := Lib.Run.of_checked hs
  have hst : (Start.name none none).Meets := trivial
  exact ⟨s, hrun, tcpconnectSrv_kept hst rfl hrun⟩

/-- The second attempt fails at once, and before `delaycb` reports that the first succeeds: the
failure then comes to a request that was deleted. -/
theorem cancel_leaves_attempt :
    ¬ ∀ (defport : BitVec 16) (namep : Bool) (st : Start) (s₀ : SrvConnect) (es : List Event)
      (s : SrvConnect), start defport namep st = .ok s₀ → es.foldlM next s₀ = some s →
      s.Kept := by
  intro hclaim
  obtain ⟨s, hs, hfreed⟩ : ∃ s, [.list false, .made false, .timeout false, .made true,
      .report 0 (.fd 5) false].foldlM next
      { new 0 false with
        delayed := some ⟨[], [], [⟨0, 0, 80, [0x61]⟩, ⟨0, 0, 443, [0x62]⟩]⟩ } = some s ∧
      s.step (.report 1 (.error .ECONNREFUSED) false) = .error .freed := ⟨_, rfl, rfl⟩
  exact (hclaim 0 false (.list _) _ _ s rfl hs).untouched _ hfreed

/-- The lookup of the first attempt fails while that of the second is sent. -/
example : ∃ s, [.list false, .made false, .timeout false].foldlM next
      { new 0 false with
        delayed := some ⟨[], [], [⟨0, 0, 80, [0x61]⟩, ⟨0, 0, 443, [0x62]⟩]⟩ } = some s ∧
      s.step (.report 0 (.error .EAGAIN) false) = .error .again := ⟨_, rfl, rfl⟩

/-- The lookup of the address fails while that of the servers is sent. -/
example : start 80 false (.fails 2 false none) = .error .freed := rfl

end SrvConnect

end Sfslite.Async
