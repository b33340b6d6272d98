import Sfslite.Async.Dnsreq

/-!
`tcpconnect` of `tcpconnect.C`: a connection to an address, or to a name that is looked up first.
What the system calls answer, and when the event loop goes on with the request, are events.
-/

namespace Sfslite.Async

open Sfslite.Arpc (Byte)
open Dnsparse (Hostent Name)

/-- The values of `errno`, by name where the code names them. -/
inductive Errno where
  | EADDRINUSE
  | EADDRNOTAVAIL
  | EAGAIN
  | ENOENT
  | ECONNREFUSED
  | other (n : ℕ)
deriving DecidableEq, Repr

def dnsTmperr (no : ℕ) : Bool :=
  no = servfail ∨ no = arerrTimeout ∨ no = arerrCantsend ∨ no = Dnsparse.arerrBadresp

/-- How far the lookup of the name is: it waits for an answer; it failed as it was made, and
`delaycb` is to report that; or its callback runs. -/
inductive Lookup where
  | none
  | waiting
  | delayed (err : ℕ)
  | calling
deriving DecidableEq, Repr

/-- `delaycb` is to report a failure. -/
def Lookup.isDelayed : Lookup → Bool
  | .delayed _ => true
  | _ => false

/-- What the callback is called with: a descriptor, or -1 and `errno`. -/
inductive Reply where
  | fd (n : ℕ)
  | error (e : Errno)
deriving DecidableEq, Repr

/-- A request, with what the event loop and the program have of it: the failures that `delaycb` is
to report, the descriptors that are watched, those of its own that are open, the calls of its
callback, and those that have not returned, with whether the lookup is behind one. -/
structure Tcpconnect where
  port : BitVec 16
  fd : Option ℕ
  dnsp : Bool
  namep : Bool
  name : Option Name
  connRets : BitVec 32
  sin : Option (List Byte × BitVec 16)
  lookup : Lookup
  failures : List Errno
  selwrite : List ℕ
  fds : List ℕ
  calls : List Reply
  replying : List Bool
  cancelled : Bool
  freed : Bool
deriving DecidableEq

namespace Tcpconnect

/-- A request is used that was deleted; or the event cannot happen. -/
inductive Stop where
  | freed
  | disabled
deriving DecidableEq, Repr

/-- One turn of the loop of `connect_to_in_addr`: there is no socket, `connect` fails, or the
connection is on its way. -/
inductive Attempt where
  | nosock (e : Errno)
  | failed (n : ℕ) (e : Errno)
  | started (n : ℕ)
deriving DecidableEq, Repr

/-- The address is taken, and another turn is tried. -/
def Attempt.taken : Attempt → Bool
  | .failed _ e => e = .EADDRINUSE ∨ e = .EADDRNOTAVAIL
  | _ => false

/-- `size_t max_retries = tcpconnect_conn_rets` -/
def maxRetries (s : Tcpconnect) : BitVec 64 := s.connRets.signExtend 64

/-- The loop, with `retry` and the `errno` of the turn before. -/
def connectLoop (as : List Attempt) (retry : BitVec 64) (errno : Errno) (s : Tcpconnect) :
    Except Stop Tcpconnect :=
  if retry ≤ s.maxRetries then
    match as with
    | [] => .error .disabled
    | .nosock e :: _ => .ok { s with fd := none, failures := s.failures ++ [e] }
    | .failed n e :: as =>
      if n ∈ s.fds then .error .disabled
      else
        let s := { s with fd := some n, fds := n :: s.fds }
        if e = .EADDRINUSE ∨ e = .EADDRNOTAVAIL then connectLoop as (retry + 1) e s
        else .ok { s with failures := s.failures ++ [e] }
    | .started n :: _ =>
      if n ∈ s.fds then .error .disabled
      else .ok { s with fd := some n, fds := n :: s.fds, selwrite := n :: s.selwrite }
  else .ok { s with failures := s.failures ++ [errno] }

def connectToInAddr (s : Tcpconnect) (a : List Byte) (as : List Attempt) : Except Stop Tcpconnect :=
  connectLoop as 0 (.other 0) { s with sin := some (a, s.port) }

/-- `reply`, up to the return of the callback. -/
def reply (s : Tcpconnect) (r : Reply) (lookup : Bool) : Tcpconnect :=
  let s :=
    match r with
    | .fd n => { s with fd := if s.fd = some n then none else s.fd, fds := s.fds.erase n }
    | .error _ => s
  { s with calls := s.calls ++ [r], replying := lookup :: s.replying }

def fail (s : Tcpconnect) (e : Errno) (lookup : Bool) : Tcpconnect := s.reply (.error e) lookup

def nameCb (s : Tcpconnect) (h : Option Hostent) (err : ℕ) (as : List Attempt) :
    Except Stop Tcpconnect :=
  let s := { s with dnsp := false }
  match h with
  | none => .ok (s.fail (if dnsTmperr err then .EAGAIN else .ENOENT) true)
  | some h =>
    { s with name := if s.namep then some h.name else s.name }.connectToInAddr
      (h.addrList.headD []) as

/-- The destructor. A failure of the lookup that `delaycb` is to report stays there. -/
def delete (s : Tcpconnect) : Except Stop Tcpconnect :=
  if s.freed then .error .freed
  else
    let s := if s.dnsp ∧ s.lookup = .waiting then { s with lookup := .none } else s
    match s.fd with
    | none => .ok { s with freed := true }
    | some n => .ok
        { s with
          freed := true, selwrite := s.selwrite.filter (· ≠ n), fds := s.fds.erase n }

/-- `getpeername` answers, or it does not and there may be an error of the socket. -/
def connectCb (s : Tcpconnect) (failure : Option (Option Errno)) : Except Stop Tcpconnect :=
  match s.fd with
  | none => .error .disabled
  | some n =>
    let s := { s with selwrite := s.selwrite.filter (· ≠ n) }
    match failure with
    | none => .ok (s.reply (.fd n) false)
    | some err => .ok (s.fail (err.getD .ECONNREFUSED) false)

/-- The lookup calls back, or does so again while its callback runs; the descriptor can be written
to; the event loop comes to a failure of `delaycb`; the program cancels the request; or its
callback returns. -/
inductive Event where
  | lookup (h : Option Hostent) (err : ℕ) (as : List Attempt)
  | again (err : ℕ)
  | writable (failure : Option (Option Errno))
  | failure
  | cancel
  | ret
deriving DecidableEq

/-- The program has the request until its callback has returned. -/
def step (s : Tcpconnect) : Event → Except Stop Tcpconnect
  | .lookup h err as =>
    if s.lookup = .waiting ∨ h = none ∧ s.lookup = .delayed err then
      if s.freed then .error .freed
      else { s with lookup := if h.isSome then .none else .calling }.nameCb h err as
    else .error .disabled
  | .again err =>
    if s.lookup = .calling then
      if s.freed then .error .freed else s.nameCb none err []
    else .error .disabled
  | .writable failure =>
    if s.selwrite ≠ [] then
      if s.freed then .error .freed else s.connectCb failure
    else .error .disabled
  | .failure =>
    match s.failures with
    | [] => .error .disabled
    | e :: failures =>
      if s.freed then .error .freed else .ok ({ s with failures := failures }.fail e false)
  | .cancel =>
    if s.cancelled = false ∧ (s.calls = [] ∨ s.replying ≠ []) then
      { s with cancelled := true }.delete
    else .error .disabled
  | .ret =>
    match s.replying with
    | [] => .error .disabled
    | lookup :: replying =>
      { s with
        replying := replying, lookup := if lookup then .none else s.lookup }.delete

/-- How a request is made: for an address; or for a name, which may be an address in digits, wait
for its answer, or fail as it is made. -/
inductive Start where
  | addr (a : List Byte) (as : List Attempt)
  | digits (h : Hostent) (as : List Attempt)
  | waiting
  | delayed (err : ℕ)
deriving DecidableEq

def new (port : BitVec 16) (namep : Bool) (connRets : BitVec 32) : Tcpconnect where
  port := port
  fd := none
  dnsp := false
  namep := namep
  name := none
  connRets := connRets
  sin := none
  lookup := .none
  failures := []
  selwrite := []
  fds := []
  calls := []
  replying := []
  cancelled := false
  freed := false

def start (port : BitVec 16) (namep : Bool) (connRets : BitVec 32) :
    Start → Except Stop Tcpconnect
  | .addr a as => (new port false connRets).connectToInAddr a as
  | .digits h as => (new port namep connRets).nameCb (some h) 0 as
  | .waiting => .ok { new port namep connRets with dnsp := true, lookup := .waiting }
  | .delayed err => .ok { new port namep connRets with dnsp := true, lookup := .delayed err }

/-- No second turn of the loop: with another allowed, the first does not find the address taken. -/
def OneTurn (connRets : BitVec 32) (as : List Attempt) : Prop :=
  connRets ≠ 0 → ∀ a ∈ as.head?, a.taken = false

/-- The step is one that the code is ready for. -/
def Meets (s : Tcpconnect) : Event → Prop
  | .lookup h _ as => h.isSome → OneTurn s.connRets as
  | .again _ => False
  | .cancel => s.failures = [] ∧ s.lookup.isDelayed = false ∧ s.replying = []
  | _ => True

instance (s : Tcpconnect) (e : Event) : Decidable (s.Meets e) :=
  match e with
  | .lookup h _ as => inferInstanceAs (Decidable (h.isSome → s.connRets ≠ 0 →
      ∀ a ∈ as.head?, a.taken = false))
  | .again _ => .isFalse id
  | .cancel => inferInstanceAs (Decidable (s.failures = [] ∧ s.lookup.isDelayed = false ∧
      s.replying = []))
  | .writable _ => .isTrue trivial
  | .failure => .isTrue trivial
  | .ret => .isTrue trivial

def Start.Meets (connRets : BitVec 32) : Start → Prop
  | .addr _ as => OneTurn connRets as
  | .digits _ as => OneTurn connRets as
  | _ => True

/-- The callback runs once at most, and not for a request that is cancelled. A request that is
there is about to go on; one that was deleted has called back, if it was not cancelled, has none of
its sockets open, and is not used again. -/
structure Kept (s : Tcpconnect) : Prop where
  once : s.calls.length ≤ 1
  cancelled : s.cancelled = true → s.calls = []
  goesOn : s.freed = false → ∃ e s', e ≠ .cancel ∧ s.Meets e ∧ s.step e = .ok s'
  called : s.freed = true → s.cancelled = false → s.calls.length = 1
  sockets : s.freed = true → s.fds = []
  untouched : ∀ e, s.step e ≠ .error .freed
  quiet : s.freed = true → ∀ e, s.step e = .error .disabled

/-- What is pending, with all else at rest. -/
structure Pending (s : Tcpconnect) (dnsp : Bool) (lookup : Lookup) (failures : List Errno)
    (selwrite : List ℕ) (calls : List Reply) (replying : List Bool) : Prop where
  dnsp : s.dnsp = dnsp
  lookup : s.lookup = lookup
  failures : s.failures = failures
  selwrite : s.selwrite = selwrite
  calls : s.calls = calls
  replying : s.replying = replying
  fds : s.fds = s.fd.toList
  cancelled : s.cancelled = false
  freed : s.freed = false

structure Over (s : Tcpconnect) : Prop where
  lookup : s.lookup = .none
  failures : s.failures = []
  selwrite : s.selwrite = []
  replying : s.replying = []
  fds : s.fds = []
  freed : s.freed = true
  calls : if s.cancelled then s.calls = [] else s.calls.length = 1

inductive Stage where
  | looking
  | connecting
  | failing
  | calling
  | ended
deriving DecidableEq

def Stage.left : Stage → ℕ
  | .looking => 3
  | .connecting => 2
  | .failing => 2
  | .calling => 1
  | .ended => 0

def At (s : Tcpconnect) : Stage → Prop
  | .looking => s.fd = none ∧
      (s.Pending true .waiting [] [] [] [] ∨ ∃ err, s.Pending true (.delayed err) [] [] [] [])
  | .connecting => ∃ n, s.fd = some n ∧ s.Pending false .none [] [n] [] []
  | .failing => ∃ e, s.Pending false .none [e] [] [] []
  | .calling => ∃ r lookup,
      s.Pending false (if lookup then .calling else .none) [] [] [r] [lookup]
  | .ended => s.Over

variable {s s' : Tcpconnect}

theorem connectLoop_over (as : List Attempt) {retry : BitVec 64} (errno : Errno)
    (h : ¬ retry ≤ s.maxRetries) :
    connectLoop as retry errno s = .ok { s with failures := s.failures ++ [errno] } := by
  rw [connectLoop.eq_def, if_neg h]

theorem connectLoop_stop (as : List Attempt) (retry : BitVec 64) (errno : Errno) (s : Tcpconnect)
    {x : Stop} (h : connectLoop as retry errno s = .error x) : x = .disabled := by
  induction as generalizing retry errno s with
  | nil =>
    rw [connectLoop.eq_def] at h
    split_ifs at h
    · cases h
      rfl
  | cons a as ih =>
    rw [connectLoop.eq_def] at h
    by_cases hretry : retry ≤ s.maxRetries
    · rw [if_pos hretry] at h
      cases a with
      | nosock e => cases h
      | started n =>
        simp only at h
        split_ifs at h
        cases h
        rfl
      | failed n e =>
        simp only at h
        split_ifs at h
        · cases h
          rfl
        · exact ih _ _ _ h
    · rw [if_neg hretry] at h
      cases h

variable {as : List Attempt}

theorem connectLoop_spec {errno : Errno}
    (hs : s.Pending false .none [] [] [] []) (hfd : s.fd = none) (has : OneTurn s.connRets as)
    (h : connectLoop as 0 errno s = .ok s') : s'.At .connecting ∨ s'.At .failing := by
  have hfds : s.fds = [] := by rw [hs.fds, hfd, Option.toList_none]
  have hfresh : ∀ n, ¬ n ∈ s.fds := by simp [hfds]
  have hfailing : ∀ n e, ({ s with
      fd := n, fds := n.toList, failures := s.failures ++ [e] } : Tcpconnect).At .failing :=
    fun n e => ⟨e, hs.dnsp, hs.lookup, by simp [hs.failures], hs.selwrite, hs.calls, hs.replying,
      rfl, hs.cancelled, hs.freed⟩
  have hzero : (0 : BitVec 64) ≤ s.maxRetries := Nat.zero_le _
  rw [connectLoop.eq_def, if_pos hzero] at h
  cases as with
  | nil => cases h
  | cons a as =>
    cases a with
    | nosock e =>
      cases h
      have hat := hfailing none e
      rw [Option.toList_none, ← hfds] at hat
      exact Or.inr hat
    | started n =>
      simp only [if_neg (hfresh n)] at h
      cases h
      exact Or.inl ⟨n, rfl, hs.dnsp, hs.lookup, hs.failures, by simp [hs.selwrite], hs.calls,
        hs.replying, by simp [hfds], hs.cancelled, hs.freed⟩
    | failed n e =>
      simp only [if_neg (hfresh n)] at h
      by_cases he : e = .EADDRINUSE ∨ e = .EADDRNOTAVAIL
      · -- the last turn that is allowed
        have hrets : s.connRets = 0 := by
          by_contra hrets
          have htaken := has hrets _ rfl
          simp [Attempt.taken, he] at htaken
        rw [if_pos he, connectLoop_over as e] at h
        · cases h
          rw [hfds]
          exact Or.inr (hfailing (some n) e)
        · rw [maxRetries, hrets]
          decide
      · rw [if_neg he] at h
        cases h
        rw [hfds]
        exact Or.inr (hfailing (some n) e)

theorem connectToInAddr_spec {addr : List Byte}
    (hs : s.Pending false .none [] [] [] []) (hfd : s.fd = none) (has : OneTurn s.connRets as)
    (h : s.connectToInAddr addr as = .ok s') : s'.At .connecting ∨ s'.At .failing :=
  connectLoop_spec (s := { s with sin := some (addr, s.port) })
    { hs with } hfd has h

variable {lookup : Lookup}

theorem Pending.setLookup {b : Bool} {failures : List Errno} {selwrite : List ℕ}
    {calls : List Reply} {replying : List Bool}
    (hs : s.Pending b lookup failures selwrite calls replying) (lookup' : Lookup) :
    ({ s with lookup := lookup' } : Tcpconnect).Pending b lookup' failures selwrite calls
      replying :=
  { hs with lookup := rfl }

theorem fail_spec (b : Bool) (e : Errno)
    (hs : s.Pending false (if b then .calling else .none) [] [] [] []) : (s.fail e b).At .calling :=
  ⟨.error e, b, hs.dnsp, hs.lookup, hs.failures, hs.selwrite, by simp [fail, reply, hs.calls],
    by simp [fail, reply, hs.replying], hs.fds, hs.cancelled, hs.freed⟩

theorem nameCb_none (err : ℕ) (as : List Attempt) (hs : s.Pending true .calling [] [] [] []) :
    ∃ s', s.nameCb none err as = .ok s' ∧ s'.At .calling :=
  ⟨_, rfl, fail_spec (s := { s with dnsp := false }) true _
    { hs with dnsp := rfl }⟩

theorem nameCb_some {b : Bool} (h : Hostent) (err : ℕ)
    (hs : s.Pending b .none [] [] [] []) (hfd : s.fd = none) (has : OneTurn s.connRets as) :
    s.nameCb (some h) err as = .error .disabled ∨
      ∃ s', s.nameCb (some h) err as = .ok s' ∧ (s'.At .connecting ∨ s'.At .failing) := by
  cases hname : s.nameCb (some h) err as with
  | error x =>
    rw [connectLoop_stop _ _ _ _ hname]
    exact Or.inl rfl
  | ok s' =>
    refine Or.inr ⟨s', rfl, ?_⟩
    exact connectToInAddr_spec
      (s := { s with dnsp := false, name := if s.namep then some h.name else s.name })
      { hs with dnsp := rfl } hfd has hname

theorem connectCb_spec {n : ℕ} (hfd : s.fd = some n) (hs : s.Pending false .none [] [n] [] [])
    (failure : Option (Option Errno)) : ∃ s', s.connectCb failure = .ok s' ∧ s'.At .calling := by
  have hwatched : s.selwrite.filter (· ≠ n) = [] := by simp [hs.selwrite]
  simp only [connectCb, hfd]
  cases failure with
  | none =>
    refine ⟨_, rfl, .fd n, false, hs.dnsp, hs.lookup, hs.failures, hwatched,
      by simp [reply, hs.calls], by simp [reply, hs.replying], ?_, hs.cancelled, hs.freed⟩
    simp [reply, hfd, hs.fds]
  | some err =>
    have hrest : ({ s with selwrite := s.selwrite.filter (· ≠ n) } : Tcpconnect).Pending false
        .none [] [] [] [] :=
      { hs with selwrite := hwatched }
    exact ⟨_, rfl, hfd ▸ fail_spec false _ hrest⟩

theorem delete_spec (hlookup : s.lookup = .none ∨ s.dnsp = true ∧ s.lookup = .waiting)
    (hfailures : s.failures = []) (hselwrite : ∀ n ∈ s.selwrite, s.fd = some n)
    (hreplying : s.replying = []) (hfds : s.fds = s.fd.toList) (hfreed : s.freed = false)
    (hcalls : if s.cancelled then s.calls = [] else s.calls.length = 1) :
    ∃ s', s.delete = .ok s' ∧ s'.Over := by
  rw [delete, if_neg (by simp [hfreed])]
  generalize hs₁ : (if s.dnsp = true ∧ s.lookup = .waiting then
    { s with lookup := .none } else s) = s₁
  have hat : s₁ = { s with lookup := .none } := by
    rw [← hs₁]
    rcases hlookup with hnone | hwaiting
    · rw [if_neg (by simp [hnone]), ← hnone]
    · rw [if_pos hwaiting]
  subst hat
  cases hfd : s.fd with
  | none =>
    refine ⟨_, rfl, rfl, hfailures, ?_, hreplying, by simp [hfds, hfd], rfl, hcalls⟩
    rw [hfd] at hselwrite
    exact List.eq_nil_iff_forall_not_mem.mpr fun n hn => by cases hselwrite n hn
  | some n =>
    refine ⟨_, rfl, rfl, hfailures, ?_, hreplying, by simp [hfds, hfd], rfl, hcalls⟩
    refine List.filter_eq_nil_iff.mpr fun m hm => ?_
    have heq := hselwrite m hm
    rw [hfd] at heq
    simp [Option.some.inj heq]

variable {e : Event}

theorem looking_spec (hlookup : lookup = .waiting ∨ ∃ err, lookup = .delayed err)
    (hfd : s.fd = none) (hs : s.Pending true lookup [] [] [] []) (hmeets : s.Meets e) :
    s.step e = .error .disabled ∨
      ∃ s' st, s.step e = .ok s' ∧ s'.At st ∧ st.left < Stage.looking.left := by
  cases e with
  | lookup host err as =>
    by_cases hready : s.lookup = .waiting ∨ host = none ∧ s.lookup = .delayed err
    · rw [step, if_pos hready, if_neg (by simp [hs.freed])]
      cases host with
      | none =>
        obtain ⟨s', hs', hat⟩ := nameCb_none err as (hs.setLookup .calling)
        exact Or.inr ⟨s', .calling, hs', hat, by decide⟩
      | some host =>
        rcases nameCb_some host err (hs.setLookup .none) hfd (hmeets rfl) with
          hstop | ⟨s', hs', hat | hat⟩
        · exact Or.inl hstop
        · exact Or.inr ⟨s', .connecting, hs', hat, by decide⟩
        · exact Or.inr ⟨s', .failing, hs', hat, by decide⟩
    · exact Or.inl (by rw [step, if_neg hready])
  | again err => exact hmeets.elim
  | writable failure => exact Or.inl (by simp [step, hs.selwrite])
  | failure => exact Or.inl (by simp [step, hs.failures])
  | ret => exact Or.inl (by simp [step, hs.replying])
  | cancel =>
    have hwaiting : s.lookup = .waiting := by
      rcases hlookup with hwaiting | ⟨err, hdelayed⟩
      · rw [hs.lookup, hwaiting]
      · have hsettled := hmeets.2.1
        rw [hs.lookup, hdelayed] at hsettled
        cases hsettled
    rw [step, if_pos ⟨hs.cancelled, Or.inl hs.calls⟩]
    obtain ⟨s', hs', hover⟩ := delete_spec (s := { s with cancelled := true })
      (Or.inr ⟨hs.dnsp, hwaiting⟩) hs.failures (by simp [hs.selwrite]) hs.replying hs.fds
      hs.freed (by simp [hs.calls])
    exact Or.inr ⟨s', .ended, hs', hover, by decide⟩

theorem connecting_spec {n : ℕ} (hfd : s.fd = some n) (hs : s.Pending false .none [] [n] [] [])
    (e : Event) :
    s.step e = .error .disabled ∨
      ∃ s' st, s.step e = .ok s' ∧ s'.At st ∧ st.left < Stage.connecting.left := by
  cases e with
  | lookup host err as => exact Or.inl (by simp [step, hs.lookup])
  | again err => exact Or.inl (by simp [step, hs.lookup])
  | writable failure =>
    rw [step, if_pos (by simp [hs.selwrite]), if_neg (by simp [hs.freed])]
    obtain ⟨s', hs', hat⟩ := connectCb_spec hfd hs failure
    exact Or.inr ⟨s', .calling, hs', hat, by decide⟩
  | failure => exact Or.inl (by simp [step, hs.failures])
  | ret => exact Or.inl (by simp [step, hs.replying])
  | cancel =>
    rw [step, if_pos ⟨hs.cancelled, Or.inl hs.calls⟩]
    obtain ⟨s', hs', hover⟩ := delete_spec (s := { s with cancelled := true })
      (Or.inl hs.lookup) hs.failures (by simp [hs.selwrite, hfd]) hs.replying hs.fds
      hs.freed (by simp [hs.calls])
    exact Or.inr ⟨s', .ended, hs', hover, by decide⟩

theorem failing_spec {err : Errno} (hs : s.Pending false .none [err] [] [] [])
    (hmeets : s.Meets e) :
    s.step e = .error .disabled ∨
      ∃ s' st, s.step e = .ok s' ∧ s'.At st ∧ st.left < Stage.failing.left := by
  cases e with
  | lookup host err as => exact Or.inl (by simp [step, hs.lookup])
  | again err => exact Or.inl (by simp [step, hs.lookup])
  | writable failure => exact Or.inl (by simp [step, hs.selwrite])
  | failure =>
    have hat : ({ s with failures := [] }.fail err false).At .calling :=
      fail_spec false err { hs with failures := rfl }
    refine Or.inr ⟨_, .calling, ?_, hat, by decide⟩
    simp [step, hs.failures, hs.freed]
  | ret => exact Or.inl (by simp [step, hs.replying])
  | cancel =>
    have hnil := hmeets.1
    rw [hs.failures] at hnil
    cases hnil

theorem calling_spec {r : Reply} {b : Bool}
    (hs : s.Pending false (if b then .calling else .none) [] [] [r] [b]) (hmeets : s.Meets e) :
    s.step e = .error .disabled ∨
      ∃ s' st, s.step e = .ok s' ∧ s'.At st ∧ st.left < Stage.calling.left := by
  cases e with
  | lookup host err as =>
    refine Or.inl ?_
    cases b <;> simp [step, hs.lookup]
  | again err => exact hmeets.elim
  | writable failure => exact Or.inl (by simp [step, hs.selwrite])
  | failure => exact Or.inl (by simp [step, hs.failures])
  | ret =>
    obtain ⟨s', hs', hover⟩ := delete_spec (s := { s with replying := [], lookup := .none })
      (Or.inl rfl) hs.failures (by simp [hs.selwrite]) rfl hs.fds hs.freed
      (by simp [hs.calls, hs.cancelled])
    refine Or.inr ⟨s', .ended, ?_, hover, by decide⟩
    rw [← hs']
    cases b <;> simp [step, hs.replying, hs.lookup]
  | cancel =>
    have hnil := hmeets.2.2
    rw [hs.replying] at hnil
    cases hnil

theorem Over.disabled (h : s.Over) (e : Event) : s.step e = .error .disabled := by
  have hcalls := h.calls
  cases e with
  | lookup host err as => simp [step, h.lookup]
  | again err => simp [step, h.lookup]
  | writable failure => simp [step, h.selwrite]
  | failure => simp [step, h.failures]
  | ret => simp [step, h.replying]
  | cancel =>
    rw [step, if_neg]
    rintro ⟨hcancelled, hnil | hreplying⟩
    · rw [hcancelled, hnil] at hcalls
      cases hcalls
    · exact hreplying h.replying

theorem step_spec {st : Stage} (h : s.At st) (hmeets : s.Meets e) :
    s.step e = .error .disabled ∨
      ∃ s' st', s.step e = .ok s' ∧ s'.At st' ∧ st'.left < st.left := by
  cases st with
  | looking =>
    obtain ⟨hfd, hs | ⟨err, hs⟩⟩ := h
    · exact looking_spec (Or.inl rfl) hfd hs hmeets
    · exact looking_spec (Or.inr ⟨err, rfl⟩) hfd hs hmeets
  | connecting =>
    obtain ⟨n, hfd, hs⟩ := h
    exact connecting_spec hfd hs e
  | failing =>
    obtain ⟨err, hs⟩ := h
    exact failing_spec hs hmeets
  | calling =>
    obtain ⟨r, b, hs⟩ := h
    exact calling_spec hs hmeets
  | ended => exact Or.inl (Over.disabled h e)

theorem nameCb_stop {h : Option Hostent} {err : ℕ} {x : Stop}
    (hname : s.nameCb h err as = .error x) : x = .disabled := by
  cases h with
  | none => cases hname
  | some h => exact connectLoop_stop _ _ _ _ hname

theorem delete_alive (hs : s.freed = false) : s.delete ≠ .error .freed := by
  rw [delete, if_neg (by simp [hs])]
  simp only
  split <;> simp

theorem step_alive (hs : s.freed = false) (e : Event) : s.step e ≠ .error .freed := by
  have hthere : ¬ s.freed = true := by simp [hs]
  have hdisabled : (.error .disabled : Except Stop Tcpconnect) ≠ .error .freed := by simp
  have hnameCb : ∀ (s : Tcpconnect) h err as, s.nameCb h err as ≠ .error .freed := by
    intro s h err as hfreed
    cases nameCb_stop hfreed
  cases e with
  | lookup h err as =>
    rw [step, if_neg hthere]
    split
    · exact hnameCb _ _ _ _
    · exact hdisabled
  | again err =>
    rw [step, if_neg hthere]
    split
    · exact hnameCb _ _ _ _
    · exact hdisabled
  | writable failure =>
    rw [step, if_neg hthere]
    split
    · rw [connectCb]
      cases s.fd with
      | none => exact hdisabled
      | some n => cases failure <;> simp
    · exact hdisabled
  | failure =>
    rw [step]
    split
    · exact hdisabled
    · simp [hs]
  | cancel =>
    rw [step]
    split
    · exact delete_alive (s := { s with cancelled := true }) hs
    · exact hdisabled
  | ret =>
    rw [step]
    split
    · exact hdisabled
    · exact delete_alive (s := { s with replying := _, lookup := _ }) hs

theorem Pending.kept {b : Bool} {failures : List Errno} {selwrite : List ℕ} {calls : List Reply}
    {replying : List Bool} (hs : s.Pending b lookup failures selwrite calls replying)
    (hcalls : calls.length ≤ 1) (hgoesOn : ∃ e s', e ≠ .cancel ∧ s.Meets e ∧ s.step e = .ok s') :
    s.Kept where
  once := hs.calls ▸ hcalls
  cancelled := by simp [hs.cancelled]
  goesOn := fun _ => hgoesOn
  called := by simp [hs.freed]
  sockets := by simp [hs.freed]
  untouched := fun e => (step_alive hs.freed e)
  quiet := by simp [hs.freed]

theorem kept_of_at {st : Stage} (h : s.At st) : s.Kept := by
  cases st with
  | looking =>
    have hgoesOn : ∀ lookup err, s.Pending true lookup [] [] [] [] →
        (lookup = .waiting ∨ lookup = .delayed err) →
        ∃ e s', e ≠ .cancel ∧ s.Meets e ∧ s.step e = .ok s' := by
      intro lookup err hs hlookup
      obtain ⟨s', hs', -⟩ := nameCb_none err [] (hs.setLookup .calling)
      refine ⟨.lookup none err [], s', by simp, by simp [Meets], ?_⟩
      rw [← hs']
      rcases hlookup with rfl | rfl <;> simp [step, hs.lookup, hs.freed]
    obtain ⟨-, hs | ⟨err, hs⟩⟩ := h
    · exact hs.kept (by simp) (hgoesOn _ 0 hs (Or.inl rfl))
    · exact hs.kept (by simp) (hgoesOn _ err hs (Or.inr rfl))
  | connecting =>
    obtain ⟨n, hfd, hs⟩ := h
    obtain ⟨s', hs', -⟩ := connectCb_spec hfd hs none
    refine hs.kept (by simp) ⟨.writable none, s', by simp, trivial, ?_⟩
    simp [step, hs.selwrite, hs.freed, hs']
  | failing =>
    obtain ⟨err, hs⟩ := h
    refine hs.kept (by simp) ⟨.failure, { s with failures := [] }.fail err false, by simp,
      trivial, ?_⟩
    simp [step, hs.failures, hs.freed]
  | calling =>
    obtain ⟨r, b, hs⟩ := h
    obtain ⟨s', hs', -⟩ := delete_spec (s := { s with replying := [], lookup := .none })
      (Or.inl rfl) hs.failures (by simp [hs.selwrite]) rfl hs.fds hs.freed
      (by simp [hs.calls, hs.cancelled])
    refine hs.kept (by simp) ⟨.ret, s', by simp, trivial, ?_⟩
    rw [← hs']
    cases b <;> simp [step, hs.replying, hs.lookup]
  | ended =>
    have hover : s.Over := h
    have hcalls := hover.calls
    refine ⟨?_, ?_, by simp [hover.freed], ?_, fun _ => hover.fds,
      fun e => by simp [hover.disabled e], fun _ => hover.disabled⟩
    · split_ifs at hcalls
      · simp [hcalls]
      · exact hcalls.le
    · intro hcancelled
      rwa [if_pos hcancelled] at hcalls
    · intro _ hcancelled
      rwa [if_neg (by simp [hcancelled])] at hcalls

theorem start_spec {port : BitVec 16} {namep : Bool} {connRets : BitVec 32} {st : Start}
    (hst : st.Meets connRets) (h : start port namep connRets st = .ok s) :
    ∃ st', s.At st' ∧ st'.left ≤ 3 := by
  have hnew : ∀ b, (new port b connRets).Pending false .none [] [] [] [] := fun _ =>
    ⟨rfl, rfl, rfl, rfl, rfl, rfl, rfl, rfl, rfl⟩
  have hconnect : s.At .connecting ∨ s.At .failing → ∃ st', s.At st' ∧ st'.left ≤ 3 := by
    rintro (hat | hat)
    · exact ⟨_, hat, by decide⟩
    · exact ⟨_, hat, by decide⟩
  cases st with
  | addr a as => exact hconnect (connectToInAddr_spec (hnew _) rfl hst h)
  | digits host as =>
    rcases nameCb_some host 0 (hnew namep) rfl hst with hstop | ⟨s', hs', hat⟩
    · rw [start, hstop] at h
      cases h
    · rw [start, hs'] at h
      cases h
      exact hconnect hat
  | waiting =>
    cases h
    exact ⟨.looking, ⟨rfl, Or.inl ⟨rfl, rfl, rfl, rfl, rfl, rfl, rfl, rfl, rfl⟩⟩, by decide⟩
  | delayed err =>
    cases h
    exact ⟨.looking, ⟨rfl, Or.inr ⟨err, rfl, rfl, rfl, rfl, rfl, rfl, rfl, rfl, rfl⟩⟩,
      by decide⟩

def next (s : Tcpconnect) (e : Event) : Option Tcpconnect := (s.step e).toOption

/-- Every run whose steps the code is ready for: the request keeps to what it should, and comes to
its end in three events. -/
theorem tcpconnect_kept {port : BitVec 16} {namep : Bool} {connRets : BitVec 32} {st : Start}
    {s₀ : Tcpconnect} (hst : st.Meets connRets) (hstart : start port namep connRets st = .ok s₀)
    {es : List Event} (hrun : Lib.Run next Meets s₀ es s) : s.Kept ∧ es.length ≤ 3 := by
  obtain ⟨st₀, hat₀, hleft₀⟩ := start_spec hst hstart
  have hat : ∃ st', s.At st' ∧ es.length + st'.left ≤ 3 := by
    clear hstart hst
    induction hrun with
    | nil => exact ⟨st₀, hat₀, by simpa using hleft₀⟩
    | snoc _ hmeets hs ih =>
        obtain ⟨st₁, hat₁, hleft₁⟩ := ih
        rcases step_spec hat₁ hmeets with hstop | ⟨s', st', hs', hat', hleft'⟩
        · rw [next, hstop] at hs
          cases hs
        · rw [next, hs'] at hs
          cases hs
          refine ⟨st', hat', ?_⟩
          rw [List.length_append, List.length_singleton]
          omega
  obtain ⟨st', hat', hleft'⟩ := hat
  exact ⟨kept_of_at hat', by omega⟩

/-- A name that is looked up, and a connection that comes about. -/
theorem tcpconnect_kept_name :
    ∃ s, Lib.Run next Meets { new 80 false 0 with dnsp := true, lookup := .waiting }
        [.lookup (some ⟨[], [], [[127, 0, 0, 1]]⟩) 0 [.started 5], .writable none, .ret] s ∧
      s.Kept := by
  obtain ⟨s, hs⟩ : ∃ s, [.lookup (some ⟨[], [], [[127, 0, 0, 1]]⟩) 0 [.started 5], .writable none,
      .ret].foldlM (fun s e => if Meets s e then next s e else none)
        { new 80 false 0 with dnsp := true, lookup := .waiting } = some s :=
    Option.isSome_iff_exists.mp (by decide +kernel)
  have hrun := Lib.Run.of_checked hs
  have hst : Start.waiting.Meets 0 := trivial
  exact ⟨s, hrun, (tcpconnect_kept hst rfl hrun).1⟩

/-- The lookup of a name failed as it was made, and the request is cancelled before `delaycb`
reports that: the failure then comes to a request that was deleted. -/
theorem cancel_leaves_delayed :
    ¬ ∀ (port : BitVec 16) (namep : Bool) (connRets : BitVec 32) (st : Start) (s₀ : Tcpconnect)
      (es : List Event) (s : Tcpconnect), start port namep connRets st = .ok s₀ →
      es.foldlM next s₀ = some s → s.Kept := by
  intro hclaim
  exact (hclaim 80 false 0 (.delayed arerrCantsend) _ [.cancel] _ rfl rfl).untouched
    (.lookup none arerrCantsend []) rfl

end Tcpconnect

end Sfslite.Async
