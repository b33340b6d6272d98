import Mathlib.Algebra.Group.Nat.Defs
import Mathlib.Data.List.Basic

/-!
`aclnttcp_create` of `acallrpc.C`: the lookup of the host and of the port by `rpc2sin`, and the
connection by `aclnttcpobj`. What the callbacks of the chain are called with is an argument.
-/

namespace Sfslite.Arpc.Acallrpc

/-- The statuses of `clnt_stat` that come from here, and those of a call to the port mapper. -/
inductive ClntStat where
  | success
  | failed
  | unknownhost
  | pmapfailure
  | prognotregistered
  | other (stat : ℕ)
deriving DecidableEq, Repr

/-- `sin`; the port is in host order. -/
structure SockaddrIn where
  addr : BitVec 32
  port : BitVec 16
deriving DecidableEq, Repr

/-- `mapping`, of which the port mapper fills in the port. -/
structure Mapping where
  prog : BitVec 32
  vers : BitVec 32
  prot : BitVec 32
deriving DecidableEq, Repr

def pmapPort : BitVec 16 := 111

def ipprotoTcp : BitVec 32 := 6

/-- A stream transport: its descriptor, and whether it is at its end. -/
structure Axprt where
  fd : ℤ
  ateof : Bool
deriving DecidableEq, Repr

/-- What is seen of a `aclnttcpobj`, in order. A client is given by its transport. -/
inductive Io where
  | getport (sin : SockaddrIn) (pm : Mapping)
  | socket (fd : ℤ)
  | connect (fd : ℤ) (sin : SockaddrIn)
  | close (fd : ℤ)
  | xprt (fd : ℤ)
  | reply (clnt : Option Axprt) (stat : ClntStat)
deriving DecidableEq, Repr

/-- The first argument of `aclnttcp_create`. -/
inductive Host where
  | name
  | addr (a : BitVec 32)
deriving DecidableEq, Repr

/-- How the steps turn out: the address that the name has, what the port mapper answers, the
descriptor of the socket, whether `connect` succeeds or is in progress, and whether the socket has
a peer when it can be written to. -/
structure Outcome where
  host : Option (BitVec 32)
  pmap : ClntStat × BitVec 32
  socket : Option ℕ
  connect : Bool
  peer : Bool
deriving DecidableEq, Repr

section

variable (xa : ℤ → Option Axprt) (o : Outcome) (pm : Mapping)

/-- `aclnt::alloc`: `xhinfo::lookup` refuses a transport at its end. -/
def aclntAlloc (ax : Axprt) : Option Axprt := if ax.ateof then none else some ax

def aclnttcpCreateFinish (fd : ℤ) (stat : ClntStat) : List Io :=
  if fd < 0 then [.reply none stat]
  else
    match xa fd with
    | some ax => [.xprt fd, .reply (aclntAlloc ax) stat]
    | none => [.reply none .failed]

def finish (f : ℤ) (stat : ClntStat) : List Io := aclnttcpCreateFinish xa f stat

def connected (fd : ℤ) : List Io :=
  if o.peer then finish xa fd .success else .close fd :: finish xa (-1) .failed

def gotaddr (sin : SockaddrIn) (stat : ClntStat) : List Io :=
  -- finish (NULL, stat)
  if stat ≠ .success then finish xa 0 stat
  else
    match o.socket with
    | none => finish xa (-1) .failed
    | some fd =>
      .socket fd :: .connect fd sin ::
        if o.connect then connected xa o fd else .close fd :: finish xa (-1) .failed

/-- `htons` takes the low half of the port. -/
def gotport (sin : SockaddrIn) (stat : ClntStat) (port : BitVec 32) : List Io :=
  if stat ≠ .success then gotaddr xa o sin .pmapfailure
  else if port = 0 then gotaddr xa o sin .prognotregistered
  else gotaddr xa o { sin with port := port.setWidth 16 } .success

def getport (addr : BitVec 32) (port : BitVec 32) : List Io :=
  if port ≠ 0 then gotaddr xa o ⟨addr, port.setWidth 16⟩ .success
  else .getport ⟨addr, pmapPort⟩ pm :: gotport xa o ⟨addr, pmapPort⟩ o.pmap.1 o.pmap.2

/-- `sin` is all zero where the lookup fails. -/
def dnscb (h : Option (BitVec 32)) (port : BitVec 32) : List Io :=
  match h with
  | some addr => getport xa o pm addr port
  | none => gotaddr xa o ⟨0, 0⟩ .unknownhost

def aclnttcpCreate (host : Host) (port prog vers : BitVec 32) : List Io :=
  match host with
  | .name => dnscb xa o ⟨prog, vers, ipprotoTcp⟩ o.host port
  | .addr a => getport xa o ⟨prog, vers, ipprotoTcp⟩ a port

end

def Host.addr? (host : Host) (o : Outcome) : Option (BitVec 32) :=
  match host with
  | .name => o.host
  | .addr a => some a

/-- The port that the caller gives, or the port mapper. -/
def portOf (port : BitVec 32) (o : Outcome) : Option (BitVec 32) :=
  if port ≠ 0 then some port
  else if o.pmap.1 = .success ∧ o.pmap.2 ≠ 0 then some o.pmap.2
  else none

def lookup (o : Outcome) (host : Host) (port : BitVec 32) : Option (BitVec 32 × BitVec 32) := do
  let addr ← host.addr? o
  let p ← portOf port o
  pure (addr, p)

/-- The descriptor is connected to the address and port that were looked up. -/
def Established (o : Outcome) (host : Host) (port : BitVec 32) (io : List Io) (fd : ℤ) : Prop :=
  ∃ addr p sin, lookup o host port = some (addr, p) ∧ .connect fd sin ∈ io ∧
    sin.addr = addr ∧ sin.port.toNat = p.toNat ∧ o.connect = true ∧ o.peer = true

def Io.isReply : Io → Bool
  | .reply _ _ => true
  | _ => false

/-- The callback runs once, with a client and with success exactly if the connection came about,
and a transport is on the descriptor of this connection. -/
structure Reports (io : List Io) (established : ℤ → Prop) : Prop where
  once : io.countP Io.isReply = 1
  client : ∀ clnt stat, .reply clnt stat ∈ io → (clnt.isSome ↔ ∃ fd, established fd)
  status : ∀ clnt stat, .reply clnt stat ∈ io → (stat = .success ↔ ∃ fd, established fd)
  xprt : ∀ fd, .xprt fd ∈ io → established fd

/-- If the lookup fails, no transport is made on descriptor 0. If the connection comes about, a
transport that is not at its end is made on it, and the port is one that fits. -/
def Spares (xa : ℤ → Option Axprt) (o : Outcome) (host : Host) (port : BitVec 32) : Prop :=
  match lookup o host port with
  | none => xa 0 = none
  | some (_, p) =>
    ∀ fd, o.socket = some fd → o.connect = true → o.peer = true →
      if p.toNat < 2 ^ 16 then ∃ ax, xa fd = some ax ∧ ax.ateof = false else xa fd = none

variable {xa : ℤ → Option Axprt} {o : Outcome} {host : Host} {port prog vers : BitVec 32}

def Quiet (io : List Io) : Prop :=
  ∀ i ∈ io, i.isReply = false ∧ ∀ fd, i ≠ .xprt fd

variable {established : ℤ → Prop}

theorem reports_append {pre io : List Io} (hpre : Quiet pre) :
    Reports (pre ++ io) established ↔ Reports io established := by
  have hcount : (pre ++ io).countP Io.isReply = io.countP Io.isReply := by
    have hzero : pre.countP Io.isReply = 0 :=
      List.countP_eq_zero.mpr fun i hi => by simp [(hpre i hi).1]
    rw [List.countP_append, hzero, Nat.zero_add]
  have hreply : ∀ clnt stat, Io.reply clnt stat ∈ pre ++ io ↔ Io.reply clnt stat ∈ io := by
    intro clnt stat
    rw [List.mem_append, or_iff_right]
    intro hmem
    exact absurd (hpre _ hmem).1 (by simp [Io.isReply])
  have hxprt : ∀ fd, Io.xprt fd ∈ pre ++ io ↔ Io.xprt fd ∈ io := by
    intro fd
    rw [List.mem_append, or_iff_right]
    intro hmem
    exact (hpre _ hmem).2 fd rfl
  constructor
  · rintro ⟨honce, hclient, hstatus, hx⟩
    simp only [hcount, hreply, hxprt] at honce hclient hstatus hx
    exact ⟨honce, hclient, hstatus, hx⟩
  · rintro ⟨honce, hclient, hstatus, hx⟩
    constructor <;> simpa only [hcount, hreply, hxprt]

theorem Quiet.append {io io' : List Io} (h : Quiet io) (h' : Quiet io') : Quiet (io ++ io') := by
  intro i hi
  rcases List.mem_append.mp hi with hi | hi
  · exact h i hi
  · exact h' i hi

theorem reports_reply {clnt : Option Axprt} {stat : ClntStat} :
    Reports [.reply clnt stat] established ↔
      (clnt.isSome ↔ ∃ fd, established fd) ∧ (stat = .success ↔ ∃ fd, established fd) := by
  constructor
  · rintro ⟨-, hclient, hstatus, -⟩
    exact ⟨hclient _ _ (List.mem_singleton_self _), hstatus _ _ (List.mem_singleton_self _)⟩
  · rintro ⟨hclient, hstatus⟩
    constructor
    · rfl
    · simpa using hclient
    · simpa using hstatus
    · simp

theorem reports_xprt {fd : ℤ} {clnt : Option Axprt} {stat : ClntStat} :
    Reports [.xprt fd, .reply clnt stat] established ↔
      clnt.isSome ∧ stat = .success ∧ established fd := by
  constructor
  · rintro ⟨-, hclient, hstatus, hx⟩
    have hest : established fd := hx fd (by simp)
    have hmem : Io.reply clnt stat ∈ [.xprt fd, .reply clnt stat] := by simp
    exact ⟨(hclient _ _ hmem).mpr ⟨fd, hest⟩, (hstatus _ _ hmem).mpr ⟨fd, hest⟩, hest⟩
  · rintro ⟨hclient, hstatus, hest⟩
    have hex : ∃ fd, established fd := ⟨fd, hest⟩
    constructor
    · rfl
    · simpa [hex] using hclient
    · simpa [hex] using hstatus
    · simpa using hest

theorem aclnttcpCreate_addr {addr : BitVec 32} (h : host.addr? o = some addr) :
    aclnttcpCreate xa o host port prog vers = getport xa o ⟨prog, vers, ipprotoTcp⟩ addr port := by
  cases host with
  | name =>
    have hname : o.host = some addr := h
    simp only [aclnttcpCreate, dnscb, hname]
  | addr a =>
    cases h
    rfl

theorem quiet_getport (sin : SockaddrIn) (pm : Mapping) : Quiet [.getport sin pm] := by
  intro i hi
  rw [List.mem_singleton.mp hi]
  exact ⟨rfl, by simp⟩

variable (xa prog vers) in
theorem aclnttcpCreate_some {addr p : BitVec 32} (h : lookup o host port = some (addr, p)) :
    ∃ pre, Quiet pre ∧ (∀ fd sin, Io.connect fd sin ∉ pre) ∧
      aclnttcpCreate xa o host port prog vers =
        pre ++ gotaddr xa o ⟨addr, p.setWidth 16⟩ .success := by
  obtain ⟨a, haddr, hrest⟩ := Option.bind_eq_some_iff.mp h
  obtain ⟨q, hport, heq⟩ := Option.bind_eq_some_iff.mp hrest
  cases heq
  rw [aclnttcpCreate_addr haddr, getport]
  rw [portOf] at hport
  split_ifs at hport with h0 hpmap
  · cases hport
    exact ⟨[], by simp [Quiet], by simp, if_pos h0⟩
  · cases hport
    refine ⟨_, quiet_getport ⟨addr, pmapPort⟩ ⟨prog, vers, ipprotoTcp⟩, by simp, ?_⟩
    rw [if_neg h0, gotport, if_neg (not_not.mpr hpmap.1), if_neg hpmap.2]
    rfl

variable (xa prog vers) in
theorem aclnttcpCreate_none (h : lookup o host port = none) :
    ∃ pre stat, Quiet pre ∧ stat ≠ .success ∧
      aclnttcpCreate xa o host port prog vers = pre ++ finish xa 0 stat := by
  cases haddr : host.addr? o with
  | none =>
    cases host with
    | name =>
      have hname : o.host = none := haddr
      refine ⟨[], .unknownhost, by simp [Quiet], by simp, ?_⟩
      simp [aclnttcpCreate, dnscb, hname, gotaddr]
    | addr a => cases haddr
  | some addr =>
    have hport : portOf port o = none := by
      cases hp : portOf port o with
      | none => rfl
      | some p => simp [lookup, haddr, hp] at h
    rw [portOf] at hport
    split_ifs at hport with h0 hpmap
    rw [aclnttcpCreate_addr haddr, getport, if_neg h0, gotport]
    have hquiet := quiet_getport ⟨addr, pmapPort⟩ ⟨prog, vers, ipprotoTcp⟩
    by_cases hstat : o.pmap.1 = .success
    · have hzero : o.pmap.2 = 0 := by
        by_contra hne
        exact hpmap ⟨hstat, hne⟩
      refine ⟨_, .prognotregistered, hquiet, by simp, ?_⟩
      simp [hstat, hzero, gotaddr]
    · refine ⟨_, .pmapfailure, hquiet, by simp, ?_⟩
      simp [hstat, gotaddr]

theorem connect_notMem_finish (fd f : ℤ) (sin : SockaddrIn) (stat : ClntStat) :
    Io.connect fd sin ∉ finish xa f stat := by
  unfold finish aclnttcpCreateFinish
  by_cases hf : f < 0
  · simp [hf]
  · cases hxa : xa f <;> simp [hf]

theorem connect_mem_gotaddr (fd : ℤ) (sin sin' : SockaddrIn) :
    Io.connect fd sin' ∈ gotaddr xa o sin .success ↔
      (∃ n : ℕ, o.socket = some n ∧ fd = n) ∧ sin' = sin := by
  cases hsock : o.socket with
  | none => simp [gotaddr, hsock, connect_notMem_finish]
  | some n =>
    have hrest : Io.connect fd sin' ∉
        if o.connect then connected xa o n else .close n :: finish xa (-1) .failed := by
      split_ifs
      · rw [connected]
        split_ifs <;> simp [connect_notMem_finish]
      · simp [connect_notMem_finish]
    simp [gotaddr, hsock, hrest]

variable (xa prog vers) in
theorem established_iff {addr p : BitVec 32} (h : lookup o host port = some (addr, p)) (fd : ℤ) :
    Established o host port (aclnttcpCreate xa o host port prog vers) fd ↔
      (∃ n : ℕ, o.socket = some n ∧ fd = n) ∧ p.toNat < 2 ^ 16 ∧ o.connect = true ∧
        o.peer = true := by
  obtain ⟨pre, -, hpre, hcreate⟩ := aclnttcpCreate_some xa prog vers h
  have hport : (p.setWidth 16).toNat = p.toNat ↔ p.toNat < 2 ^ 16 := by
    rw [BitVec.toNat_setWidth]
    omega
  have hmem : ∀ sin, Io.connect fd sin ∈ aclnttcpCreate xa o host port prog vers ↔
      (∃ n : ℕ, o.socket = some n ∧ fd = n) ∧ sin = ⟨addr, p.setWidth 16⟩ := by
    intro sin
    rw [hcreate, List.mem_append, or_iff_right (hpre fd sin), connect_mem_gotaddr]
  constructor
  · rintro ⟨a, q, sin, hlook, hconn, -, hq, hconnect, hpeer⟩
    obtain ⟨rfl, rfl⟩ := Prod.mk.inj (Option.some.inj (h.symm.trans hlook))
    obtain ⟨hsock, rfl⟩ := (hmem sin).mp hconn
    exact ⟨hsock, hport.mp hq, hconnect, hpeer⟩
  · rintro ⟨hsock, hlt, hconnect, hpeer⟩
    exact ⟨addr, p, _, h, (hmem _).mpr ⟨hsock, rfl⟩, rfl, hport.mpr hlt, hconnect, hpeer⟩

theorem reports_failed {pre : List Io} (hpre : Quiet pre)
    (h : ∀ fd, ¬ established fd) : Reports (pre ++ finish xa (-1) .failed) established := by
  have hfinish : finish xa (-1) .failed = [.reply none .failed] := rfl
  rw [reports_append hpre, hfinish, reports_reply]
  simp [h]

/-- The callback runs once, has a client and the status success exactly if the connection to what
was looked up came about, and no transport is made on another descriptor, if and only if the
condition holds. -/
theorem aclnttcpCreate_reports_iff (xa : ℤ → Option Axprt) (o : Outcome) (host : Host)
    (port prog vers : BitVec 32) :
    Reports (aclnttcpCreate xa o host port prog vers)
        (Established o host port (aclnttcpCreate xa o host port prog vers)) ↔
      Spares xa o host port := by
  rw [Spares]
  cases hlook : lookup o host port with
  | none =>
      have hest : ∀ io fd, ¬ Established o host port io fd := by
        rintro io fd ⟨addr, p, sin, h, -⟩
        rw [hlook] at h
        cases h
      obtain ⟨pre, stat, hpre, hstat, hcreate⟩ := aclnttcpCreate_none xa prog vers hlook
      -- finish (NULL, stat) passes descriptor 0 on
      rw [hcreate, reports_append hpre, finish, aclnttcpCreateFinish, if_neg (by decide)]
      cases hxa : xa 0 with
      | none => simp [reports_reply, hest]
      | some ax => simp [reports_xprt, hstat]
  | some r =>
      obtain ⟨addr, p⟩ := r
      have hest := established_iff xa prog vers hlook
      obtain ⟨pre, hpre, -, hcreate⟩ := aclnttcpCreate_some xa prog vers hlook
      set established := Established o host port (aclnttcpCreate xa o host port prog vers)
      rw [hcreate]
      cases hsock : o.socket with
      | none =>
          have hnone : ∀ fd, ¬ established fd := by simp [hest, hsock]
          have hgot : gotaddr xa o ⟨addr, p.setWidth 16⟩ .success = finish xa (-1) .failed := by
            simp [gotaddr, hsock]
          rw [hgot]
          simpa using reports_failed hpre hnone
      | some n =>
          by_cases hup : o.connect = true ∧ o.peer = true
          · have hgot : gotaddr xa o ⟨addr, p.setWidth 16⟩ .success =
                [.socket n, .connect n ⟨addr, p.setWidth 16⟩] ++ finish xa n .success := by
              simp [gotaddr, hsock, hup, connected]
            have hpre' : Quiet (pre ++ [.socket n, .connect n ⟨addr, p.setWidth 16⟩]) :=
              hpre.append (by simp [Quiet, Io.isReply])
            have hn : ¬ (n : ℤ) < 0 := by omega
            rw [hgot, ← List.append_assoc, reports_append hpre', finish, aclnttcpCreateFinish,
              if_neg hn]
            cases hxa : xa n with
            | none => simp [reports_reply, hest, hsock, hup, hxa]
            | some ax =>
                cases hateof : ax.ateof <;>
                  simp [reports_xprt, aclntAlloc, hest, hsock, hup, hxa, hateof]
          · have hnone : ∀ fd, ¬ established fd := by
              intro fd h
              exact hup ((hest fd).mp h).2.2
            have hgot : gotaddr xa o ⟨addr, p.setWidth 16⟩ .success =
                [.socket n, .connect n ⟨addr, p.setWidth 16⟩, .close n] ++
                  finish xa (-1) .failed := by
              cases hconnect : o.connect <;> cases hpeer : o.peer <;>
                simp_all [gotaddr, connected]
            have hpre' :
                Quiet (pre ++ [.socket n, .connect n ⟨addr, p.setWidth 16⟩, .close n]) :=
              hpre.append (by simp [Quiet, Io.isReply])
            rw [hgot, ← List.append_assoc]
            refine iff_of_true (reports_failed hpre' hnone) ?_
            intro fd _ hconnect hpeer
            exact absurd ⟨hconnect, hpeer⟩ hup

/-- No such host. The default allocator makes a stream on standard input. -/
theorem aclnttcpCreate_unknownhost : ¬ ∀ (xa : ℤ → Option Axprt) (o : Outcome) (host : Host)
    (port prog vers : BitVec 32), Reports (aclnttcpCreate xa o host port prog vers)
      (Established o host port (aclnttcpCreate xa o host port prog vers)) := by
  intro h
  obtain ⟨addr, p, sin, hlook, -⟩ := (h (fun fd => some ⟨fd, false⟩)
    ⟨none, (.success, 0), none, false, false⟩ .name 80 100003 3).xprt 0 (by decide)
  cases hlook

end Sfslite.Arpc.Acallrpc
