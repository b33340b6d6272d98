import Sfslite.Arpc.Bytes

/-!
Calls as a server keeps them: `svccb` of `asrv.C`, with the comparison and the hash value
of the replay tables. A null pointer that is followed answers `none`.
-/

namespace Sfslite.Arpc

/-- `AF_INET`, and the size of a `sockaddr_in`. The family is the first word of an address,
low byte first, the port is the second and the address proper stands behind it. -/
def afInet : ℕ := 2

def sizeofSockaddrIn : ℕ := 16

def saFamily (sa : List Byte) : ℕ := (sa.getD 0 0).toNat + 256 * (sa.getD 1 0).toNat

def sinPort (sa : List Byte) : List Byte := (sa.drop 2).take 2

def sinAddr (sa : List Byte) : List Byte := (sa.drop 4).take 4

/-- `addreq`; `none` is a null pointer. -/
def addreq (a b : Option (List Byte)) (size : ℕ) : Option Bool :=
  match a, b with
  | some a, some b =>
    if saFamily a ≠ saFamily b then some false
    else if saFamily a = afInet ∧ sizeofSockaddrIn ≤ size then
      some (sinAddr a = sinAddr b ∧ sinPort a = sinPort b)
    else some false
  | _, _ => none

def hashseed : BitVec 32 := 5381

def hashBytes (key : List Byte) : BitVec 32 :=
  key.foldl (fun seed k => ((seed <<< 5) + seed) ^^^ k.setWidth 32) hashseed

/-- What `asrv::dispatch` reads of a call message. -/
structure CallMsg where
  rm_xid : BitVec 32
  cb_rpcvers : BitVec 32
  cb_prog : BitVec 32
  cb_vers : BitVec 32
  cb_proc : BitVec 32
  deriving DecidableEq, Repr

/-- A call in memory. `srv` says whether the pointer to the server is set. -/
structure Svccb where
  msg : CallMsg
  srv : Bool
  addr : Option (List Byte)
  res : Option (List Byte)
  offset : ℕ
  deriving DecidableEq, Repr

namespace Svccb

def xid (b : Svccb) : BitVec 32 := b.msg.rm_xid

def prog (b : Svccb) : BitVec 32 := b.msg.cb_prog

def vers (b : Svccb) : BitVec 32 := b.msg.cb_vers

def proc (b : Svccb) : BitVec 32 := b.msg.cb_proc

def addrlen (b : Svccb) : ℕ := (b.addr.getD []).length

/-- `operator==`. -/
def eq (b a : Svccb) : Option Bool :=
  if b.xid = a.xid ∧ b.prog = a.prog ∧ b.vers = a.vers ∧ b.proc = a.proc ∧
      b.addrlen = a.addrlen then
    addreq b.addr a.addr b.addrlen
  else some false

def hashValue (b : Svccb) : BitVec 32 := b.xid ^^^ hashBytes (b.addr.getD [])

end Svccb

/-- Who sent a packet: the address and the port where there are such, and all of the
address otherwise. -/
def clientAddr (sa : List Byte) : List Byte :=
  if saFamily sa = afInet ∧ sizeofSockaddrIn ≤ sa.length then sa.take 8 else sa

/-- What tells two calls apart. -/
structure CallKey where
  xid : BitVec 32
  prog : BitVec 32
  vers : BitVec 32
  proc : BitVec 32
  client : Option (List Byte)
  deriving DecidableEq, Repr

def Svccb.key (b : Svccb) : CallKey :=
  ⟨b.xid, b.prog, b.vers, b.proc, b.addr.map clientAddr⟩

/-- Where `operator==` and the hash values find a second copy of a call: both have an
Internet address, and what stands behind the address and the port has the same hash. -/
def Svccb.Comparable (b a : Svccb) : Prop :=
  ∃ sb sa, b.addr = some sb ∧ a.addr = some sa ∧ saFamily sb = afInet ∧
    sizeofSockaddrIn ≤ sb.length ∧ sb.length = sa.length ∧ hashBytes sb = hashBytes sa

theorem take_eight_eq_iff {a b : List Byte} (ha : 8 ≤ a.length) (hb : 8 ≤ b.length) :
    a.take 8 = b.take 8 ↔
      saFamily a = saFamily b ∧ sinAddr a = sinAddr b ∧ sinPort a = sinPort b := by
  match a, ha with
  | a₀ :: a₁ :: a₂ :: a₃ :: a₄ :: a₅ :: a₆ :: a₇ :: a, _ =>
    match b, hb with
    | b₀ :: b₁ :: b₂ :: b₃ :: b₄ :: b₅ :: b₆ :: b₇ :: b, _ =>
      have hfam : a₀.toNat + 256 * a₁.toNat = b₀.toNat + 256 * b₁.toNat ↔
          a₀ = b₀ ∧ a₁ = b₁ := by
        have h₀ := a₀.isLt
        have h₁ := b₀.isLt
        rw [← BitVec.toNat_inj, ← BitVec.toNat_inj]
        omega
      simp only [saFamily, sinAddr, sinPort, List.getD_cons_zero, List.getD_cons_succ, hfam,
        List.take_succ_cons, List.take_zero, List.drop_succ_cons, List.drop_zero,
        List.cons.injEq, and_true]
      tauto

namespace Svccb

theorem eq_of_comparable {b a : Svccb} (h : b.Comparable a) (hkey : b.key = a.key) :
    b.eq a = some true ∧ b.hashValue = a.hashValue := by
  obtain ⟨sb, sa, hb, ha, hfam, hlen, hlens, hhash⟩ := h
  simp only [key, CallKey.mk.injEq, hb, ha, Option.map_some, Option.some.injEq] at hkey
  obtain ⟨hxid, hprog, hvers, hproc, hclient⟩ := hkey
  have hlen16 : 16 ≤ sb.length := hlen
  have hfirst : sb.take 8 = sa.take 8 := by
    have hsb : clientAddr sb = sb.take 8 := if_pos ⟨hfam, hlen⟩
    by_cases hsa : saFamily sa = afInet ∧ sizeofSockaddrIn ≤ sa.length
    · rw [hsb, clientAddr, if_pos hsa] at hclient
      exact hclient
    · rw [hsb, clientAddr, if_neg hsa] at hclient
      have := congrArg List.length hclient
      rw [List.length_take] at this
      omega
  obtain ⟨hfams, haddr, hport⟩ :=
    (take_eight_eq_iff (by omega) (by omega)).mp hfirst
  constructor
  · rw [eq, if_pos ⟨hxid, hprog, hvers, hproc, by simp [addrlen, hb, ha, hlens]⟩, hb, ha]
    have hfama : saFamily sa = afInet := hfams ▸ hfam
    simp [addreq, hfam, hfama, haddr, hport, addrlen, hb, hlen]
  · simp [hashValue, hxid, hb, ha, hhash]

theorem key_eq_of_eq {b a : Svccb} (h : b.eq a = some true) : b.key = a.key := by
  unfold eq at h
  split at h
  · rename_i hfields
    obtain ⟨hxid, hprog, hvers, hproc, hlen⟩ := hfields
    match hb : b.addr, ha : a.addr with
    | none, _ | some _, none => simp [hb, ha, addreq] at h
    | some sb, some sa =>
      simp only [hb, ha, addreq] at h
      split at h
      · simp at h
      · rename_i hfams
        split at h
        · rename_i hinet
          rw [not_not] at hfams
          simp only [Option.some.injEq, decide_eq_true_eq] at h
          simp only [addrlen, hb, ha, Option.getD_some] at hlen hinet
          have h16 : 16 ≤ sb.length := hinet.2
          have hfirst := (take_eight_eq_iff (a := sb) (b := sa) (by omega) (by omega)).mpr
            ⟨hfams, h⟩
          have hcb : clientAddr sb = sb.take 8 := if_pos hinet
          have hca : clientAddr sa = sa.take 8 :=
            if_pos ⟨hfams ▸ hinet.1, hlen ▸ hinet.2⟩
          simp [key, hxid, hprog, hvers, hproc, hb, ha, hcb, hca, hfirst]
        · simp at h
  · simp at h

theorem key_eq_of_eq_none {b a : Svccb} (h : b.eq a = none)
    (haddr : b.addr.isSome = a.addr.isSome) : b.key = a.key := by
  unfold eq at h
  split at h
  · rename_i hfields
    obtain ⟨hxid, hprog, hvers, hproc, -⟩ := hfields
    match hb : b.addr, ha : a.addr with
    | none, none => simp [key, hxid, hprog, hvers, hproc, hb, ha]
    | none, some _ | some _, none => simp [hb, ha] at haddr
    | some sb, some sa =>
      simp only [hb, ha, addreq] at h
      split at h
      · simp at h
      · split at h <;> simp at h
  · simp at h

end Svccb

end Sfslite.Arpc
