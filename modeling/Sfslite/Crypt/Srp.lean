import Sfslite.Crypt.MpzWire
import Sfslite.Crypt.Pad
import Sfslite.Crypt.Rabin

/-!
The secure remote password protocol: both ends of `srp.C`, phase by phase, with the session
hashes over the XDR encodings. A message is kept decoded. `none` is where the program stops, at an
assertion or where GMP divides by zero.
-/

namespace Sfslite.Crypt

open Sfslite.Arpc

abbrev SrpHash := List.Vector Byte hashsize

inductive Srpres where
  | fail | next | setpwd | last | done
deriving DecidableEq, Repr

structure SrpMsg1 where
  salt : List Byte
  N : ℤ
  g : ℤ
deriving DecidableEq

structure SrpMsg3 where
  B : ℤ
  u : ℤ
deriving DecidableEq

/-- A `srpmsg`, by what `bytes2xdr` reads in it; `junk` is what it reads nothing in. -/
inductive SrpMsg where
  | empty
  | msg1 (m : SrpMsg1)
  | bigint (A : ℤ)
  | msg3 (m : SrpMsg3)
  | hash (h : SrpHash)
  | junk
deriving DecidableEq

/-- The code outside `srp.C`: `sha1ctx`, `srpprime_test`, `pw_dearmorsalt` and `pw_getint`. -/
structure SrpEnv where
  sha1 : Sha1
  srpprimeTest : ℤ → ℕ → Bool
  /-- The cost and the host that a salt names. -/
  pwDearmorsalt : List Byte → Option (ℕ × List Byte)
  pwGetint : List Byte → List Byte → ℕ → ℕ

/-- The static members. -/
structure SrpStatic where
  minprimsize : ℕ
  /-- The primes tested last with the number of tests. -/
  cache : List (ℤ × ℕ)
  lastpos : ℕ

def cachesize : ℕ := 2

def nbits (n : ℤ) : ℕ := n.natAbs.size

def checkparam (env : SrpEnv) (st : SrpStatic) (N g : ℤ) (iter : ℕ) : Option (Bool × SrpStatic) :=
  let N1 := N - 1
  if nbits N < st.minprimsize then some (false, st)
  else if N = 0 then none
  else if g ≠ g.tmod N ∨ g = N1 then some (false, st)
  else
    match mpzPowm g (N.tdiv 2) N with
    | none => none
    | some t =>
      if t ≠ N1 then some (false, st)
      else
        match st.cache.findIdx? (fun c => c.1 = N ∧ iter ≤ c.2 ∧ N ≠ 0) with
        | some i => some (true, { st with lastpos := i })
        | none =>
          if !env.srpprimeTest N iter then some (false, st)
          else
            let lastpos := (st.lastpos + 1) % cachesize
            some (true, { st with
              lastpos := lastpos, cache := st.cache.set lastpos (N, iter) })

/-- `datasink_catxdr`: the bytes a context was fed, followed by an encoding. -/
def catxdr {α : Type} (traverse : XDR → α → Option (Bool × XDR × α)) (obj : α)
    (sc : List Byte) : Option (List Byte) :=
  match traverse (.encode []) obj with
  | some (true, .encode out, _) => some (sc ++ out)
  | _ => none

def catHash (h : SrpHash) : List Byte → Option (List Byte) :=
  catxdr (fun x obj => some (traverseOpaque x obj)) h.toList

def catStr (s : List Byte) : List Byte → Option (List Byte) :=
  catxdr (traverseStr rpcInfinity) (some s)

def catBigint (z : ℤ) : List Byte → Option (List Byte) :=
  catxdr (fun x obj => some (xdrMpzT 0 x obj)) (.ofInt z)

/-- What both ends keep. -/
structure SrpBase where
  salt : List Byte
  A : ℤ
  B : ℤ
  M : SrpHash
  H : SrpHash
  k : ℤ
  sessid : SrpHash
  user : List Byte
  S : ℤ
  N : ℤ
  g : ℤ
deriving DecidableEq

def SrpBase.setS (env : SrpEnv) (s : SrpBase) (SS : ℤ) : Bool × SrpBase :=
  let s := { s with S := SS }
  match catHash s.sessid [] >>= catBigint s.N >>= catBigint s.g >>= catStr s.user >>=
      catStr s.salt >>= catBigint s.A >>= catBigint s.B >>= catBigint s.S with
  | none => (false, s)
  | some sc =>
    let s := { s with M := env.sha1 sc }
    match catHash s.sessid [] >>= catBigint s.A >>= catHash s.M >>= catBigint s.S with
    | none => (false, s)
    | some sc => (true, { s with H := env.sha1 sc })

/-- The former is for SRP-3, the latter SRP-6. -/
def multiplier (version : ℤ) : ℤ := if version < 6 then 1 else 3

inductive ClientPhase where
  | phase1 | phase1b | phase3 | phase5 | over
deriving DecidableEq, Repr

structure SrpClient extends SrpBase where
  phase : ClientPhase
  x : ℤ
  a : ℤ
  pwd : Option (List Byte)
  host : Option (List Byte)
  hostOk : Bool
  cost : ℕ
deriving DecidableEq

namespace SrpClient

def init (c : SrpClient) (sid : SrpHash) (uu : List Byte) (pp : Option (List Byte))
    (version : ℤ) : Srpres × SrpMsg × SrpClient :=
  (.next, .empty, { c with
    k := multiplier version, user := uu, pwd := pp, host := none, hostOk := false, sessid := sid,
    phase := .phase1 })

/-- `draw` is what `random_zn` gives. -/
def phase1b (env : SrpEnv) (draw : ℕ) (c : SrpClient) : Option (Srpres × SrpMsg × SrpClient) := do
  let pwd ← c.pwd
  let x : ℤ := env.pwGetint pwd c.salt ((nbits c.N + (2 ^ 64 - 1)) % 2 ^ 64)
  let a ← randomZn c.N draw
  let A ← mpzPowm c.g a c.N
  return (.next, .bigint A, { c with x := x, pwd := none, a := a, A := A, phase := .phase3 })

/-- `setparam` with `checkparam ()`, which forgets what it does not accept. -/
def setparam (env : SrpEnv) (st : SrpStatic) (c : SrpClient) (N g : ℤ) :
    Option (Bool × SrpClient × SrpStatic) :=
  match checkparam env st N g 32 with
  | none => none
  | some (true, st) => some (true, { c with N := N, g := g }, st)
  | some (false, st) => some (false, { c with N := 0, g := 0 }, st)

/-- The rest of `phase1a`, from the salt on. -/
def phase1aSalt (env : SrpEnv) (st : SrpStatic) (draw : ℕ) (c : SrpClient) (salt : List Byte) :
    Option (Srpres × SrpMsg × SrpClient × SrpStatic) :=
  match env.pwDearmorsalt salt with
  | none => some (.fail, .empty, { c with salt := salt }, st)
  | some (cost, host) =>
    let c := { c with salt := salt, cost := cost, host := some host }
    if c.pwd = none then some (.setpwd, .empty, { c with phase := .phase1b }, st)
    else do
      let (res, msgout, c) ← c.phase1b env draw
      return (res, msgout, c, st)

def phase1a (env : SrpEnv) (st : SrpStatic) (draw : ℕ) (c : SrpClient) (msgin : SrpMsg) :
    Option (Srpres × SrpMsg × SrpClient × SrpStatic) :=
  match msgin with
  | .msg1 m =>
    if m.N ≠ c.N ∨ m.g ≠ c.g then
      match c.setparam env st m.N m.g with
      | none => none
      | some (false, c, st) => some (.fail, .empty, c, st)
      | some (true, c, st) => c.phase1aSalt env st draw m.salt
    else c.phase1aSalt env st draw m.salt
  | _ => some (.fail, .empty, c, st)

def phase3 (env : SrpEnv) (c : SrpClient) (msgin : SrpMsg) : Option (Srpres × SrpMsg × SrpClient) :=
  match msgin with
  | .msg3 m =>
    if m.B = 0 ∨ m.u = 0 then some (.fail, .empty, c)
    else do
      let v ← mpzPowm c.g c.x c.N
      let S ← mpzPowm (m.B - c.k * v) (c.a + m.u * c.x) c.N
      let (ok, base) := { c.toSrpBase with B := m.B }.setS env S
      let c := { c with toSrpBase := base }
      if !ok then return (.fail, .empty, c)
      return (.next, .hash c.M, { c with phase := .phase5 })
  | _ => some (.fail, .empty, c)

def phase5 (c : SrpClient) (msgin : SrpMsg) : Srpres × SrpMsg × SrpClient :=
  match msgin with
  | .hash m =>
    if m ≠ c.H then (.fail, .empty, c) else (.done, .empty, { c with hostOk := true })
  | _ => (.fail, .empty, c)

def next (env : SrpEnv) (st : SrpStatic) (draw : ℕ) (c : SrpClient) (msgin : SrpMsg) :
    Option (Srpres × SrpMsg × SrpClient × SrpStatic) :=
  let ophase := c.phase
  let c := { c with phase := .over }
  match ophase with
  | .phase1 => c.phase1a env st draw msgin
  | .phase1b => do
      let (res, msgout, c) ← c.phase1b env draw
      return (res, msgout, c, st)
  | .phase3 => do
      let (res, msgout, c) ← c.phase3 env msgin
      return (res, msgout, c, st)
  | .phase5 =>
    let (res, msgout, c) := c.phase5 msgin
    some (res, msgout, c, st)
  | .over => some (.fail, .empty, c, st)

def setpwd (c : SrpClient) (p : List Byte) : SrpClient := { c with pwd := some p }

end SrpClient

/-- What `srpinforx` finds in the line stored for a user. -/
structure SrpInfo where
  N : ℕ
  g : ℕ
  salt : List Byte
  v : ℕ

inductive ServerPhase where
  | phase2 | phase4 | over
deriving DecidableEq, Repr

structure SrpServer extends SrpBase where
  phase : ServerPhase
  v : ℤ
  b : ℤ
  u : ℤ
deriving DecidableEq

namespace SrpServer

/-- `srp_server::init`; a line that is null, empty or not of the form is `none`. -/
def init (env : SrpEnv) (st : SrpStatic) (s : SrpServer) (msgin : SrpMsg) (sid : SrpHash)
    (uu : List Byte) (info : Option SrpInfo) (version : ℤ) :
    Option (Srpres × SrpMsg × SrpServer × SrpStatic) :=
  let s := { s with k := multiplier version }
  match msgin, info with
  | .empty, some r => do
      let (ok, st) ← checkparam env st r.N r.g 1
      if !ok then return (.fail, .empty, { s with N := 0, g := 0 }, st)
      let s := { s with N := r.N, g := r.g, user := uu, salt := r.salt, sessid := sid, v := r.v }
      return (.next, .msg1 ⟨s.salt, s.N, s.g⟩, { s with phase := .phase2 }, st)
  | _, _ => some (.fail, .empty, s, st)

def phase2 (draw draw' : ℕ) (s : SrpServer) (msgin : SrpMsg) :
    Option (Srpres × SrpMsg × SrpServer) :=
  match msgin with
  | .bigint A =>
    let s := { s with A := A }
    if A = 0 then some (.fail, .empty, s)
    else do
      let b ← randomZn s.N draw
      let t ← mpzPowm s.g b s.N
      let B := (s.k * s.v + t).tmod s.N
      let u ← randomZn s.N draw'
      return (.next, .msg3 ⟨B, u⟩, { s with b := b, B := B, u := u, phase := .phase4 })
  | _ => some (.fail, .empty, s)

def phase4 (env : SrpEnv) (s : SrpServer) (msgin : SrpMsg) : Option (Srpres × SrpMsg × SrpServer) :=
  match msgin with
  | .hash m => do
      let t ← mpzPowm s.v s.u s.N
      let S ← mpzPowm (s.A * t) s.b s.N
      let (ok, base) := s.toSrpBase.setS env S
      let s := { s with toSrpBase := base }
      if !ok ∨ m ≠ s.M then return (.fail, .empty, s)
      return (.last, .hash s.H, s)
  | _ => some (.fail, .empty, s)

/-- `draw` and `draw'` are what `random_zn` gives. -/
def next (env : SrpEnv) (draw draw' : ℕ) (s : SrpServer) (msgin : SrpMsg) :
    Option (Srpres × SrpMsg × SrpServer) :=
  let ophase := s.phase
  let s := { s with phase := .over }
  match ophase with
  | .phase2 => s.phase2 draw draw' msgin
  | .phase4 => s.phase4 env msgin
  | .over => some (.fail, .empty, s)

end SrpServer

end Sfslite.Crypt
