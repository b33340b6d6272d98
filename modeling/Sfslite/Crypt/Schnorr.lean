import Sfslite.Crypt.MpzWire
import Sfslite.Crypt.Pad
import Sfslite.Crypt.Rabin

/-!
Schnorr signatures by one signer and by a client with a server that each hold half of the key:
`schnorr.h` and `schnorr.C`. SHA-1 and what `rnd` gives are arguments, and `none` is where an
assertion fails or GMP divides by zero.
-/

namespace Sfslite.Crypt

open Sfslite.Arpc

structure EphemKeyPair where
  k : ℤ
  r : ℤ
deriving DecidableEq

structure SchnorrPub where
  p : ℤ
  q : ℤ
  g : ℤ
  y : ℤ
deriving DecidableEq

namespace SchnorrPub

variable (pub : SchnorrPub)

def isGroupElem (elem : ℤ) : Option Bool := (mpzPowm elem pub.q pub.p).map (· = 1)

/-- `draw` is what `random_bigint` gives. -/
def makeEphemKeyPair (draw : ℕ) : Option EphemKeyPair :=
  (mpzPowm pub.g draw pub.p).map fun elem => ⟨draw, elem⟩

/-- `bind_r_to_m`: the challenge. -/
def bindRToM (sha1 : Sha1) (m : List Byte) (r : ℤ) : ℤ :=
  let rAsStr := mpzGetRaw (mpzRawsize (.ofInt r)) (.ofInt r)
  mpzSetRawmagLe (sha1 (m ++ rAsStr)).toList

def checkSignature (r s e yV : ℤ) : Option Bool := do
  let gs ← mpzPowm pub.g s pub.p
  let ye ← mpzPowm yV e pub.p
  return gs = (r * ye).tmod pub.p

def verify (sha1 : Sha1) (msg : List Byte) (r s : ℤ) : Option Bool := do
  if (← pub.isGroupElem r) ∧ 0 < s ∧ s < pub.q then
    pub.checkSignature r s (bindRToM sha1 msg r) pub.y
  else return false

end SchnorrPub

structure SchnorrPriv extends SchnorrPub where
  x : ℤ
  ekp : Option EphemKeyPair

namespace SchnorrPriv

/-- The key pair that is there, or a new one. -/
def makeEkp (priv : SchnorrPriv) (draw : ℕ) : Option EphemKeyPair :=
  match priv.ekp with
  | some ekp => some ekp
  | none => priv.makeEphemKeyPair draw

def sign (sha1 : Sha1) (draw : ℕ) (priv : SchnorrPriv) (msg : List Byte) :
    Option (ℤ × ℤ × SchnorrPriv) := do
  let ekp ← priv.makeEkp draw
  let r := ekp.r
  let e := SchnorrPub.bindRToM sha1 msg r
  let t := invert e priv.q
  let t := if t < 0 then t + priv.q else t
  let t := (t * ekp.k).tmod priv.q
  let s := ((t + priv.x) * e).tmod priv.q
  -- assert (check_signature (*r, *s, e, y))
  if ← priv.checkSignature r s e priv.y then return (r, s, { priv with ekp := none }) else none

/-- A signature, or the call of `make_ekp` that it leaves for later. -/
inductive Event where
  | sign (draw : ℕ) (msg : List Byte)
  | makeEkp (draw : ℕ)

def step (sha1 : Sha1) (priv : SchnorrPriv) : Event → Option SchnorrPriv
  | .sign draw msg => (priv.sign sha1 draw msg).map fun signed => signed.2.2
  | .makeEkp draw => (priv.makeEkp draw).map fun ekp => { priv with ekp := some ekp }

end SchnorrPriv

structure SchnorrClntPriv extends SchnorrPub where
  xClnt : ℤ

structure SchnorrSrvPriv extends SchnorrPub where
  xSrv : ℤ

/-- `((k * (e^-1 mod q) + x) * e) mod q`, which both parties compute step by step. -/
def halfSignature (q k x e : ℤ) : ℤ :=
  let s := (invert e q * k).tmod q
  let s := (s + x).tmod q
  (s * e).tmod q

/-- `endorse_signature`; the inner `none` is the answer `false`. -/
def SchnorrSrvPriv.endorseSignature (sha1 : Sha1) (draw : ℕ) (srv : SchnorrSrvPriv)
    (msg : List Byte) (rClnt : ℤ) : Option (Option (ℤ × ℤ)) := do
  if ← srv.isGroupElem rClnt then
    let ekpSrv ← srv.makeEphemKeyPair draw
    let r := (rClnt * ekpSrv.r).tmod srv.p
    let e := SchnorrPub.bindRToM sha1 msg r
    return some (ekpSrv.r, halfSignature srv.q ekpSrv.k srv.xSrv e)
  else return none

/-- `complete_signature`; the inner `none` is the answer `false`. -/
def SchnorrClntPriv.completeSignature (sha1 : Sha1) (clnt : SchnorrClntPriv) (msg : List Byte)
    (rClnt kClnt rSrv sSrv : ℤ) : Option (Option (ℤ × ℤ)) := do
  if ← clnt.isGroupElem rSrv then
    let r := (rClnt * rSrv).tmod clnt.p
    let e := SchnorrPub.bindRToM sha1 msg r
    let sClnt := halfSignature clnt.q kClnt clnt.xClnt e
    let s := (sClnt + sSrv).tmod clnt.q
    if ← clnt.checkSignature r s e clnt.y then return some (r, s) else return none
  else return none

def twoPartySign (sha1 : Sha1) (kClnt kSrv : ℕ) (clnt : SchnorrClntPriv) (srv : SchnorrSrvPriv)
    (msg : List Byte) : Option (Option (ℤ × ℤ)) := do
  let ekp ← clnt.makeEphemKeyPair kClnt
  match ← srv.endorseSignature sha1 kSrv msg ekp.r with
  | none => return none
  | some (rSrv, sSrv) => clnt.completeSignature sha1 msg ekp.r ekp.k rSrv sSrv

/-- `schnorr_clnt_priv::update`: the new half, and the delta that it leaves in `*deltap`, from
the delta that it finds there. -/
def SchnorrClntPriv.update (draw : ℕ) (clnt : SchnorrClntPriv) (deltap : ℤ) :
    Option (SchnorrClntPriv × ℤ) := do
  let delta ← if 0 < deltap then some deltap else randomZn clnt.q draw
  return ({ clnt with xClnt := (clnt.xClnt + clnt.q - delta).tmod clnt.q }, delta)

def SchnorrSrvPriv.update (srv : SchnorrSrvPriv) (dlt : ℤ) : SchnorrSrvPriv :=
  { srv with xSrv := (srv.xSrv + dlt).tmod srv.q }

/-- An update of the client's half, then of the server's half by the same delta. -/
def updateBoth (keys : SchnorrClntPriv × SchnorrSrvPriv) (ev : ℕ × ℤ) :
    Option (SchnorrClntPriv × SchnorrSrvPriv) := do
  let (clnt, delta) ← keys.1.update ev.1 ev.2
  return (clnt, keys.2.update delta)

/-- The end of `schnorr_gen::gen`, with what `random_zn` and `random_bigint` give. -/
def schnorrGen (p q g : ℤ) (draw draw' draw'' : ℕ) :
    Option (SchnorrClntPriv × SchnorrSrvPriv × SchnorrPriv) := do
  let xC ← randomZn q draw
  let xS ← randomZn q draw'
  let x := (xC + xS).tmod q
  let y ← mpzPowm g x p
  let pub : SchnorrPub := ⟨p, q, g, y⟩
  let ekp ← pub.makeEphemKeyPair draw''
  return (⟨pub, xC⟩, ⟨pub, xS⟩, ⟨pub, x, some ekp⟩)

end Sfslite.Crypt
