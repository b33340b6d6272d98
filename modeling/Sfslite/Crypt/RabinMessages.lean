import Mathlib.Data.Nat.Size
import Mathlib.NumberTheory.LucasLehmer
import Sfslite.Crypt.PadEncrypt
import Sfslite.Crypt.PadSign
import Sfslite.Crypt.RabinRoundTrip

/-!
Messages under a Rabin-Williams key, from their padding to the number and back: `rabin.h`. What
`E1` answers is looked at by `encrypt` but not by `sign`.
-/

namespace Sfslite.Crypt

open Sfslite.Arpc (Byte)

/-- `max (n.nbits () - 5, 0)`. -/
def RabinPub.nbits (pub : RabinPub) : ℕ := pub.n.size - 5

/-- What `E1` leaves in `m`. -/
def RabinPub.e1Left (pub : RabinPub) (inp : ℤ) : ℤ :=
  let m := inp * 2 + 1
  if jacobiSym m pub.n = 1 then m * 2 ^ 2
  else if jacobiSym m pub.n = -1 then m * 2 ^ 1
  else m

def RabinPub.encrypt (pub : RabinPub) (g h : Oracle) (rnd : Rnd) (msg : List Byte) : ℤ :=
  let m := preEncrypt g h rnd msg pub.nbits
  if m = 0 ∨ pub.e1 m = none then 0 else pub.e2 (pub.e1Left m)

def RabinPriv.decrypt (priv : RabinPriv) (g h : Oracle) (rand msg : ℤ) (msglen : ℕ) :
    Option (Option (List Byte)) :=
  postDecrypt g h (priv.d1 (priv.d2 rand msg 0)) msglen priv.nbits

def RabinPriv.sign (priv : RabinPriv) (sha1 : Sha1) (g : Oracle) (rnd : Rnd) (rand : ℤ)
    (rsel : BitVec 32) (msg : List Byte) : ℤ :=
  priv.d2 rand (priv.e1Left (preSign sha1 g rnd msg priv.nbits)) rsel

def RabinPub.verify (pub : RabinPub) (sha1 : Sha1) (g : Oracle) (msg : List Byte) (s : ℤ) : Bool :=
  postVerify sha1 g msg (pub.d1 (pub.e2 s)) pub.nbits

variable {priv : RabinPriv} {rand msg : ℤ}

end Sfslite.Crypt
