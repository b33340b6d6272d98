import Sfslite.Crypt.Montgom

/-!
`rsa.h` and `rsa.C`: the exponent is always 3, and `make` does not ask whether it has an inverse.
-/

namespace Sfslite.Crypt

open Montgom (invert_modEq)

structure RsaPub where
  n : ℕ
  e : ℕ
  nbits : ℕ

structure RsaPriv extends RsaPub where
  /-- Smaller prime. -/
  p : ℕ
  /-- Larger prime. -/
  q : ℕ
  phin : ℕ
  /-- Decryption exponent. -/
  d : ℕ
  dp : ℕ
  dq : ℕ
  /-- `p^(-1) mod q` for CRT. -/
  pinvq : ℤ

def RsaPub.init (nn : ℕ) : RsaPub := { n := nn, e := 3, nbits := nn.size - 1 }

/-- `rsa_priv::rsa_priv` with `init`; `none` where its assertion fails. -/
def RsaPriv.init (n1 n2 : ℕ) : Option RsaPriv :=
  if n1 < n2 then
    let pub := RsaPub.init (n1 * n2)
    let p1 := n1 - 1
    let q1 := n2 - 1
    let phin := p1 * q1
    let d := (invert pub.e phin % phin).toNat
    some { toRsaPub := pub, p := n1, q := n2, phin := phin, d := d, dp := d % p1, dq := d % q1,
           pinvq := invert n1 n2 % n2 }
  else none

/-- `rsa_priv::make`, where `probabPrime` is `probab_prime (5)`. -/
def RsaPriv.make (probabPrime : ℕ → Bool) (n1 n2 : ℕ) : Option RsaPriv :=
  if n1 = n2 ∨ n1 ≤ 1 ∨ n2 ≤ 1 ∨ !probabPrime n1 ∨ !probabPrime n2 then none
  else if n1 < n2 then RsaPriv.init n1 n2
  else RsaPriv.init n2 n1

def RsaPub.encrypt (pub : RsaPub) (m : ℤ) : ℤ :=
  if m = 0 ∨ pub.nbits < m.natAbs.size then 0 else powm m pub.e pub.n

def RsaPriv.decrypt (priv : RsaPriv) (c : ℤ) : ℤ :=
  let mp := powm c priv.dp priv.p
  let mq := powm c priv.dq priv.q
  let v := (mq - mp) * priv.pinvq % priv.q
  mp + priv.p * v

section

variable {p q : ℕ} {m x y : ℤ}

end

end Sfslite.Crypt
