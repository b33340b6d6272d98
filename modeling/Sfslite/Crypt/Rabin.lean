import Sfslite.Lib.RootExponent

/-!
The Rabin-Williams operations: `rabin.C`, with what they use of `bigint.h`. Big integers are
integers. The prime test and the random numbers are arguments.
-/

namespace Sfslite.Crypt

/-- `getui`: the low bits of the magnitude. -/
def getui (a : ℤ) : ℕ := a.natAbs % 2 ^ 64

/-- `_invert0`: the coefficient that `mpz_gcdext` finds, made nonnegative; 0 if there is no
inverse. -/
def invert (a b : ℤ) : ℤ := if Int.gcd a b = 1 then Int.gcdA a b % b else 0

/-- `mpz_powm`. -/
def powm (base : ℤ) (exp : ℕ) (mod : ℤ) : ℤ := base ^ exp % mod

structure RabinPub where
  n : ℕ
deriving DecidableEq, Repr

structure RabinPriv extends RabinPub where
  /-- Smaller prime. -/
  p : ℕ
  /-- Larger prime. -/
  q : ℕ
  /-- `q^(-1) mod p`. -/
  u : ℤ
  /-- `(((p-1)(q-1)+4)/8) % p-1`. -/
  kp : ℕ
  /-- `(((p-1)(q-1)+4)/8) % q-1`. -/
  kq : ℕ
deriving DecidableEq, Repr

/-- `rabin_priv::rabin_priv` with `init`; `none` where its assertion fails. -/
def RabinPriv.init (n1 n2 : ℕ) : Option RabinPriv :=
  if n1 < n2 then
    let p1 := n1 - 1
    let q1 := n2 - 1
    let kp := (p1 * q1 + 4) / 2 ^ 3
    some {
      n := n1 * n2
      p := n1
      q := n2
      u := invert n2 n1 % n1
      kp := kp % p1
      kq := kp % q1 }
  else none

/-- `rabin_priv::make`, where `probabPrime` is `probab_prime (5)`. -/
def RabinPriv.make (probabPrime : ℕ → Bool) (n1 n2 : ℕ) : Option RabinPriv :=
  if n1 = n2 ∨ n1 ≤ 1 ∨ n2 ≤ 1 ∨ !probabPrime n1 ∨ !probabPrime n2 then none
  else if n1 < n2 then RabinPriv.init n1 n2
  else RabinPriv.init n2 n1

/-- `rabin_pub::E1`; `none` where it answers `false`. -/
def RabinPub.e1 (pub : RabinPub) (inp : ℤ) : Option ℤ :=
  let m := inp * 2 + 1
  let checked (m : ℤ) : Option ℤ := if pub.n ≤ m then none else some m
  if jacobiSym m pub.n = 1 then checked (m * 2 ^ 2)
  else if jacobiSym m pub.n = -1 then checked (m * 2 ^ 1)
  else none

/-- `rabin_pub::D1`. -/
def RabinPub.d1 (pub : RabinPub) (inp : ℤ) : ℤ :=
  match getui inp &&& 3 with
  | 0 => (inp - 4).tdiv (2 ^ 3)
  | 1 => (pub.n - inp - 4).tdiv (2 ^ 3)
  | 2 => (inp - 2).tdiv (2 ^ 2)
  | _ => (pub.n - inp - 2).tdiv (2 ^ 2)

/-- `rabin_pub::E2`. -/
def RabinPub.e2 (pub : RabinPub) (inp : ℤ) : ℤ := (inp * inp).tmod pub.n

/-- `rabin_priv::D2`, where `rand` is what `random_bigint` gives. -/
def RabinPriv.d2 (priv : RabinPriv) (rand inp : ℤ) (rsel : BitVec 32) : ℤ :=
  let ri := (rand * rand).tmod priv.n
  let r := (invert (ri * ri) priv.n * inp).tmod priv.n
  let op := powm r priv.kp priv.p
  let oq := powm r priv.kq priv.q
  -- rsel selects which of 4 square roots
  let op := if rsel &&& 1 ≠ 0 then priv.p - op else op
  let oq := if rsel &&& 2 ≠ 0 then priv.q - oq else oq
  let m := (op - oq) * priv.u % priv.p * priv.q + oq
  -- divide r back out
  (m * ri).tmod priv.n

/-- `powm` with a big integer as the exponent; `none` where GMP divides by zero. -/
def mpzPowm (base exp mod : ℤ) : Option ℤ :=
  if mod = 0 then none
  else if 0 ≤ exp then some (powm base exp.toNat mod)
  else if Int.gcd base mod = 1 then some (powm (invert base mod) (-exp).toNat mod)
  else none

/-- `random_zn`, where `draw` is what the loop ends with; `none` where the assertion fails. -/
def randomZn (n : ℤ) (draw : ℕ) : Option ℤ := if 0 < n then some draw else none

variable {base base' mod exp : ℤ} {e : ℕ}

theorem mpzPowm_natCast (hmod : mod ≠ 0) (base : ℤ) (e : ℕ) :
    mpzPowm base e mod = some (powm base e mod) := by
  unfold mpzPowm
  rw [if_neg hmod, if_pos (Int.natCast_nonneg e), Int.toNat_natCast]

theorem powm_modEq (base : ℤ) (e : ℕ) (mod : ℤ) : powm base e mod ≡ base ^ e [ZMOD mod] :=
  Int.mod_modEq _ _

theorem powm_congr (h : base ≡ base' [ZMOD mod]) : powm base e mod = powm base' e mod := h.pow e

theorem powm_nonneg (hmod : mod ≠ 0) : 0 ≤ powm base e mod := Int.emod_nonneg _ hmod

theorem powm_emod : powm base e mod % mod = powm base e mod := Int.emod_emod _ _

theorem tmod_modEq (a n : ℤ) : a.tmod n ≡ a [ZMOD n] := by
  apply Int.modEq_iff_dvd.mpr
  exact ⟨a.tdiv n, by linarith [Int.mul_tdiv_add_tmod a n]⟩

end Sfslite.Crypt
