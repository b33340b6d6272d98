import Mathlib.Data.Nat.Bitwise
import Mathlib.Tactic.IntervalCases
import Mathlib.Tactic.Ring

/-!
Bytes of words in network order, and of numbers with the least significant byte first:
`mpz_set_rawmag_le` and `mpz_get_rawmag_le` of `mpz_raw.C`. The source copies whole limbs of a number
where it can, which on a little-endian machine are the bytes in the same order.
-/

namespace Sfslite.Arpc

abbrev Byte := BitVec 8

def htonl (v : BitVec 32) : List Byte :=
  [v.extractLsb' 24 8, v.extractLsb' 16 8, v.extractLsb' 8 8, v.extractLsb' 0 8]

def getint : List Byte → Option (BitVec 32 × List Byte)
  | a :: b :: c :: d :: cp => some (a ++ b ++ c ++ d, cp)
  | _ => none

theorem length_htonl (v : BitVec 32) : (htonl v).length = 4 := rfl

theorem getint_htonl (v : BitVec 32) (cp : List Byte) : getint (htonl v ++ cp) = some (v, cp) := by
  have hv : v.extractLsb' 24 8 ++ v.extractLsb' 16 8 ++ v.extractLsb' 8 8 ++ v.extractLsb' 0 8 =
      v := by
    apply BitVec.eq_of_getLsbD_eq
    intro i hi
    simp only [BitVec.getLsbD_append, BitVec.getLsbD_extractLsb']
    interval_cases i <;> rfl
  simp only [htonl, List.cons_append, List.nil_append, getint, hv]

theorem getint_eq_none_iff {b : List Byte} : getint b = none ↔ b.length < 4 := by
  match b with
  | [] | [_] | [_, _] | [_, _, _] => simp [getint]
  | _ :: _ :: _ :: _ :: cp => simp [getint]

theorem eq_of_getint {b cp : List Byte} {v : BitVec 32} (h : getint b = some (v, cp)) :
    b = htonl v ++ cp := by
  match b with
  | [] | [_] | [_, _] | [_, _, _] => simp [getint] at h
  | a₀ :: a₁ :: a₂ :: a₃ :: cp' =>
    simp only [getint, Option.some.injEq, Prod.mk.injEq] at h
    obtain ⟨rfl, rfl⟩ := h
    have h₀ : (a₀ ++ a₁ ++ a₂ ++ a₃).extractLsb' 24 8 = a₀ := by
      apply BitVec.eq_of_getLsbD_eq
      intro i hi
      simp only [BitVec.getLsbD_append, BitVec.getLsbD_extractLsb']
      interval_cases i <;> rfl
    have h₁ : (a₀ ++ a₁ ++ a₂ ++ a₃).extractLsb' 16 8 = a₁ := by
      apply BitVec.eq_of_getLsbD_eq
      intro i hi
      simp only [BitVec.getLsbD_append, BitVec.getLsbD_extractLsb']
      interval_cases i <;> rfl
    have h₂ : (a₀ ++ a₁ ++ a₂ ++ a₃).extractLsb' 8 8 = a₂ := by
      apply BitVec.eq_of_getLsbD_eq
      intro i hi
      simp only [BitVec.getLsbD_append, BitVec.getLsbD_extractLsb']
      interval_cases i <;> rfl
    have h₃ : (a₀ ++ a₁ ++ a₂ ++ a₃).extractLsb' 0 8 = a₃ := by
      apply BitVec.eq_of_getLsbD_eq
      intro i hi
      simp only [BitVec.getLsbD_append, BitVec.getLsbD_extractLsb']
      interval_cases i <;> rfl
    simp only [htonl, h₀, h₁, h₂, h₃, List.cons_append, List.nil_append]

end Sfslite.Arpc

namespace Sfslite.Crypt

open Sfslite.Arpc (Byte)

def magOfBytes : List Byte → ℕ
  | [] => 0
  | b :: bs => b.toNat + 256 * magOfBytes bs

def bytesOfMag : ℕ → ℕ → List Byte
  | 0, _ => []
  | size + 1, m => BitVec.ofNat 8 m :: bytesOfMag size (m / 256)

def mpzSetRawmagLe (buf : List Byte) : ℤ := magOfBytes buf

/-- The low bytes of the magnitude; what does not fit is left out. -/
def mpzGetRawmagLe (size : ℕ) (mp : ℤ) : List Byte := bytesOfMag size mp.natAbs

@[simp] theorem length_bytesOfMag {size m : ℕ} : (bytesOfMag size m).length = size := by
  induction size generalizing m with
  | zero => rfl
  | succ size ih => rw [bytesOfMag, List.length_cons, ih]

@[simp] theorem length_mpzGetRawmagLe {size : ℕ} {mp : ℤ} :
    (mpzGetRawmagLe size mp).length = size := length_bytesOfMag

theorem magOfBytes_lt (l : List Byte) : magOfBytes l < 256 ^ l.length := by
  induction l with
  | nil => exact Nat.one_pos
  | cons b bs ih =>
    have hb : b.toNat < 256 := b.isLt
    rw [magOfBytes, List.length_cons, pow_succ]
    omega

theorem bytesOfMag_magOfBytes (l : List Byte) : bytesOfMag l.length (magOfBytes l) = l := by
  induction l with
  | nil => rfl
  | cons b bs ih =>
    have hb : b.toNat < 256 := b.isLt
    have hdiv : (b.toNat + 256 * magOfBytes bs) / 256 = magOfBytes bs := by omega
    have hbyte : BitVec.ofNat 8 (b.toNat + 256 * magOfBytes bs) = b := by
      apply BitVec.eq_of_toNat_eq
      rw [BitVec.toNat_ofNat]
      omega
    rw [List.length_cons, magOfBytes, bytesOfMag, hdiv, ih, hbyte]

theorem magOfBytes_bytesOfMag (size m : ℕ) : magOfBytes (bytesOfMag size m) = m % 256 ^ size := by
  induction size generalizing m with
  | zero => rw [bytesOfMag, magOfBytes, pow_zero, Nat.mod_one]
  | succ size ih =>
    have hpow : 256 ^ (size + 1) = 256 * 256 ^ size := pow_succ' 256 size
    rw [bytesOfMag, magOfBytes, ih, BitVec.toNat_ofNat, hpow, Nat.mod_mul]

theorem magOfBytes_append (l l' : List Byte) :
    magOfBytes (l ++ l') = magOfBytes l + 256 ^ l.length * magOfBytes l' := by
  induction l with
  | nil => simp [magOfBytes]
  | cons b bs ih =>
    rw [List.cons_append, magOfBytes, magOfBytes, ih, List.length_cons, pow_succ]
    ring

theorem mpzGetRawmagLe_set (l : List Byte) : mpzGetRawmagLe l.length (mpzSetRawmagLe l) = l := by
  rw [mpzGetRawmagLe, mpzSetRawmagLe, Int.natAbs_natCast, bytesOfMag_magOfBytes]

theorem mpzSetRawmagLe_get {size : ℕ} {mp : ℤ} :
    mpzSetRawmagLe (mpzGetRawmagLe size mp) = mp ↔ 0 ≤ mp ∧ mp < 256 ^ size := by
  rw [mpzSetRawmagLe, mpzGetRawmagLe, magOfBytes_bytesOfMag]
  constructor
  · intro h
    have hlt : mp.natAbs % 256 ^ size < 256 ^ size := Nat.mod_lt _ (by positivity)
    rw [← h]
    exact ⟨Int.natCast_nonneg _, by exact_mod_cast hlt⟩
  · rintro ⟨hnonneg, hlt⟩
    obtain ⟨k, rfl⟩ := Int.eq_ofNat_of_zero_le hnonneg
    have hk : k < 256 ^ size := by exact_mod_cast hlt
    rw [Int.natAbs_natCast, Nat.mod_eq_of_lt hk]

end Sfslite.Crypt
