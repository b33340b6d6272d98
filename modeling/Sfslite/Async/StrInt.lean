import Sfslite.Async.Numeral

/-!
`str::to_int32`, `to_int64`, `to_uint32` and `to_uint64`, for a `long` of 64 bits, on what `strtol`
and `strtoul` of the C library do.
-/

namespace Sfslite.Async.StrInt

open Sfslite.Arpc (Byte)
open Sfslite.Async.Convertint

inductive Errno where
  | einval
  | erange
deriving DecidableEq, Repr

/-- What a call answers: the number, `errno` if it is set, and `*endptr`. -/
structure Strto where
  value : BitVec 64
  errno : Option Errno
  endptr : List Byte
deriving DecidableEq, Repr

def validBase (base : ℤ) : Prop :=
  base = 0 ∨ (2 ≤ base ∧ base ≤ 36)

instance (base : ℤ) : Decidable (validBase base) :=
  inferInstanceAs (Decidable (_ ∨ _))

/-- The longest start of `s` that is a numeral: its sign, its digits as a number, and the rest. -/
def subject (base : ℤ) (s : List Byte) : Option (Bool × ℕ × List Byte) :=
  let (neg, b) := unsign s
  let hex := hexPrefix base b && isDigitOf 16 (deref (b.drop 2))
  let k := if hex then 16 else if base = 0 then (if deref b = 0x30#8 then 8 else 10) else base.toNat
  let b := if hex then b.drop 2 else b
  if b.takeWhile (isDigitOf k) = [] then none
  else some (neg, digitsValue k 0 (b.takeWhile (isDigitOf k)), b.dropWhile (isDigitOf k))

/-- What the functions have in common: `past` is the answer for a number that is out of range. -/
def strto (past : Bool → ℕ → Option (BitVec 64)) (s : List Byte) (base : ℤ) : Strto :=
  if ¬ validBase base then ⟨0, some .einval, s⟩
  else
    match subject base s with
    | none => ⟨0, none, s⟩
    | some (neg, n, rest) =>
      match past neg n with
      | some v => ⟨v, some .erange, rest⟩
      | none => ⟨BitVec.ofInt 64 (if neg then -n else n), none, rest⟩

def strtol : List Byte → ℤ → Strto :=
  strto fun neg n =>
    if neg then (if 2 ^ 63 < n then some (BitVec.intMin 64) else none)
    else if 2 ^ 63 ≤ n then some (BitVec.intMax 64) else none

def strtoll : List Byte → ℤ → Strto :=
  strtol

/-- A minus sign negates the `unsigned long`. -/
def strtoul : List Byte → ℤ → Strto :=
  strto fun _ n => if 2 ^ 64 ≤ n then some (BitVec.allOnes 64) else none

def strtoull : List Byte → ℤ → Strto :=
  strtoul

/-- What the conversions have in common: `r` is the answer of the C library, `w` is the width of
`*out`. -/
def convert (r : Strto) (w : ℕ) : Option (BitVec w) :=
  if r.errno = some .erange ∨ r.errno = some .einval then none
  else if deref r.endptr = 0 then some (r.value.setWidth w)
  else none

def toInt32 (s : List Byte) (base : ℤ) : Option (BitVec 32) :=
  convert (strtol (cstr s) base) 32

def toInt64 (s : List Byte) (base : ℤ) : Option (BitVec 64) :=
  convert (strtoll (cstr s) base) 64

def toUint32 (s : List Byte) (base : ℤ) : Option (BitVec 32) :=
  if deref s = 0x2d#8 then none else convert (strtoul (cstr s) base) 32

def toUint64 (s : List Byte) (base : ℤ) : Option (BitVec 64) :=
  if deref s = 0x2d#8 then none else convert (strtoull (cstr s) base) 64

inductive Target where
  | int32
  | int64
  | uint32
  | uint64
deriving DecidableEq, Repr

/-- The number that a call stores, if it returns true. -/
def Target.store : Target → List Byte → ℤ → Option ℤ
  | .int32, s, base => (toInt32 s base).map BitVec.toInt
  | .int64, s, base => (toInt64 s base).map BitVec.toInt
  | .uint32, s, base => (toUint32 s base).map fun v => (v.toNat : ℤ)
  | .uint64, s, base => (toUint64 s base).map fun v => (v.toNat : ℤ)

def Target.signed : Target → Bool
  | .int32 | .int64 => true
  | .uint32 | .uint64 => false

def Target.Fits : Target → ℤ → Prop
  | .int32, z => -2 ^ 31 ≤ z ∧ z < 2 ^ 31
  | .int64, z => -2 ^ 63 ≤ z ∧ z < 2 ^ 63
  | .uint32, z => 0 ≤ z ∧ z < 2 ^ 32
  | .uint64, z => 0 ≤ z ∧ z < 2 ^ 64

/-- The numbers that the C library reads without an error. -/
def Target.Readable (t : Target) (z : ℤ) : Prop :=
  if t.signed then -2 ^ 63 ≤ z ∧ z < 2 ^ 63 else -2 ^ 64 < z ∧ z < 2 ^ 64

/-- The call returns false because of the base or of a minus sign in front. -/
def Target.Refused (t : Target) (s : List Byte) (base : ℤ) : Prop :=
  ¬ validBase base ∨ (t.signed = false ∧ deref s = 0x2d#8)

/-- What comes before the first null byte is not empty, and if it is a numeral that the C library
reads, then it is the whole string, and its value fits. -/
def Target.Plain (t : Target) (s : List Byte) (base : ℤ) : Prop :=
  cstr s ≠ [] ∧ ∀ z, Numeral base (cstr s) z → t.Readable z → cstr s = s ∧ t.Fits z

variable {base : ℤ} {s b : List Byte} {k n : ℕ} {neg : Bool} {t : Target} {v z : ℤ}

theorem subject_iff (hs : 0 ∉ s) :
    (∃ rest, subject base s = some (neg, n, rest) ∧ deref rest = 0) ↔
      neg = (unsign s).1 ∧ Body base (unsign s).2 n := by
  have hb := zero_notMem_unsign hs
  have hread : ∀ (k : ℕ) (d : List Byte), 0 ∉ d →
      ((∃ rest, (if d.takeWhile (isDigitOf k) = [] then none
        else some ((unsign s).1, digitsValue k 0 (d.takeWhile (isDigitOf k)),
          d.dropWhile (isDigitOf k))) = some (neg, n, rest) ∧ deref rest = 0) ↔
        neg = (unsign s).1 ∧ Digits k d n) := by
    intro k d hd
    rw [← takeWhile_digits_iff hd]
    split
    case isTrue h => simp [h]
    case isFalse h =>
      simp only [Option.some.injEq, Prod.mk.injEq]
      constructor
      · rintro ⟨rest, ⟨rfl, rfl, rfl⟩, hrest⟩
        exact ⟨rfl, h, hrest, rfl⟩
      · rintro ⟨rfl, -, hrest, rfl⟩
        exact ⟨_, ⟨rfl, rfl, rfl⟩, hrest⟩
  rw [body_iff]
  simp only [subject]
  cases hhex : hexPrefix base (unsign s).2 with
  | false =>
    simp only [Bool.false_and, Bool.false_eq_true, if_false, radix, stripPrefix, hhex]
    exact hread _ _ hb
  | true =>
    have hdrop : 0 ∉ (unsign s).2.drop 2 := fun h => hb (List.mem_of_mem_drop h)
    cases hdigit : isDigitOf 16 (deref ((unsign s).2.drop 2)) with
    | true =>
      simp only [Bool.and_true, if_true, radix, stripPrefix, hhex]
      exact hread 16 _ hdrop
    | false =>
      have hnone : ¬ Digits 16 ((unsign s).2.drop 2) n := by
        intro hd
        have := hd.deref
        rw [hdigit] at this
        cases this
      simp only [Bool.and_false, Bool.false_eq_true, if_false, radix, stripPrefix, hhex, if_true]
      rw [hread _ _ hb]
      have hprefix := hhex
      rw [hexPrefix, decide_eq_true_iff] at hprefix
      have hk : (if base = 0 then if deref (unsign s).2 = 0x30#8 then 8 else 10
          else base.toNat) ≤ 16 := by
        rcases hprefix.1 with h | h
        · simp [h, hprefix.2.1]
        · simp [h]
      constructor
      · rintro ⟨_, hd⟩
        rw [hd.not_hexPrefix hk base] at hhex
        cases hhex
      · rintro ⟨_, hd⟩
        exact absurd hd hnone

theorem numeral_iff_subject (hs : 0 ∉ s) : Numeral base s z ↔
    ∃ neg n rest, subject base s = some (neg, n, rest) ∧ deref rest = 0 ∧
      z = if neg then -(n : ℤ) else n := by
  rw [numeral_iff]
  constructor
  · rintro ⟨n, hbody, hz⟩
    obtain ⟨rest, hsub, hrest⟩ := (subject_iff hs).mpr ⟨rfl, hbody⟩
    exact ⟨_, n, rest, hsub, hrest, hz⟩
  · rintro ⟨neg, n, rest, hsub, hrest, hz⟩
    obtain ⟨rfl, hbody⟩ := (subject_iff hs).mp ⟨rest, hsub, hrest⟩
    exact ⟨n, hbody, hz⟩

theorem subject_nil (base : ℤ) : subject base [] = none := by
  simp [subject, unsign, hexPrefix, deref]

variable {w : ℕ}

theorem setWidth_ofInt (hw : w ≤ 64) (z : ℤ) :
    (BitVec.ofInt 64 z).setWidth w = BitVec.ofInt w z := by
  apply BitVec.eq_of_toNat_eq
  have hdvd : ((2 ^ w : ℕ) : ℤ) ∣ ((2 ^ 64 : ℕ) : ℤ) :=
    Int.natCast_dvd_natCast.mpr (Nat.pow_dvd_pow 2 hw)
  have hpos : 0 ≤ z % ((2 ^ 64 : ℕ) : ℤ) := Int.emod_nonneg _ (by decide)
  rw [BitVec.toNat_setWidth, BitVec.toNat_ofInt, BitVec.toNat_ofInt, ← Int.emod_emod_of_dvd z hdvd,
    Int.toNat_emod hpos (by positivity), Int.toNat_natCast]

theorem convert_iff {past : Bool → ℕ → Option (BitVec 64)} (hs : 0 ∉ s) (hw : w ≤ 64)
    (x : BitVec w) :
    convert (strto past s base) w = some x ↔ validBase base ∧ ((s = [] ∧ x = 0) ∨
      ∃ neg n rest, subject base s = some (neg, n, rest) ∧ deref rest = 0 ∧ past neg n = none ∧
        x = BitVec.ofInt w (if neg then -(n : ℤ) else n)) := by
  by_cases hbase : validBase base
  · cases hsub : subject base s with
    | none =>
      have hr : strto past s base = ⟨0, none, s⟩ := by simp [strto, hbase, hsub]
      have hnil : deref s = 0#8 ↔ s = [] := deref_eq_zero_iff hs
      have hconvert : convert (strto past s base) w = if s = [] then some 0 else none := by
        simp [hr, convert, hnil]
      rw [hconvert]
      by_cases h : s = []
      · rw [if_pos h, Option.some.injEq, eq_comm]
        simp [hbase, h]
      · simp [h]
    | some r =>
      obtain ⟨neg, n, rest⟩ := r
      have hne : s ≠ [] := by
        rintro rfl
        rw [subject_nil] at hsub
        cases hsub
      have hmem : (∃ neg' n' rest', some (neg, n, rest) = some (neg', n', rest') ∧
          deref rest' = 0 ∧ past neg' n' = none ∧
            x = BitVec.ofInt w (if neg' then -(n' : ℤ) else n')) ↔
          deref rest = 0 ∧ past neg n = none ∧
            x = BitVec.ofInt w (if neg then -(n : ℤ) else n) := by
        constructor
        · rintro ⟨neg', n', rest', ⟨⟩, h⟩
          exact h
        · intro h
          exact ⟨neg, n, rest, rfl, h⟩
      rw [hmem]
      cases hpast : past neg n with
      | some v =>
        have hr : strto past s base = ⟨v, some .erange, rest⟩ := by
          simp [strto, hbase, hsub, hpast]
        simp [hr, convert, hne]
      | none =>
        have hr : strto past s base =
            ⟨BitVec.ofInt 64 (if neg then -(n : ℤ) else n), none, rest⟩ := by
          simp [strto, hbase, hsub, hpast]
        simp only [hr, convert, reduceCtorEq, or_self, if_false, setWidth_ofInt hw, hne, false_and,
          false_or, hbase, true_and, Option.ite_none_right_eq_some, Option.some.injEq]
        rw [@eq_comm _ x]
  · have hr : strto past s base = ⟨0, some .einval, s⟩ := by simp [strto, hbase]
    simp [hr, convert, hbase]

def Target.narrow : Target → ℤ → ℤ
  | .int32, z => (BitVec.ofInt 32 z).toInt
  | .int64, z => (BitVec.ofInt 64 z).toInt
  | .uint32, z => (BitVec.ofInt 32 z).toNat
  | .uint64, z => (BitVec.ofInt 64 z).toNat

theorem Target.narrow_eq_iff (t : Target) (z : ℤ) : t.narrow z = z ↔ t.Fits z := by
  cases t with
  | int32 =>
    simp only [narrow, Fits, BitVec.toInt_ofInt, Int.bmod_def]
    split <;> omega
  | int64 =>
    simp only [narrow, Fits, BitVec.toInt_ofInt, Int.bmod_def]
    split <;> omega
  | uint32 =>
    simp only [narrow, Fits, BitVec.toNat_ofInt]
    omega
  | uint64 =>
    simp only [narrow, Fits, BitVec.toNat_ofInt]
    omega

theorem readable_iff {past : Bool → ℕ → Option (BitVec 64)} (ok : ℤ → Prop) (hs : 0 ∉ s)
    (hpast : ∀ neg n, past neg n = none ↔ ok (if neg then -(n : ℤ) else n)) (p : ℤ → Prop) :
    (∃ neg n rest, subject base s = some (neg, n, rest) ∧ deref rest = 0 ∧ past neg n = none ∧
      p (if neg then -(n : ℤ) else n)) ↔ ∃ z, Numeral base s z ∧ ok z ∧ p z := by
  simp only [numeral_iff_subject hs]
  constructor
  · rintro ⟨neg, n, rest, hsub, hrest, hnone, hp⟩
    exact ⟨_, ⟨neg, n, rest, hsub, hrest, rfl⟩, (hpast neg n).mp hnone, hp⟩
  · rintro ⟨z, ⟨neg, n, rest, hsub, hrest, rfl⟩, hok, hp⟩
    exact ⟨neg, n, rest, hsub, hrest, (hpast neg n).mpr hok, hp⟩

theorem convert_strtol_iff (hw : w ≤ 64) (s : List Byte) (base : ℤ) (x : BitVec w) :
    convert (strtol (cstr s) base) w = some x ↔ validBase base ∧ ((cstr s = [] ∧ x = 0) ∨
      ∃ z, Numeral base (cstr s) z ∧ (-2 ^ 63 ≤ z ∧ z < 2 ^ 63) ∧ x = BitVec.ofInt w z) := by
  have hs := zero_notMem_cstr s
  rw [strtol, convert_iff hs hw,
    readable_iff (fun z => -2 ^ 63 ≤ z ∧ z < 2 ^ 63) hs _ fun z => x = BitVec.ofInt w z]
  intro neg n
  cases neg with
  | false =>
    simp only [Bool.false_eq_true, if_false, ite_eq_right_iff, reduceCtorEq, imp_false]
    omega
  | true =>
    simp only [if_true, ite_eq_right_iff, reduceCtorEq, imp_false]
    omega

theorem convert_strtoul_iff (hw : w ≤ 64) (s : List Byte) (base : ℤ) (x : BitVec w) :
    convert (strtoul (cstr s) base) w = some x ↔ validBase base ∧ ((cstr s = [] ∧ x = 0) ∨
      ∃ z, Numeral base (cstr s) z ∧ (-2 ^ 64 < z ∧ z < 2 ^ 64) ∧ x = BitVec.ofInt w z) := by
  have hs := zero_notMem_cstr s
  rw [strtoul, convert_iff hs hw,
    readable_iff (fun z => -2 ^ 64 < z ∧ z < 2 ^ 64) hs _ fun z => x = BitVec.ofInt w z]
  intro neg n
  simp only [ite_eq_right_iff, reduceCtorEq, imp_false]
  cases neg with
  | false =>
    simp only [Bool.false_eq_true, if_false]
    omega
  | true =>
    simp only [if_true]
    omega

theorem map_eq_some_iff_of {r : Option (BitVec w)} {valid empty : Prop} {p : ℤ → Prop}
    (f : BitVec w → ℤ) (hf : f 0 = 0)
    (hr : ∀ x, r = some x ↔ valid ∧ ((empty ∧ x = 0) ∨ ∃ z, p z ∧ x = BitVec.ofInt w z)) (v : ℤ) :
    r.map f = some v ↔ valid ∧ ((empty ∧ v = 0) ∨ ∃ z, p z ∧ v = f (BitVec.ofInt w z)) := by
  rw [Option.map_eq_some_iff]
  constructor
  · rintro ⟨x, hx, rfl⟩
    obtain ⟨hvalid, ⟨hempty, rfl⟩ | ⟨z, hz, rfl⟩⟩ := (hr x).mp hx
    · exact ⟨hvalid, .inl ⟨hempty, hf⟩⟩
    · exact ⟨hvalid, .inr ⟨z, hz, rfl⟩⟩
  · rintro ⟨hvalid, ⟨hempty, rfl⟩ | ⟨z, hz, rfl⟩⟩
    · exact ⟨0, (hr 0).mpr ⟨hvalid, .inl ⟨hempty, rfl⟩⟩, hf⟩
    · exact ⟨_, (hr _).mpr ⟨hvalid, .inr ⟨z, hz, rfl⟩⟩, rfl⟩

theorem Target.store_iff (t : Target) (s : List Byte) (base : ℤ) (v : ℤ) :
    t.store s base = some v ↔ ¬ t.Refused s base ∧ ((cstr s = [] ∧ v = 0) ∨
      ∃ z, Numeral base (cstr s) z ∧ t.Readable z ∧ v = t.narrow z) := by
  have hsigned : ∀ {w : ℕ} (_ : w ≤ 64) (f : BitVec w → ℤ) (_ : f 0 = 0),
      (convert (strtol (cstr s) base) w).map f = some v ↔ validBase base ∧
        ((cstr s = [] ∧ v = 0) ∨ ∃ z, (Numeral base (cstr s) z ∧ (-2 ^ 63 ≤ z ∧ z < 2 ^ 63)) ∧
          v = f (BitVec.ofInt w z)) := fun hw f hf =>
    map_eq_some_iff_of f hf
      (fun x => by simpa only [and_assoc] using convert_strtol_iff hw s base x) v
  have hunsigned : ∀ {w : ℕ} (_ : w ≤ 64) (f : BitVec w → ℤ) (_ : f 0 = 0),
      (convert (strtoul (cstr s) base) w).map f = some v ↔ validBase base ∧
        ((cstr s = [] ∧ v = 0) ∨ ∃ z, (Numeral base (cstr s) z ∧ (-2 ^ 64 < z ∧ z < 2 ^ 64)) ∧
          v = f (BitVec.ofInt w z)) := fun hw f hf =>
    map_eq_some_iff_of f hf
      (fun x => by simpa only [and_assoc] using convert_strtoul_iff hw s base x) v
  cases t with
  | int32 =>
    have := hsigned (by omega) (fun x : BitVec 32 => x.toInt) rfl
    simpa [store, toInt32, Refused, signed, Readable, narrow, and_assoc] using this
  | int64 =>
    have := hsigned (by omega) (fun x : BitVec 64 => x.toInt) rfl
    simpa [store, toInt64, strtoll, Refused, signed, Readable, narrow, and_assoc] using this
  | uint32 =>
    have := hunsigned (by omega) (fun x : BitVec 32 => (x.toNat : ℤ)) rfl
    by_cases hminus : deref s = 0x2d#8
    · simp [store, toUint32, Refused, signed, hminus]
    · simpa [store, toUint32, Refused, signed, Readable, narrow, and_assoc, hminus] using this
  | uint64 =>
    have := hunsigned (by omega) (fun x : BitVec 64 => (x.toNat : ℤ)) rfl
    by_cases hminus : deref s = 0x2d#8
    · simp [store, toUint64, Refused, signed, hminus]
    · simpa [store, toUint64, strtoull, Refused, signed, Readable, narrow, and_assoc, hminus]
        using this

/-- What is stored is always the value of the string exactly when the call refuses, or the string
is plain. -/
theorem to_int_exact_iff (t : Target) (s : List Byte) (base : ℤ) :
    (∀ v, t.store s base = some v → Numeral base s v ∧ t.Fits v) ↔
      t.Refused s base ∨ t.Plain s base := by
  constructor
  · intro hexact
    by_cases hrefused : t.Refused s base
    · exact .inl hrefused
    · right
      constructor
      · intro hempty
        have hnum := (hexact 0 ((t.store_iff s base 0).mpr ⟨hrefused, .inl ⟨hempty, rfl⟩⟩)).1
        have hs := cstr_of_numeral hnum
        rw [← hs, hempty] at hnum
        exact not_numeral_nil hnum
      · intro z hz hread
        obtain ⟨hnum, hfits⟩ := hexact (t.narrow z)
          ((t.store_iff s base _).mpr ⟨hrefused, .inr ⟨z, hz, hread, rfl⟩⟩)
        have hs := cstr_of_numeral hnum
        rw [hs] at hz
        have heq := numeral_unique hz hnum
        rw [← heq] at hfits
        exact ⟨hs, hfits⟩
  · rintro (hrefused | ⟨hne, hplain⟩) v hv
    · exact absurd hrefused ((t.store_iff s base v).mp hv).1
    · obtain ⟨-, ⟨hempty, -⟩ | ⟨z, hz, hread, rfl⟩⟩ := (t.store_iff s base v).mp hv
      · exact absurd hempty hne
      · obtain ⟨hs, hfits⟩ := hplain z hz hread
        rw [(t.narrow_eq_iff z).mpr hfits]
        rw [hs] at hz
        exact ⟨hz, hfits⟩

/-- `to_int32` takes the empty string for zero. -/
theorem to_int32_empty :
    ¬ ∀ v, Target.int32.store [] 10 = some v → Numeral 10 [] v ∧ Target.int32.Fits v := by
  intro h
  have hstore : Target.int32.store [] 10 = some 0 := by decide
  exact not_numeral_nil (h 0 hstore).1

end Sfslite.Async.StrInt
