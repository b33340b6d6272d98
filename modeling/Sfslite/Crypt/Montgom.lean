import Sfslite.Crypt.Mpn
import Sfslite.Crypt.Rabin
import Sfslite.Lib.Montgomery

/-!
Montgomery multiplication and powers: the class `montgom` of `modalg.C`, and `mpz_getbit`.
-/

namespace Sfslite.Crypt

open Sfslite.Lib

/-- `mpz_getbit`. -/
def MpInt.getbit (mp : MpInt) (bit : ℕ) : Bool :=
  let limb := bit / 64
  match mp.mpD[limb]? with
  | none => mp.neg
  | some v =>
    if mp.neg then
      let carry : Limb := if (mp.mpD.take limb).all (· == 0) then 1 else 0
      (~~~v + carry).getLsbD (bit % 64)
    else v.getLsbD (bit % 64)

/-- How often the loop of `mpz_powm` goes round. -/
def MpInt.intBits (mp : MpInt) : ℕ := intSteps mp.sizeinbase2

/-- The variables that the functions work on: those of the caller, and members of the class. -/
inductive Place (ι : Type)
  | var (v : ι)
  | mmr
  | gm
  | rm
  | r2
deriving DecidableEq

abbrev Store (ι : Type) := Place ι → MpInt

/-- What `set` computes, besides `rm` and `r2`. -/
structure Montgom where
  /-- Modulus, M. -/
  m : MpInt
  /-- -M^(-1) mod b. -/
  mi : Limb
  /-- Number of limbs in M. -/
  n : ℕ
  r : ℤ
  ri : ℤ
  mr : ℤ

namespace Montgom

variable {ι : Type} [DecidableEq ι]

/-- `montgom::set`; `none` where the assertion fails, and where one of the products, which are
of type `int`, overflows. -/
def set (m : MpInt) (st : Store ι) : Option (Montgom × Store ι) :=
  if 0 < m.toInt ∧ m.getbit 0 then
    let b : ℤ := 2 ^ 64
    let mitmp := b - invert m.toInt b
    let n := m.mpD.length
    if n * 64 < 2 ^ 31 ∧ n * 2 * 64 < 2 ^ 31 then
      let r : ℤ := 2 ^ (n * 64)
      let rm := r % m.toInt
      let r2 := 2 ^ (n * 2 * 64) % m.toInt
      some (⟨m, BitVec.ofNat 64 (getui mitmp), n, r, invert rm m.toInt, m.toInt * r⟩,
        Function.update (Function.update st .rm (MpInt.ofInt rm)) .r2 (MpInt.ofInt r2))
    else none
  else none

/-- The `for` loop of `mpz_mreduce`, which goes round `k` more times from `i` on. -/
def reduceLoop (mpn : Mpn) (t : Montgom) : ℕ → ℕ → List Limb → Option (List Limb)
  | 0, _, ap => some ap
  | k + 1, i, ap => do
      let u := (← ap[i]?) * t.mi
      let ap ← mpn.addRow ap i t.m.mpD u (t.n - i + 1)
      reduceLoop mpn t k (i + 1) ap

/-- The end of both functions, behind the loop. -/
def divide (t : Montgom) (ap : List Limb) : MpInt :=
  let a := MpInt.fixsize false ap
  let a := a.toInt.tdiv (2 ^ (t.n * 64))
  MpInt.ofInt (if t.m.toInt ≤ a then a - t.m.toInt else a)

/-- `mpz_mreduce`; `none` where an assertion fails. -/
def mreduce (mpn : Mpn) (t : Montgom) (a x : Place ι) (st : Store ι) : Option (Store ι) :=
  if (st x).neg = false ∧ (st x).mpD.length ≤ 2 * t.n ∧ (st x).toInt < t.mr then do
    let sa := 2 * t.n + 1
    let ap := (st x).mpD ++ List.replicate (sa - (st x).mpD.length) 0
    let ap ← reduceLoop mpn t t.n 0 ap
    some (Function.update st a (t.divide ap))
  else none

/-- The `for` loop of `mpz_mmul`. -/
def mulLoop (mpn : Mpn) (t : Montgom) (xp yp : List Limb) :
    ℕ → ℕ → List Limb → Option (List Limb)
  | 0, _, ap => some ap
  | k + 1, i, ap => do
      let xi := xp[i]?.getD 0
      let u := ((← ap[i]?) + xi * (← yp[0]?)) * t.mi
      let ap ← mpn.addRow ap i t.m.mpD u (t.n - i + 1)
      let ap ← mpn.addRow ap i yp xi (2 * t.n + 1 - yp.length - i)
      mulLoop mpn t xp yp k (i + 1) ap

/-- `mpz_mmul`; `none` where an assertion fails. -/
def mmul (mpn : Mpn) (t : Montgom) (a x y : Place ι) (st : Store ι) : Option (Store ι) :=
  if ((st x).neg = false ∧ (st x).mpD.length ≤ t.n) ∧
      ((st y).neg = false ∧ (st y).mpD.length ≤ t.n) then
    if (st x).mpD.length = 0 ∨ (st y).mpD.length = 0 then
      some (Function.update st a (MpInt.ofInt 0))
    else do
      let rp := if a = x ∨ a = y then .mmr else a
      let ap ← mulLoop mpn t (st x).mpD (st y).mpD t.n 0 (List.replicate (2 * t.n + 1) 0)
      let st := Function.update st rp (t.divide ap)
      if a = x ∨ a = y then
        -- `mmr.swap (a)`
        some (Function.update (Function.update st a (st .mmr)) .mmr (st a))
      else some st
  else none

/-- The loop of `mpz_powm`, with `i` bits of the exponent left. -/
def powLoop (mpn : Mpn) (t : Montgom) (a e : Place ι) : ℕ → Store ι → Option (Store ι)
  | 0, st => some st
  | i + 1, st => do
      let st ← t.mmul mpn a a a st
      let st ← if (st e).getbit i then t.mmul mpn a a .gm st else some st
      powLoop mpn t a e i st

/-- `mpz_powm`. -/
def powm (mpn : Mpn) (t : Montgom) (a g e : Place ι) (st : Store ι) : Option (Store ι) := do
  let st ← t.mmul mpn .gm g .r2 st
  let st := Function.update st a (st .rm)
  let st ← t.powLoop mpn a e (st e).intBits st
  t.mreduce mpn a a st

end Montgom

variable {mp : MpInt}

theorem MpInt.of_natCast {v : ℕ} (h : mp.toInt = v) : mp.neg = false ∧ Words.val mp.mpD = v := by
  have hof : mp = MpInt.fixsize false mp.mpD := by
    apply MpInt.toInt_inj
    rw [MpInt.toInt_fixsize]
    unfold MpInt.toInt at h ⊢
    split
    · rename_i hneg
      rw [if_pos hneg, MpInt.mag] at h
      rw [MpInt.mag, if_neg (by decide)]
      omega
    · rfl
  have hneg : mp.neg = false := by
    rw [hof]
    rfl
  refine ⟨hneg, ?_⟩
  rw [MpInt.toInt, hneg, if_neg (by decide), MpInt.mag] at h
  exact_mod_cast h

theorem MpInt.toInt_of_neg_eq_false (h : mp.neg = false) : mp.toInt = Words.val mp.mpD := by
  rw [MpInt.toInt, h, if_neg (by decide), MpInt.mag]

theorem MpInt.length_le_of_lt {k : ℕ} (h : Words.val mp.mpD < (2 ^ 64) ^ k) :
    mp.mpD.length ≤ k := by
  cases hlast : mp.mpD.getLast? with
  | none =>
    rw [List.getLast?_eq_none_iff.mp hlast]
    exact Nat.zero_le k
  | some v =>
    have hv : v ≠ 0#64 := fun hzero => mp.top (hlast.trans (congrArg some hzero))
    obtain ⟨hle, hpos⟩ := Words.pow_le_val hlast hv
    have hlt : (2 ^ 64) ^ (mp.mpD.length - 1) < (2 ^ 64) ^ k := by
      calc (2 ^ 64) ^ (mp.mpD.length - 1)
          ≤ (2 ^ 64) ^ (mp.mpD.length - 1) * v.toNat := Nat.le_mul_of_pos_right _ hpos
        _ < (2 ^ 64) ^ k := Nat.lt_of_le_of_lt hle h
    have hexp := (Nat.pow_lt_pow_iff_right (by decide)).mp hlt
    omega

theorem MpInt.intBits_eq (h : mp.sizeinbase2 < 2 ^ 31) : mp.intBits = mp.sizeinbase2 :=
  intSteps_eq h

theorem MpInt.getbit_eq (h : mp.neg = false) (bit : ℕ) :
    mp.getbit bit = (Words.val mp.mpD).testBit bit := by
  have hlt : bit % 64 < 64 := Nat.mod_lt _ (by decide)
  unfold MpInt.getbit
  simp only [h]
  cases hlimb : mp.mpD[bit / 64]? with
  | none =>
    have hlen := List.getElem?_eq_none_iff.mp hlimb
    symm
    apply Nat.testBit_lt_two_pow
    calc Words.val mp.mpD < (2 ^ 64) ^ mp.mpD.length := Words.val_lt _
      _ ≤ (2 ^ 64) ^ (bit / 64) := Nat.pow_le_pow_right (by decide) hlen
      _ = 2 ^ (64 * (bit / 64)) := (pow_mul ..).symm
      _ ≤ 2 ^ bit := Nat.pow_le_pow_right (by decide) (by omega)
  | some v =>
    have hv := Words.toNat_getElem? hlimb
    simp only [Bool.false_eq_true, if_false]
    rw [← BitVec.testBit_toNat, hv, ← pow_mul, Nat.testBit_mod_two_pow, Nat.testBit_div_two_pow,
      decide_eq_true hlt, Bool.true_and, Nat.mod_add_div]

namespace Montgom

variable {ι : Type} [DecidableEq ι] {mpn : Mpn} {t : Montgom} {M : ℕ}

/-- What `set` leaves for an odd `M`. -/
structure Ready (t : Montgom) (M : ℕ) : Prop where
  m : Words.val t.m.mpD = M
  neg : t.m.neg = false
  odd : M % 2 = 1
  n : t.n = t.m.mpD.length
  mi : 2 ^ 64 ∣ M * t.mi.toNat + 1
  mr : t.mr = (M * (2 ^ 64) ^ t.n : ℕ)

theorem Ready.lt (h : Ready t M) : M < (2 ^ 64) ^ t.n := by
  rw [← h.m, h.n]
  exact Words.val_lt _

theorem Ready.pos (h : Ready t M) : 0 < t.m.mpD.length := by
  apply List.length_pos_of_ne_nil
  intro hnil
  have hm := h.m
  have hodd := h.odd
  rw [hnil, Words.val_nil] at hm
  omega

theorem Ready.room (h : Ready t M) {T K : ℕ} (hT : T < M * (2 ^ 64) ^ t.n)
    (hK : K ≤ (2 ^ 64) ^ t.n) : T + M * K < (2 ^ 64) ^ (2 * t.n + 1) := by
  have hlt := h.lt
  have hsq : (2 ^ 64) ^ (2 * t.n + 1) = 2 ^ 64 * ((2 ^ 64) ^ t.n * (2 ^ 64) ^ t.n) := by
    rw [pow_succ', Nat.two_mul, pow_add]
  have hmul : M * (2 ^ 64) ^ t.n ≤ (2 ^ 64) ^ t.n * (2 ^ 64) ^ t.n :=
    Nat.mul_le_mul_right _ (Nat.le_of_lt hlt)
  have hle : M * K ≤ M * (2 ^ 64) ^ t.n := Nat.mul_le_mul_left M hK
  omega

theorem toNat_mul_limb (v u : Limb) : (v * u).toNat ≡ v.toNat * u.toNat [MOD 2 ^ 64] := by
  rw [BitVec.toNat_mul]
  exact Nat.mod_modEq _ _

theorem Ready.reduceLoop (h : Ready t M) (hmpn : mpn.Lawful) {T : ℕ}
    (hT : T < M * (2 ^ 64) ^ t.n) (k i : ℕ) (hi : i + k = t.n) (K : ℕ) (hK : K < (2 ^ 64) ^ i)
    (ap : List Limb) (hlen : ap.length = 2 * t.n + 1) (hval : Words.val ap = T + M * K)
    (hdvd : (2 ^ 64) ^ i ∣ Words.val ap) :
    ∃ ap' K', reduceLoop mpn t k i ap = some ap' ∧ Words.val ap' = T + M * K' ∧
      K' < (2 ^ 64) ^ t.n ∧ (2 ^ 64) ^ t.n ∣ Words.val ap' := by
  induction k generalizing i K ap with
  | zero =>
    obtain rfl : i = t.n := hi
    exact ⟨ap, K, rfl, hval, hK, hdvd⟩
  | succ k ih =>
    obtain ⟨v, hv⟩ : ∃ v, ap[i]? = some v :=
      ⟨_, List.getElem?_eq_getElem (by omega)⟩
    have hpos := h.pos
    have hn := h.n
    have hdigit := Words.toNat_getElem? hv
    have hu : (v * t.mi).toNat ≡ Words.val ap / (2 ^ 64) ^ i * t.mi.toNat [MOD 2 ^ 64] := by
      calc (v * t.mi).toNat ≡ v.toNat * t.mi.toNat [MOD 2 ^ 64] := toNat_mul_limb v t.mi
        _ ≡ Words.val ap / (2 ^ 64) ^ i * t.mi.toNat [MOD 2 ^ 64] := by
            rw [hdigit]
            exact (Nat.mod_modEq _ _).mul_right _
    have hK' := Montgomery.add_digit_lt hK (v * t.mi).isLt
    have hle : (2 ^ 64) ^ (i + 1) ≤ (2 ^ 64) ^ t.n := Nat.pow_le_pow_right (by decide) (by omega)
    have hsum : T + M * (K + (2 ^ 64) ^ i * (v * t.mi).toNat) =
        Words.val ap + (2 ^ 64) ^ i * (Words.val t.m.mpD * (v * t.mi).toNat) := by
      rw [hval, h.m]
      ring
    have hroom := h.room hT (Nat.le_of_lt (Nat.lt_of_lt_of_le hK' hle))
    obtain ⟨ap', hrow, hlen', hval'⟩ := hmpn.addRow_of_lt ap (v * t.mi) (i := i)
      (n := t.n - i + 1) hpos (Nat.succ_pos _) (by omega) (by rw [← hsum, hlen]; exact hroom)
    obtain ⟨ap'', K', hrest, hspec⟩ := ih (i + 1) (by omega) _ hK' ap' (hlen'.trans hlen)
      (hval'.trans hsum.symm) (by
        rw [hval', h.m]
        exact Montgomery.pow_dvd_step (by decide) h.mi hdvd hu)
    refine ⟨ap'', K', ?_, hspec⟩
    rw [Montgom.reduceLoop, hv]
    simp only [Option.bind_eq_bind, Option.bind_some, hrow, hrest]

theorem Ready.mulLoop (h : Ready t M) (hmpn : mpn.Lawful) (xp : List Limb) {yp : List Limb}
    (hyp : 0 < yp.length) (hyn : yp.length ≤ t.n)
    (hT : Words.val yp * Words.val xp < M * (2 ^ 64) ^ t.n) (k i : ℕ) (hi : i + k = t.n) (K : ℕ)
    (hK : K < (2 ^ 64) ^ i) (ap : List Limb) (hlen : ap.length = 2 * t.n + 1)
    (hval : Words.val ap = Words.val yp * (Words.val xp % (2 ^ 64) ^ i) + M * K)
    (hdvd : (2 ^ 64) ^ i ∣ Words.val ap) :
    ∃ ap' K', mulLoop mpn t xp yp k i ap = some ap' ∧
      Words.val ap' = Words.val yp * (Words.val xp % (2 ^ 64) ^ t.n) + M * K' ∧
      K' < (2 ^ 64) ^ t.n ∧ (2 ^ 64) ^ t.n ∣ Words.val ap' := by
  induction k generalizing i K ap with
  | zero =>
    obtain rfl : i = t.n := hi
    exact ⟨ap, K, rfl, hval, hK, hdvd⟩
  | succ k ih =>
    obtain ⟨v, hv⟩ : ∃ v, ap[i]? = some v := ⟨_, List.getElem?_eq_getElem (by omega)⟩
    obtain ⟨y, hy⟩ : ∃ y, yp[0]? = some y := ⟨_, List.getElem?_eq_getElem hyp⟩
    have hpos := h.pos
    have hn := h.n
    have hB : 0 < (2 ^ 64) ^ i := by positivity
    have hxi := Words.toNat_getD xp i
    generalize hx : xp[i]?.getD 0#64 = xi at hxi
    have hnext : Words.val yp * (Words.val xp % (2 ^ 64) ^ (i + 1)) + M * K =
        Words.val ap + (2 ^ 64) ^ i * (Words.val yp * xi.toNat) := by
      rw [hval, Nat.mod_pow_succ, hxi]
      ring
    have hdvd' : (2 ^ 64) ^ i ∣ Words.val ap + (2 ^ 64) ^ i * (Words.val yp * xi.toNat) :=
      Nat.dvd_add hdvd (Nat.dvd_mul_right _ _)
    have hu : ((v + xi * y) * t.mi).toNat ≡ (Words.val ap +
        (2 ^ 64) ^ i * (Words.val yp * xi.toNat)) / (2 ^ 64) ^ i * t.mi.toNat [MOD 2 ^ 64] := by
      have hv' : v.toNat ≡ Words.val ap / (2 ^ 64) ^ i [MOD 2 ^ 64] := by
        rw [Words.toNat_getElem? hv]
        exact Nat.mod_modEq _ _
      have hy' : y.toNat ≡ Words.val yp [MOD 2 ^ 64] := by
        rw [Words.toNat_getElem? hy, pow_zero, Nat.div_one]
        exact Nat.mod_modEq _ _
      have hsum : (v + xi * y).toNat ≡
          Words.val ap / (2 ^ 64) ^ i + Words.val yp * xi.toNat [MOD 2 ^ 64] := by
        calc (v + xi * y).toNat ≡ v.toNat + (xi * y).toNat [MOD 2 ^ 64] := by
              rw [BitVec.toNat_add]
              exact Nat.mod_modEq _ _
          _ ≡ Words.val ap / (2 ^ 64) ^ i + xi.toNat * Words.val yp [MOD 2 ^ 64] :=
              hv'.add ((toNat_mul_limb xi y).trans (hy'.mul_left _))
          _ = Words.val ap / (2 ^ 64) ^ i + Words.val yp * xi.toNat := by ring
      rw [Nat.add_mul_div_left _ _ hB]
      exact (toNat_mul_limb _ _).trans (hsum.mul_right _)
    generalize hU : (v + xi * y) * t.mi = u at hu
    have hK' := Montgomery.add_digit_lt hK u.isLt
    have hle : (2 ^ 64) ^ (i + 1) ≤ (2 ^ 64) ^ t.n := Nat.pow_le_pow_right (by decide) (by omega)
    have hbound : Words.val yp * (Words.val xp % (2 ^ 64) ^ (i + 1)) < M * (2 ^ 64) ^ t.n :=
      Nat.lt_of_le_of_lt (Nat.mul_le_mul_left _ (Nat.mod_le _ _)) hT
    have hroom := h.room hbound (Nat.le_of_lt (Nat.lt_of_lt_of_le hK' hle))
    have hsum : Words.val yp * (Words.val xp % (2 ^ 64) ^ (i + 1)) +
        M * (K + (2 ^ 64) ^ i * u.toNat) =
        Words.val ap + (2 ^ 64) ^ i * (Words.val t.m.mpD * u.toNat) +
          (2 ^ 64) ^ i * (Words.val yp * xi.toNat) := by
      rw [h.m, Nat.mul_add, ← Nat.add_assoc, hnext]
      ring
    obtain ⟨ap₁, hrow, hlen₁, hval₁⟩ := hmpn.addRow_of_lt ap u (i := i)
      (n := t.n - i + 1) hpos (Nat.succ_pos _) (by omega) (by rw [hlen]; omega)
    obtain ⟨ap₂, hrow', hlen₂, hval₂⟩ := hmpn.addRow_of_lt ap₁ xi (i := i)
      (n := 2 * t.n + 1 - yp.length - i) hyp (by omega) (by omega)
      (by rw [hval₁, hlen₁, hlen]; omega)
    rw [hval₁] at hval₂
    obtain ⟨ap', K', hrest, hspec⟩ := ih (i + 1) (by omega) _ hK' ap₂ (by omega)
      (hval₂.trans hsum.symm) (by
        rw [hval₂, h.m, Nat.add_right_comm]
        exact Montgomery.pow_dvd_step (by decide) h.mi hdvd' hu)
    refine ⟨ap', K', ?_, hspec⟩
    rw [Montgom.mulLoop, hv, hy]
    simp only [Option.bind_eq_bind, Option.bind_some]
    have hxi' : xp[i]?.getD 0 = xi := hx
    rw [hxi', hU, hrow]
    simp only [Option.bind_some, hrow', hrest]

theorem Ready.m_toInt (h : Ready t M) : t.m.toInt = M := by
  rw [MpInt.toInt_of_neg_eq_false h.neg, h.m]

theorem Ready.divide (h : Ready t M) {ap : List Limb} {T K : ℕ} (hval : Words.val ap = T + M * K)
    (hT : T < M * (2 ^ 64) ^ t.n) (hK : K < (2 ^ 64) ^ t.n) (hdvd : (2 ^ 64) ^ t.n ∣ Words.val ap) :
    ∃ r : ℕ, (t.divide ap).toInt = r ∧ r < M ∧ r * (2 ^ 64) ^ t.n ≡ T [MOD M] := by
  rw [hval] at hdvd
  obtain ⟨hlt, hmod⟩ := Montgomery.subOnce_spec hT hK hdvd
  refine ⟨_, ?_, hlt, hmod⟩
  have hpow : (2 : ℤ) ^ (t.n * 64) = ((2 ^ 64) ^ t.n : ℕ) := by
    rw [Nat.mul_comm, pow_mul]
    norm_cast
  have ha : (MpInt.fixsize false ap).toInt = (T + M * K : ℕ) := by
    rw [MpInt.toInt_fixsize, if_neg (by decide), hval]
  unfold Montgom.divide Montgomery.subOnce
  simp only
  rw [MpInt.toInt_ofInt, ha, hpow, h.m_toInt, ← Int.ofNat_tdiv]
  split
  · rename_i hle
    have hle' : M ≤ (T + M * K) / (2 ^ 64) ^ t.n := by exact_mod_cast hle
    rw [if_pos hle', Nat.cast_sub hle']
  · rename_i hgt
    rw [if_neg (by exact_mod_cast hgt)]

variable {st : Store ι}

theorem Ready.mreduce (h : Ready t M) (hmpn : mpn.Lawful) (a x : Place ι) {T : ℕ}
    (hx : (st x).toInt = T) (hT : T < M * (2 ^ 64) ^ t.n) :
    ∃ d, t.mreduce mpn a x st = some (Function.update st a d) ∧
      ∃ r : ℕ, d.toInt = r ∧ r < M ∧ r * (2 ^ 64) ^ t.n ≡ T [MOD M] := by
  obtain ⟨hneg, hval⟩ := MpInt.of_natCast hx
  have hlt := h.lt
  have hlen : (st x).mpD.length ≤ 2 * t.n := by
    apply MpInt.length_le_of_lt
    rw [hval, Nat.two_mul, pow_add]
    exact Nat.lt_of_lt_of_le hT (Nat.mul_le_mul_right _ (Nat.le_of_lt hlt))
  have hpad : Words.val ((st x).mpD ++
      List.replicate (2 * t.n + 1 - (st x).mpD.length) (0 : Limb)) = T + M * 0 := by
    have hzero := Words.val_replicate_zero (w := 64) (2 * t.n + 1 - (st x).mpD.length)
    rw [Words.val_append, hval]
    exact congrArg (T + _ * ·) hzero
  obtain ⟨ap, K, hloop, hap, hK, hdvd⟩ := h.reduceLoop hmpn hT t.n 0 (Nat.zero_add _) 0
    Nat.one_pos _ (by rw [List.length_append, List.length_replicate]; omega) hpad
    (by rw [pow_zero]; exact Nat.one_dvd _)
  refine ⟨_, ?_, h.divide hap hT hK hdvd⟩
  have hmr : (st x).toInt < t.mr := by
    rw [hx, h.mr]
    exact_mod_cast hT
  rw [Montgom.mreduce, if_pos ⟨hneg, hlen, hmr⟩]
  simp only [hloop, Option.bind_eq_bind, Option.bind_some]

theorem Ready.mmul (h : Ready t M) (hmpn : mpn.Lawful) {a x y : Place ι} (ha : a ≠ .mmr)
    {X Y : ℕ} (hx : (st x).toInt = X) (hy : (st y).toInt = Y)
    (hX : X < (2 ^ 64) ^ t.n) (hY : Y < (2 ^ 64) ^ t.n) (hXY : Y * X < M * (2 ^ 64) ^ t.n) :
    ∃ st', t.mmul mpn a x y st = some st' ∧ (∀ p, p ≠ a → p ≠ .mmr → st' p = st p) ∧
      ∃ r : ℕ, (st' a).toInt = r ∧ r < M ∧ r * (2 ^ 64) ^ t.n ≡ X * Y [MOD M] := by
  obtain ⟨hnx, hvx⟩ := MpInt.of_natCast hx
  obtain ⟨hny, hvy⟩ := MpInt.of_natCast hy
  have hlx := MpInt.length_le_of_lt (hvx.symm ▸ hX)
  have hly := MpInt.length_le_of_lt (hvy.symm ▸ hY)
  rw [Montgom.mmul, if_pos ⟨⟨hnx, hlx⟩, hny, hly⟩]
  split
  · rename_i hzero
    have hprod : X * Y = 0 := by
      rcases hzero with hzero | hzero
      · rw [List.length_eq_zero_iff.mp hzero, Words.val_nil] at hvx
        rw [← hvx, Nat.zero_mul]
      · rw [List.length_eq_zero_iff.mp hzero, Words.val_nil] at hvy
        rw [← hvy, Nat.mul_zero]
    refine ⟨_, rfl, fun p hp _ => Function.update_of_ne hp .., 0, ?_, ?_, ?_⟩
    · rw [Function.update_self, MpInt.toInt_ofInt]
      rfl
    · have hodd := h.odd
      omega
    · rw [hprod, Nat.zero_mul]
  · rename_i hne
    have hypos : 0 < (st y).mpD.length := by omega
    have hzeros : Words.val (List.replicate (2 * t.n + 1) (0 : Limb)) =
        Words.val (st y).mpD * (Words.val (st x).mpD % (2 ^ 64) ^ 0) + M * 0 := by
      rw [pow_zero, Nat.mod_one]
      exact Words.val_replicate_zero _
    obtain ⟨ap, K, hloop, hap, hK, hdvd⟩ := h.mulLoop hmpn (st x).mpD hypos hly
      (by rw [hvx, hvy]; exact hXY) t.n 0 (Nat.zero_add _) 0 Nat.one_pos _
      (List.length_replicate ..) hzeros (by rw [pow_zero]; exact Nat.one_dvd _)
    rw [hvx, hvy, Nat.mod_eq_of_lt hX] at hap
    have hdiv := h.divide hap hXY hK hdvd
    rw [Nat.mul_comm Y X] at hdiv
    simp only [hloop, Option.bind_eq_bind, Option.bind_some]
    split
    · refine ⟨_, rfl, fun p hpa hpm => ?_, ?_⟩
      · rw [Function.update_of_ne hpm, Function.update_of_ne hpa, Function.update_of_ne hpm]
      · rw [Function.update_of_ne ha, Function.update_self, Function.update_self]
        exact hdiv
    · refine ⟨_, rfl, fun p hpa _ => Function.update_of_ne hpa .., ?_⟩
      rw [Function.update_self]
      exact hdiv

theorem mmul_eq_none {a x y : Place ι}
    (hx : ¬((st x).neg = false ∧ (st x).mpD.length ≤ t.n)) : t.mmul mpn a x y st = none :=
  if_neg fun h => hx h.1

theorem powm_eq_none {a g e : Place ι}
    (hg : ¬((st g).neg = false ∧ (st g).mpD.length ≤ t.n)) : t.powm mpn a g e st = none := by
  rw [powm, mmul_eq_none hg]
  rfl

theorem Ready.coprime (h : Ready t M) : Nat.Coprime M ((2 ^ 64) ^ t.n) := by
  rw [← pow_mul]
  exact (Nat.coprime_two_right.mpr (Nat.odd_iff.mpr h.odd)).pow_right _

theorem Ready.mul_lt (h : Ready t M) {v w : ℕ} (hv : v < M) (hw : w < M) :
    v * w < M * (2 ^ 64) ^ t.n :=
  Nat.mul_lt_mul'' hv (Nat.lt_trans hw h.lt)

theorem Ready.powLoop (h : Ready t M) (hmpn : mpn.Lawful) {a e : ι} (hne : e ≠ a) {E X G w : ℕ}
    (hw : w < M) (hwG : w ≡ G * (2 ^ 64) ^ t.n [MOD M]) (i : ℕ) (st : Store ι) (v : ℕ)
    (he : (st (.var e)).toInt = E) (hgm : (st .gm).toInt = w) (hv : (st (.var a)).toInt = v)
    (hlt : v < M) (hX : ∀ j < i, E.testBit j = X.testBit j)
    (hmod : v ≡ G ^ (X / 2 ^ i) * (2 ^ 64) ^ t.n [MOD M]) :
    ∃ st', t.powLoop mpn (.var a) (.var e) i st = some st' ∧
      (∀ p, p ≠ .var a → p ≠ .mmr → st' p = st p) ∧
      ∃ r : ℕ, (st' (.var a)).toInt = r ∧ r < M ∧ r ≡ G ^ X * (2 ^ 64) ^ t.n [MOD M] := by
  have hvar : Place.var e ≠ .var a := fun heq => hne (Place.var.inj heq)
  induction i generalizing st v with
  | zero =>
    rw [pow_zero, Nat.div_one] at hmod
    exact ⟨st, rfl, fun _ _ _ => rfl, v, hv, hlt, hmod⟩
  | succ i ih =>
    have hM := h.lt
    obtain ⟨st₁, hsq, hkeep, r, hr, hrlt, hrmod⟩ := h.mmul hmpn (a := .var a) (by simp) hv hv
      (Nat.lt_trans hlt hM) (Nat.lt_trans hlt hM) (h.mul_lt hlt hlt)
    have hr2 := Montgomery.product_modEq h.coprime hmod hmod hrmod
    rw [← pow_add, ← Nat.two_mul] at hr2
    have he₁ : (st₁ (.var e)).toInt = E := by rw [hkeep _ hvar (by simp), he]
    have hgm₁ : (st₁ .gm).toInt = w := by rw [hkeep .gm (by simp) (by simp), hgm]
    obtain ⟨hneg, hval⟩ := MpInt.of_natCast he₁
    have hbit : (st₁ (.var e)).getbit i = X.testBit i := by
      rw [MpInt.getbit_eq hneg, hval, hX i (Nat.lt_succ_self i)]
    have hX' : ∀ j < i, E.testBit j = X.testBit j := fun j hj => hX j (Nat.lt_succ_of_lt hj)
    have hshift := Montgomery.shift_succ X i
    rw [Montgom.powLoop, hsq]
    simp only [Option.bind_eq_bind, Option.bind_some, hbit]
    cases hb : X.testBit i with
    | false =>
      rw [hb, Bool.toNat_false, Nat.add_zero] at hshift
      rw [← hshift] at hr2
      obtain ⟨st', hrest, hkeep', hspec⟩ := ih st₁ r he₁ hgm₁ hr hrlt hX' hr2
      refine ⟨st', hrest, fun p hpa hpm => ?_, hspec⟩
      rw [hkeep' p hpa hpm, hkeep p hpa hpm]
    | true =>
      rw [hb, Bool.toNat_true] at hshift
      obtain ⟨st₂, hmul, hkeep₂, r', hr', hrlt', hrmod'⟩ := h.mmul hmpn (a := .var a) (by simp)
        hr hgm₁ (Nat.lt_trans hrlt hM) (Nat.lt_trans hw hM) (h.mul_lt hw hrlt)
      have hr3 := Montgomery.product_modEq h.coprime hr2 hwG hrmod'
      rw [← pow_succ, ← hshift] at hr3
      obtain ⟨st', hrest, hkeep', hspec⟩ := ih st₂ r' (by rw [hkeep₂ _ hvar (by simp), he₁])
        (by rw [hkeep₂ .gm (by simp) (by simp), hgm₁]) hr' hrlt' hX' hr3
      refine ⟨st', ?_, fun p hpa hpm => ?_, hspec⟩
      · rw [if_pos rfl, hmul]
        exact hrest
      · rw [hkeep' p hpa hpm, hkeep₂ p hpa hpm, hkeep p hpa hpm]

theorem Ready.powm (h : Ready t M) (hmpn : mpn.Lawful) {a e g : ι} (hne : e ≠ a)
    {G E rm r2 : ℕ} (hg : (st (.var g)).toInt = G) (hG : G < (2 ^ 64) ^ t.n)
    (he : (st (.var e)).toInt = E) (hrm : (st .rm).toInt = rm) (hrm' : rm < M)
    (hrm1 : rm ≡ (2 ^ 64) ^ t.n [MOD M]) (hr2 : (st .r2).toInt = r2) (hr2' : r2 < M)
    (hr22 : r2 ≡ (2 ^ 64) ^ t.n * (2 ^ 64) ^ t.n [MOD M]) :
    ∃ st', t.powm mpn (.var a) (.var g) (.var e) st = some st' ∧
      (∀ v, v ≠ a → st' (.var v) = st (.var v)) ∧
      (st' (.var a)).toInt = (G ^ (E % 2 ^ (st (.var e)).intBits) % M : ℕ) := by
  have hM := h.lt
  have hvar : ∀ {v : ι}, v ≠ a → Place.var v ≠ .var a := fun hv heq => hv (Place.var.inj heq)
  have hgr2 : r2 * G < M * (2 ^ 64) ^ t.n := Nat.mul_lt_mul'' hr2' hG
  obtain ⟨st₁, hmul, hkeep, w, hw, hwlt, hwmod⟩ := h.mmul hmpn (a := .gm) (by simp) hg hr2 hG
    (Nat.lt_trans hr2' hM) hgr2
  have hwG : w ≡ G * (2 ^ 64) ^ t.n [MOD M] := by
    apply Nat.ModEq.cancel_right_of_coprime h.coprime
    calc w * (2 ^ 64) ^ t.n ≡ G * r2 [MOD M] := hwmod
      _ ≡ G * ((2 ^ 64) ^ t.n * (2 ^ 64) ^ t.n) [MOD M] := hr22.mul_left G
      _ = G * (2 ^ 64) ^ t.n * (2 ^ 64) ^ t.n := (Nat.mul_assoc ..).symm
  obtain ⟨st₂, hst₂⟩ : ∃ st₂, Function.update st₁ (.var a) (st₁ .rm) = st₂ := ⟨_, rfl⟩
  have ha₂ : (st₂ (.var a)).toInt = rm := by
    rw [← hst₂, Function.update_self, hkeep .rm (by simp) (by simp), hrm]
  have hkeep₂ : ∀ p, p ≠ .var a → p ≠ .gm → p ≠ .mmr → st₂ p = st p := by
    intro p hpa hpg hpm
    rw [← hst₂, Function.update_of_ne hpa, hkeep p hpg hpm]
  have he₂ : (st₂ (.var e)).toInt = E := by rw [hkeep₂ _ (hvar hne) (by simp) (by simp), he]
  have hgm₂ : (st₂ .gm).toInt = w := by rw [← hst₂, Function.update_of_ne (by simp), hw]
  have hbits : (st₂ (.var e)).intBits = (st (.var e)).intBits := by
    rw [hkeep₂ _ (hvar hne) (by simp) (by simp)]
  generalize (st (.var e)).intBits = k at hbits ⊢
  have hX : ∀ j < k, E.testBit j = (E % 2 ^ k).testBit j := by
    intro j hj
    rw [Nat.testBit_mod_two_pow, decide_eq_true hj, Bool.true_and]
  have hstart : rm ≡ G ^ (E % 2 ^ k / 2 ^ k) * (2 ^ 64) ^ t.n [MOD M] := by
    rw [Nat.div_eq_of_lt (Nat.mod_lt _ (Nat.two_pow_pos k)), pow_zero, Nat.one_mul]
    exact hrm1
  obtain ⟨st₃, hloop, hkeep₃, v, hv, hvlt, hvmod⟩ := h.powLoop hmpn hne hwlt hwG k st₂ rm he₂
    hgm₂ ha₂ hrm' hX hstart
  obtain ⟨d, hred, r, hr, hrlt, hrmod⟩ := h.mreduce hmpn (.var a) (.var a) hv
    (Nat.lt_of_lt_of_le hvlt (Nat.le_mul_of_pos_right _ (by positivity)))
  have hrE : r ≡ G ^ (E % 2 ^ k) [MOD M] :=
    Nat.ModEq.cancel_right_of_coprime h.coprime (hrmod.trans hvmod)
  refine ⟨Function.update st₃ (.var a) d, ?_, fun u hu => ?_, ?_⟩
  · rw [Montgom.powm, hmul]
    simp only [Option.bind_eq_bind, Option.bind_some, hst₂, hbits, hloop, hred]
  · rw [Function.update_of_ne (hvar hu), hkeep₃ _ (hvar hu) (by simp),
      hkeep₂ _ (hvar hu) (by simp) (by simp)]
  · rw [Function.update_self, hr, ← hrE, Nat.mod_eq_of_lt hrlt]

theorem invert_modEq {a b : ℤ} (hgcd : Int.gcd a b = 1) : invert a b * a ≡ 1 [ZMOD b] := by
  have hbezout := Int.gcd_eq_gcd_ab a b
  rw [hgcd, Nat.cast_one] at hbezout
  rw [invert, if_pos hgcd]
  calc Int.gcdA a b % b * a ≡ Int.gcdA a b * a [ZMOD b] := (Int.mod_modEq _ _).mul_right a
    _ ≡ Int.gcdA a b * a + b * Int.gcdB a b [ZMOD b] :=
        (Int.modEq_iff_dvd.mpr (by rw [add_sub_cancel_left]; exact dvd_mul_right _ _))
    _ = 1 := by
        rw [hbezout]
        ring

theorem gcd_pow_two {M : ℕ} (hodd : M % 2 = 1) (k : ℕ) : Int.gcd (M : ℤ) (2 ^ k) = 1 := by
  have hcop := (Nat.coprime_two_right.mpr (Nat.odd_iff.mpr hodd)).pow_right k
  have hpow : (2 : ℤ) ^ k = (2 ^ k : ℕ) := by norm_cast
  rw [hpow, Int.gcd_natCast_natCast]
  exact hcop

theorem dvd_mi {M : ℕ} (hodd : M % 2 = 1) :
    2 ^ 64 ∣ M * (BitVec.ofNat 64 (getui (2 ^ 64 - invert M (2 ^ 64)))).toNat + 1 := by
  have hinv := invert_modEq (gcd_pow_two hodd 64)
  have hlt : invert (M : ℤ) (2 ^ 64) < 2 ^ 64 := by
    rw [invert, if_pos (gcd_pow_two hodd 64)]
    exact Int.emod_lt_of_pos _ (by decide)
  have hlimb : ((BitVec.ofNat 64 (getui (2 ^ 64 - invert M (2 ^ 64)))).toNat : ℤ) ≡
      2 ^ 64 - invert M (2 ^ 64) [ZMOD 2 ^ 64] := by
    rw [BitVec.toNat_ofNat, getui, Nat.mod_mod, Int.natCast_mod,
      Int.natAbs_of_nonneg (Int.sub_nonneg_of_le (Int.le_of_lt hlt))]
    exact Int.mod_modEq _ _
  have hzero : ((M * (BitVec.ofNat 64 (getui (2 ^ 64 - invert M (2 ^ 64)))).toNat + 1 : ℕ) : ℤ) ≡
      0 [ZMOD 2 ^ 64] := by
    rw [Nat.cast_add, Nat.cast_mul, Nat.cast_one]
    calc (M : ℤ) * (BitVec.ofNat 64 (getui (2 ^ 64 - invert M (2 ^ 64)))).toNat + 1
        ≡ M * (2 ^ 64 - invert M (2 ^ 64)) + invert M (2 ^ 64) * M [ZMOD 2 ^ 64] :=
          (hlimb.mul_left _).add hinv.symm
      _ = 2 ^ 64 * M := by ring
      _ ≡ 0 [ZMOD 2 ^ 64] := Int.modEq_zero_iff_dvd.mpr (dvd_mul_right _ _)
  exact_mod_cast Int.modEq_zero_iff_dvd.mp hzero

/-- The numbers that `set` computes. -/
structure IsSet (t : Montgom) (M : ℕ) (rm r2 : MpInt) : Prop extends Ready t M where
  rm_eq : rm.toInt = ((2 ^ 64) ^ t.n % M : ℕ)
  r2_eq : r2.toInt = ((2 ^ 64) ^ t.n * (2 ^ 64) ^ t.n % M : ℕ)
  ri_mul : t.ri * ((2 ^ 64) ^ t.n : ℕ) ≡ 1 [ZMOD M]

theorem set_eq {m : MpInt} (hpos : 0 < m.toInt) (hodd : m.toInt % 2 = 1)
    (hn : m.mpD.length < 2 ^ 24) (st : Store ι) :
    ∃ t rm r2, set m st = some (t, Function.update (Function.update st .rm rm) .r2 r2) ∧
      IsSet t m.toInt.toNat rm r2 ∧ t.n = m.mpD.length := by
  obtain ⟨M, hM⟩ : ∃ M : ℕ, m.toInt = M := ⟨m.toInt.toNat, (Int.toNat_of_nonneg hpos.le).symm⟩
  obtain ⟨hneg, hval⟩ := MpInt.of_natCast hM
  rw [hM] at hpos hodd
  have hoddM : M % 2 = 1 := by exact_mod_cast hodd
  have hbit : m.getbit 0 = true := by
    rw [MpInt.getbit_eq hneg, hval, Nat.testBit_zero, hoddM]
    rfl
  have hR : (2 : ℤ) ^ (m.mpD.length * 64) = ((2 ^ 64) ^ m.mpD.length : ℕ) := by
    rw [Nat.mul_comm, pow_mul]
    norm_cast
  have hR2 : (2 : ℤ) ^ (m.mpD.length * 2 * 64) =
      ((2 ^ 64) ^ m.mpD.length * (2 ^ 64) ^ m.mpD.length : ℕ) := by
    have hexp : m.mpD.length * 2 * 64 = m.mpD.length * 64 + m.mpD.length * 64 := by omega
    rw [hexp, pow_add, hR, Nat.cast_mul]
  have hgcd : Int.gcd ((2 : ℤ) ^ (m.mpD.length * 64) % M) M = 1 := by
    rw [Int.gcd_emod, Int.gcd_comm]
    exact gcd_pow_two hoddM _
  refine ⟨_, _, _, (if_pos ⟨by rw [hM]; exact hpos, hbit⟩).trans (if_pos (by omega)), ?_, rfl⟩
  rw [hM, Int.toNat_natCast]
  exact {
    m := hval
    neg := hneg
    odd := hoddM
    n := rfl
    mi := dvd_mi hoddM
    mr := by
      simp only [hR]
      push_cast
      rfl
    rm_eq := by
      simp only [MpInt.toInt_ofInt, hR]
      rfl
    r2_eq := by
      simp only [MpInt.toInt_ofInt, hR2]
      rfl
    ri_mul := by
      have hinv := invert_modEq hgcd
      simp only [← hR]
      exact ((Int.mod_modEq _ _).symm.mul_left _).trans hinv }

theorem set_eq_none {m : MpInt} (hn : 2 ^ 24 ≤ m.mpD.length) (st : Store ι) : set m st = none := by
  unfold set
  split
  · exact if_neg (by omega)
  · rfl

/-- `mreduce`, `mmul` and `powm` for the modulus `M`, with `st` as the state before. The base of a
power has to pass the assertion of `mpz_mmul`, and the exponent must have the same power as the
bits of it that are counted by an `int`. -/
structure Answers (mpn : Mpn) (t : Montgom) (M : ℤ) (st : Store ι) : Prop where
  mreduce : ∀ a x : ι, 0 ≤ (st (.var x)).toInt →
    (st (.var x)).toInt < M * 2 ^ (64 * t.n) →
    ∃ st', t.mreduce mpn (.var a) (.var x) st = some st' ∧
      (∀ v, v ≠ a → st' (.var v) = st (.var v)) ∧
      (st' (.var a)).toInt = (st (.var x)).toInt * t.ri % M
  mmul : ∀ a x y : ι, 0 ≤ (st (.var x)).toInt → (st (.var x)).mpD.length ≤ t.n →
    0 ≤ (st (.var y)).toInt → (st (.var y)).mpD.length ≤ t.n →
    (st (.var x)).toInt < M ∨ (st (.var y)).toInt < M →
    ∃ st', t.mmul mpn (.var a) (.var x) (.var y) st = some st' ∧
      (∀ v, v ≠ a → st' (.var v) = st (.var v)) ∧
      (st' (.var a)).toInt = (st (.var x)).toInt * (st (.var y)).toInt * t.ri % M
  powm : ∀ a g e : ι, e ≠ a → 0 ≤ (st (.var e)).toInt →
    ((∃ st', t.powm mpn (.var a) (.var g) (.var e) st = some st' ∧
      (∀ v, v ≠ a → st' (.var v) = st (.var v)) ∧
      (st' (.var a)).toInt = (st (.var g)).toInt ^ (st (.var e)).toInt.toNat % M) ↔
    0 ≤ (st (.var g)).toInt ∧ (st (.var g)).mpD.length ≤ t.n ∧
      ((st (.var e)).sizeinbase2 < 2 ^ 31 ∨
        (st (.var g)).toInt ^ ((st (.var e)).toInt.toNat % 2 ^ (st (.var e)).intBits) ≡
          (st (.var g)).toInt ^ (st (.var e)).toInt.toNat [ZMOD M]))

theorem eq_mul_emod {r T R : ℕ} {ri : ℤ} (hr : r < M) (h : r * R ≡ T [MOD M])
    (hri : ri * R ≡ 1 [ZMOD M]) : (r : ℤ) = T * ri % M := by
  have hmod : (r : ℤ) ≡ T * ri [ZMOD M] := by
    calc (r : ℤ) = r * 1 := (mul_one _).symm
      _ ≡ r * (ri * R) [ZMOD M] := (hri.symm).mul_left _
      _ = ((r * R : ℕ) : ℤ) * ri := by
          push_cast
          ring
      _ ≡ T * ri [ZMOD M] := ((Int.natCast_modEq_iff.mpr h).mul_right _)
  rw [← hmod]
  exact (Int.emod_eq_of_lt (Int.natCast_nonneg r) (by exact_mod_cast hr)).symm

theorem exists_natCast (h : 0 ≤ mp.toInt) (n : ℕ) (hlen : mp.mpD.length ≤ n) :
    ∃ v : ℕ, mp.toInt = v ∧ v < (2 ^ 64) ^ n := by
  obtain ⟨v, hv⟩ : ∃ v : ℕ, mp.toInt = v := ⟨mp.toInt.toNat, (Int.toNat_of_nonneg h).symm⟩
  refine ⟨v, hv, ?_⟩
  rw [← (MpInt.of_natCast hv).2]
  exact Nat.lt_of_lt_of_le (Words.val_lt _) (Nat.pow_le_pow_right (by decide) hlen)

theorem IsSet.answers {rm r2 : MpInt} (h : IsSet t M rm r2) (hmpn : mpn.Lawful)
    (hrm : st .rm = rm) (hr2 : st .r2 = r2) : Answers mpn t M st := by
  have hready := h.toReady
  have hM : 0 < M := by
    have hodd := h.odd
    omega
  have hvar : ∀ {v a : ι}, v ≠ a → Place.var v ≠ .var a := fun hv heq => hv (Place.var.inj heq)
  have hR : (2 : ℤ) ^ (64 * t.n) = ((2 ^ 64) ^ t.n : ℕ) := by
    rw [pow_mul]
    norm_cast
  refine ⟨?_, ?_, ?_⟩
  · intro a x hx hlt
    obtain ⟨T, hT⟩ : ∃ T : ℕ, (st (.var x)).toInt = T :=
      ⟨(st (.var x)).toInt.toNat, (Int.toNat_of_nonneg hx).symm⟩
    rw [hT, hR] at hlt
    obtain ⟨d, hred, r, hr, hrlt, hrmod⟩ := hready.mreduce hmpn (.var a) (.var x) hT
      (by exact_mod_cast hlt)
    refine ⟨_, hred, fun v hv => Function.update_of_ne (hvar hv) .., ?_⟩
    rw [Function.update_self, hr, hT]
    exact eq_mul_emod hrlt hrmod h.ri_mul
  · intro a x y hx hxn hy hyn hor
    obtain ⟨X, hX, hXlt⟩ := exists_natCast hx t.n hxn
    obtain ⟨Y, hY, hYlt⟩ := exists_natCast hy t.n hyn
    have hXY : Y * X < M * (2 ^ 64) ^ t.n := by
      rcases hor with hlt | hlt
      · rw [hX] at hlt
        rw [Nat.mul_comm]
        exact Nat.mul_lt_mul'' (by exact_mod_cast hlt) hYlt
      · rw [hY] at hlt
        exact Nat.mul_lt_mul'' (by exact_mod_cast hlt) hXlt
    obtain ⟨st', hmul, hkeep, r, hr, hrlt, hrmod⟩ := hready.mmul hmpn (a := .var a) (by simp) hX hY
      hXlt hYlt hXY
    refine ⟨st', hmul, fun v hv => hkeep _ (hvar hv) (by simp), ?_⟩
    rw [hr, hX, hY, ← Nat.cast_mul]
    exact eq_mul_emod hrlt hrmod h.ri_mul
  · intro a g e hne he
    obtain ⟨E, hE⟩ : ∃ E : ℕ, (st (.var e)).toInt = E :=
      ⟨(st (.var e)).toInt.toNat, (Int.toNat_of_nonneg he).symm⟩
    have hpowm : 0 ≤ (st (.var g)).toInt → (st (.var g)).mpD.length ≤ t.n →
        ∃ st', t.powm mpn (.var a) (.var g) (.var e) st = some st' ∧
          (∀ v, v ≠ a → st' (.var v) = st (.var v)) ∧
          (st' (.var a)).toInt =
            (st (.var g)).toInt ^ (E % 2 ^ (st (.var e)).intBits) % M := by
      intro hg hgn
      obtain ⟨G, hG, hGlt⟩ := exists_natCast hg t.n hgn
      obtain ⟨st', hpow, hkeep, hval⟩ := hready.powm hmpn hne hG hGlt hE
        ((congrArg MpInt.toInt hrm).trans h.rm_eq) (Nat.mod_lt _ hM) (Nat.mod_modEq _ _)
        ((congrArg MpInt.toInt hr2).trans h.r2_eq) (Nat.mod_lt _ hM) (Nat.mod_modEq _ _)
      refine ⟨st', hpow, hkeep, ?_⟩
      rw [hval, hG]
      push_cast
      rfl
    rw [hE, Int.toNat_natCast]
    constructor
    · rintro ⟨st', hpow, -, hval⟩
      have hbase : (st (.var g)).neg = false ∧ (st (.var g)).mpD.length ≤ t.n := by
        by_contra hnot
        rw [powm_eq_none hnot] at hpow
        cases hpow
      have hg : 0 ≤ (st (.var g)).toInt := by
        rw [MpInt.toInt_of_neg_eq_false hbase.1]
        exact Int.natCast_nonneg _
      obtain ⟨st'', hpow', -, hval'⟩ := hpowm hg hbase.2
      cases hpow.symm.trans hpow'
      exact ⟨hg, hbase.2, .inr (hval'.symm.trans hval)⟩
    · rintro ⟨hg, hgn, hbits⟩
      obtain ⟨st', hpow, hkeep, hval⟩ := hpowm hg hgn
      refine ⟨st', hpow, hkeep, hval.trans ?_⟩
      rcases hbits with hbits | hmod
      · rw [MpInt.intBits_eq hbits, MpInt.sizeinbase2_eq, MpInt.mag, (MpInt.of_natCast hE).2,
          Nat.mod_eq_of_lt (Nat.lt_size_self E)]
      · exact hmod

/-- `set` with an odd modulus that has fewer than `2 ^ 24` limbs, in any state that leaves `rm` and
`r2` as they are. -/
theorem set_answers (hmpn : mpn.Lawful) {m : MpInt} (hpos : 0 < m.toInt)
    (hodd : m.toInt % 2 = 1) (st₀ : Store ι) :
    (∃ t st₁, set m st₀ = some (t, st₁) ∧ t.n = m.mpD.length ∧
      t.ri * 2 ^ (64 * t.n) ≡ 1 [ZMOD m.toInt] ∧
      ∀ st : Store ι, st .rm = st₁ .rm → st .r2 = st₁ .r2 → Answers mpn t m.toInt st) ↔
    m.mpD.length < 2 ^ 24 := by
  constructor
  · rintro ⟨t, st₁, hset, -⟩
    by_contra hn
    rw [set_eq_none (Nat.le_of_not_lt hn)] at hset
    cases hset
  · intro hlen
    obtain ⟨t, rm, r2, hset, hcorrect, hn⟩ := set_eq hpos hodd hlen st₀
    have hM : ((m.toInt.toNat : ℕ) : ℤ) = m.toInt := Int.toNat_of_nonneg hpos.le
    have hri := hcorrect.ri_mul
    rw [hM] at hri
    refine ⟨t, _, hset, hn, ?_, fun st hrm hr2 => ?_⟩
    · rw [pow_mul]
      exact_mod_cast hri
    · rw [Function.update_of_ne (by simp), Function.update_self] at hrm
      rw [Function.update_self] at hr2
      rw [← hM]
      exact hcorrect.answers hmpn hrm hr2

/-- A base of two limbs, and the exponent 1. -/
def wide : Store Bool := fun p =>
  MpInt.ofInt (if p = .var false then 2 ^ 64 else if p = .var true then 1 else 0)

theorem set_answers_three :
    ∃ t st₁, set (MpInt.ofInt 3) wide = some (t, st₁) ∧ t.n = (MpInt.ofInt 3).mpD.length ∧
      t.ri * 2 ^ (64 * t.n) ≡ 1 [ZMOD (MpInt.ofInt 3).toInt] ∧
      ∀ st : Store Bool, st .rm = st₁ .rm → st .r2 = st₁ .r2 →
        Answers Mpn.byValue t (MpInt.ofInt 3).toInt st :=
  (set_answers Mpn.byValue_lawful (by decide +kernel) (by decide +kernel) wide).mpr
    (by decide +kernel)

/-- An odd number of `2 ^ 24` limbs. -/
def longModulus : MpInt where
  neg := false
  mpD := List.replicate (2 ^ 24) 1#64
  top := by
    rw [List.getLast?_replicate, if_neg (by decide)]
    decide
  sign _ := rfl

theorem toInt_longModulus : 0 < longModulus.toInt ∧ longModulus.toInt % 2 = 1 := by
  obtain ⟨k, hk⟩ : ∃ k, 2 ^ 24 = k + 1 := ⟨2 ^ 24 - 1, by norm_num⟩
  have hval : longModulus.toInt =
      ((1 + 2 ^ 64 * Words.val (List.replicate k 1#64) : ℕ) : ℤ) := by
    have hd : longModulus.mpD = 1#64 :: List.replicate k 1#64 := by
      rw [← List.replicate_succ, ← hk]
      rfl
    rw [MpInt.toInt_of_neg_eq_false rfl, hd, Words.val_cons]
    rfl
  omega

/-- There is no answer for `longModulus`. -/
theorem set_longModulus : ¬ ∀ (m : MpInt) (st₀ : Store Bool), 0 < m.toInt → m.toInt % 2 = 1 →
    ∃ t st₁ st', set m st₀ = some (t, st₁) ∧
      t.powm Mpn.byValue (.var false) (.var false) (.var true) st₁ = some st' ∧
      (st' (.var false)).toInt =
        (st₁ (.var false)).toInt ^ (st₁ (.var true)).toInt.toNat % m.toInt := by
  intro h
  obtain ⟨hpos, hodd⟩ := toInt_longModulus
  obtain ⟨t, st₁, st', hset, -⟩ := h longModulus (fun _ => MpInt.ofInt 1) hpos hodd
  rw [set_eq_none (List.length_replicate ..).ge] at hset
  cases hset

end Montgom

end Sfslite.Crypt
