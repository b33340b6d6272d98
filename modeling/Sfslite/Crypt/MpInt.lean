import Sfslite.Async.Msb
import Sfslite.Lib.Words
import Mathlib.Data.List.ModifyLast

/-!
Big integers as GMP keeps them: a sign and limbs of 64 bits, the least significant limb first
(`GMP_LIMB_SIZE` is 8), with the routines of `mpz_misc.C` that work on the limbs.
-/

namespace Sfslite.Crypt

open Sfslite.Async
open Sfslite.Lib

abbrev Limb := BitVec 64

/-- An `MP_INT` that passes `_mpz_assert`: its limbs are the `ABS (_mp_size)` ones in use, and
`neg` is the sign of `_mp_size`. -/
@[ext] structure MpInt where
  neg : Bool
  mpD : List Limb
  top : mpD.getLast? ≠ some 0#64
  sign : mpD = [] → neg = false

namespace MpInt

def mag (mp : MpInt) : ℕ := Words.val mp.mpD

def toInt (mp : MpInt) : ℤ := if mp.neg then -(mp.mag : ℤ) else mp.mag

/-- `_mpz_fixsize`, and the loops at the end of other routines that do the same. -/
def fixsize (neg : Bool) (d : List Limb) : MpInt where
  neg := neg && !(d.rdropWhile (· == 0#64)).isEmpty
  mpD := d.rdropWhile (· == 0#64)
  top := Words.getLast?_rdropWhile d
  sign := by
    intro h
    simp [h]

/-- `mp->_mp_size = - mp->_mp_size`. -/
def negSize (mp : MpInt) : MpInt := fixsize (!mp.neg) mp.mpD

def ofInt (z : ℤ) : MpInt := fixsize (z < 0) (Words.ofNat (z.natAbs.size / 64 + 1) z.natAbs)

/-- The loop of `mpz_sizeinbase2`, from the highest limb down. -/
def sizeinbase2Loop : List Limb → ℕ
  | [] => 0
  | v :: below => if v ≠ 0 then 64 * below.length + fls64 v else sizeinbase2Loop below

def sizeinbase2 (mp : MpInt) : ℕ := sizeinbase2Loop mp.mpD.reverse

/-- GMP's `mpz_tdiv_r_2exp`: the remainder has the sign of the number. -/
def tdivR2exp (a : MpInt) (b : ℕ) : MpInt := ofInt (a.toInt.tmod (2 ^ b))

/-- The two loops of `mpz_umod_2exp`: `-*ap++` up to the first limb that is not zero, `~*ap++`
behind it; `none` where all limbs are zero. -/
def negLimbs : List Limb → Option (List Limb)
  | [] => none
  | v :: vs =>
    if -v ≠ 0 then some (-v :: vs.map (~~~·))
    else (negLimbs vs).map (-v :: ·)

def umod2exp (a : MpInt) (b : ℕ) : MpInt :=
  if a.neg = false then a.tdivR2exp b
  else
    let nlimbs := (b + 63) / 64
    match negLimbs (a.mpD.take nlimbs) with
    | none => fixsize false []
    | some d =>
      let d := d ++ List.replicate (nlimbs - d.length) (~~~0#64)
      fixsize false (d.modifyLast (· &&& (~~~0#64 >>> ((64 - b % 64) % 64))))

/-- How often a loop goes round that counts an `int` down from this size: never where the size is
negative as an `int`. -/
def intSteps (size : ℕ) : ℕ := (BitVec.ofNat 32 size).toInt.toNat

variable {mp : MpInt} {d : List Limb}

theorem intSteps_eq {size : ℕ} (h : size < 2 ^ 31) : intSteps size = size := by
  have hnat : (BitVec.ofNat 32 size).toNat = size := by
    rw [BitVec.toNat_ofNat, Nat.mod_eq_of_lt (by omega)]
  rw [intSteps, BitVec.toInt_eq_toNat_cond, hnat, if_pos (by omega), Int.toNat_natCast]

theorem mag_fixsize (neg : Bool) (d : List Limb) : (fixsize neg d).mag = Words.val d :=
  Words.val_rdropWhile d

theorem toInt_fixsize (neg : Bool) (d : List Limb) :
    (fixsize neg d).toInt = if neg then -(Words.val d : ℤ) else Words.val d := by
  unfold toInt
  rw [mag_fixsize]
  cases neg with
  | false => rfl
  | true =>
    by_cases hnil : d.rdropWhile (· == 0#64) = []
    · have hzero : Words.val d = 0 := by rw [← Words.val_rdropWhile d, hnil, Words.val_nil]
      simp [hzero]
    · have hneg : (fixsize true d).neg = true := by
        simp only [fixsize, Bool.true_and, Bool.not_eq_true', List.isEmpty_eq_false_iff]
        exact hnil
      rw [hneg]

theorem toInt_negSize (mp : MpInt) : mp.negSize.toInt = -mp.toInt := by
  rw [negSize, toInt_fixsize]
  unfold toInt mag
  cases mp.neg <;> simp

theorem toInt_ofInt (z : ℤ) : (ofInt z).toInt = z := by
  have hlt : z.natAbs < (2 ^ 64) ^ (z.natAbs.size / 64 + 1) := by
    rw [← pow_mul]
    apply Nat.lt_of_lt_of_le (Nat.lt_size_self _)
    exact Nat.pow_le_pow_right (by decide) (by omega)
  rw [ofInt, toInt_fixsize, Words.val_ofNat, Nat.mod_eq_of_lt hlt]
  simp only [decide_eq_true_eq]
  split <;> omega

theorem toInt_inj {mp mp' : MpInt} (h : mp.toInt = mp'.toInt) : mp = mp' := by
  have hmag : mp.mag = mp'.mag := by
    unfold toInt at h
    split at h <;> split at h <;> omega
  have hd : mp.mpD = mp'.mpD := Words.val_inj_of_top mp.top mp'.top hmag
  have hzero : ∀ m : MpInt, m.mag = 0 → m.neg = false := by
    intro m hm
    apply m.sign
    apply Words.val_inj_of_top m.top (by simp)
    exact hm
  ext1
  · by_cases hm : mp.mag = 0
    · rw [hzero mp hm, hzero mp' (hmag ▸ hm)]
    · unfold toInt at h
      cases hneg : mp.neg <;> cases hneg' : mp'.neg <;> simp [hneg, hneg'] at h ⊢ <;> omega
  · exact hd

theorem sizeinbase2Loop_eq (d : List Limb) : sizeinbase2Loop d.reverse = (Words.val d).size := by
  induction d using List.reverseRecOn with
  | nil => rfl
  | append_singleton d v ih =>
    have hval : Words.val (d ++ [v]) = Words.val d + (2 ^ 64) ^ d.length * v.toNat := by
      rw [Words.val_append, Words.val_cons, Words.val_nil, Nat.mul_zero, Nat.add_zero]
    rw [List.reverse_append, List.reverse_singleton, List.singleton_append, sizeinbase2Loop]
    split
    · rename_i hv
      have hpos : v.toNat ≠ 0 := fun h => hv (BitVec.eq_of_toNat_eq h)
      have hlt := Words.val_lt d
      have hdiv : Words.val (d ++ [v]) / 2 ^ (64 * d.length) = v.toNat := by
        rw [hval, pow_mul, Nat.add_mul_div_left _ _ (by positivity), Nat.div_eq_of_lt hlt,
          Nat.zero_add]
      have hne : Words.val (d ++ [v]) / 2 ^ (64 * d.length) ≠ 0 := by rwa [hdiv]
      rw [fls64_eq_size, List.length_reverse, size_shift hne, hdiv]
    · rename_i hv
      have hzero : v = 0 := by
        by_contra hne
        exact hv hne
      have hnat : v.toNat = 0 := by rw [hzero]; rfl
      rw [ih, hval, hnat, Nat.mul_zero, Nat.add_zero]

theorem sizeinbase2_eq (mp : MpInt) : mp.sizeinbase2 = mp.mag.size := sizeinbase2Loop_eq mp.mpD

theorem toNat_neg_limb {v : Limb} (hv : v ≠ 0) : (-v).toNat = 2 ^ 64 - v.toNat := by
  have hpos : v.toNat ≠ 0 := fun h => hv (BitVec.eq_of_toNat_eq h)
  have hlt : v.toNat < 2 ^ 64 := v.isLt
  rw [BitVec.toNat_neg, Nat.mod_eq_of_lt (by omega)]

theorem negLimbs_spec (d : List Limb) :
    (negLimbs d = none ∧ Words.val d = 0) ∨
      ∃ r, negLimbs d = some r ∧ r.length = d.length ∧
        Words.val d + Words.val r = (2 ^ 64) ^ d.length := by
  induction d with
  | nil => exact Or.inl ⟨rfl, rfl⟩
  | cons v vs ih =>
    by_cases hv : v = 0
    · subst hv
      have hneg : negLimbs (0 :: vs) = (negLimbs vs).map ((0 : Limb) :: ·) := rfl
      have hval : Words.val ((0 : Limb) :: vs) = 2 ^ 64 * Words.val vs := by
        rw [Words.val_cons]
        exact Nat.zero_add _
      rcases ih with ⟨hnone, hzero⟩ | ⟨r, hsome, hlen, hsum⟩
      · left
        rw [hneg, hnone, hval, hzero]
        exact ⟨rfl, rfl⟩
      · right
        refine ⟨0 :: r, by rw [hneg, hsome]; rfl, by simp [hlen], ?_⟩
        have hval' : Words.val ((0 : Limb) :: r) = 2 ^ 64 * Words.val r := by
          rw [Words.val_cons]
          exact Nat.zero_add _
        rw [hval, hval', ← Nat.mul_add, hsum, List.length_cons, pow_succ' (2 ^ 64)]
    · right
      have hne : -v ≠ 0 := by
        intro h
        exact hv (by simpa using h)
      refine ⟨-v :: vs.map (~~~·), by rw [negLimbs, if_pos hne], by simp, ?_⟩
      have hnot : Words.val vs + Words.val (vs.map (~~~·)) + 1 = (2 ^ 64) ^ vs.length :=
        Words.val_map_not vs
      have hneg := toNat_neg_limb hv
      have hlt : v.toNat < 2 ^ 64 := v.isLt
      have hword : ∀ u x y : ℕ, u < 2 ^ 64 →
          u + 2 ^ 64 * x + (2 ^ 64 - u + 2 ^ 64 * y) = 2 ^ 64 * (x + y + 1) := by omega
      rw [Words.val_cons, Words.val_cons, List.length_cons, pow_succ' (2 ^ 64), ← hnot, hneg]
      exact hword _ _ _ hlt

theorem toNat_mask {s : ℕ} (hs : s < 64) : (~~~0#64 >>> s).toNat = 2 ^ (64 - s) - 1 := by
  have hpow : 2 ^ 64 = 2 ^ s * 2 ^ (64 - s) := by rw [← pow_add, Nat.add_sub_cancel' (by omega)]
  have hones : (~~~0#64).toNat = 2 ^ 64 - 1 := rfl
  rw [BitVec.toNat_ushiftRight, Nat.shiftRight_eq_div_pow, hones, hpow]
  have hpos := Nat.two_pow_pos s
  have hpos' := Nat.two_pow_pos (64 - s)
  generalize 2 ^ s = j at hpos
  generalize 2 ^ (64 - s) = k at hpos'
  obtain ⟨k, rfl⟩ : ∃ i, k = i + 1 := ⟨k - 1, by omega⟩
  have hsub : j * (k + 1) - 1 = j - 1 + j * k := by
    rw [Nat.mul_succ]
    omega
  rw [hsub, Nat.add_mul_div_left _ _ hpos, Nat.div_eq_of_lt (by omega)]
  omega

theorem val_mask {d : List Limb} {b : ℕ} (hb : 0 < b) (hlen : d.length = (b + 63) / 64) :
    Words.val (d.modifyLast (· &&& (~~~0#64 >>> ((64 - b % 64) % 64)))) = Words.val d % 2 ^ b := by
  obtain ⟨init, t, rfl⟩ : ∃ init t, d = init ++ [t] := by
    refine ⟨d.dropLast, d.getLast (fun h => ?_), (List.dropLast_append_getLast _).symm⟩
    rw [h, List.length_nil] at hlen
    omega
  rw [List.length_append, List.length_singleton] at hlen
  have hmask := toNat_mask (Nat.mod_lt (64 - b % 64) (by decide : 0 < 64))
  have hpow : 2 ^ b = (2 ^ 64) ^ init.length * 2 ^ (64 - (64 - b % 64) % 64) := by
    rw [← pow_mul, ← pow_add]
    congr 1
    omega
  have hlt := Words.val_lt init
  rw [List.modifyLast_concat, Words.val_append, Words.val_append, Words.val_cons, Words.val_cons,
    Words.val_nil, BitVec.toNat_and, hmask, Nat.and_two_pow_sub_one_eq_mod, hpow, Nat.mod_mul,
    Nat.add_mul_mod_self_left, Nat.mod_eq_of_lt hlt, Nat.add_mul_div_left _ _ (by positivity),
    Nat.div_eq_of_lt hlt, Nat.mul_zero, Nat.add_zero, Nat.add_zero, Nat.zero_add]

theorem toInt_umod2exp {a : MpInt} (hneg : a.neg = true) (b : ℕ) :
    (a.umod2exp b).toInt = a.toInt % 2 ^ b := by
  generalize hn : (b + 63) / 64 = n
  have hval : a.toInt = -(a.mag : ℤ) := by rw [toInt, if_pos hneg]
  have hdvd : 2 ^ b ∣ (2 ^ 64) ^ n := by
    rw [← pow_mul]
    exact pow_dvd_pow 2 (by omega)
  have hlow : Words.val (a.mpD.take n) = a.mag % (2 ^ 64) ^ n := Words.val_take _ _
  have hmod : a.mag % (2 ^ 64) ^ n % 2 ^ b = a.mag % 2 ^ b := Nat.mod_mod_of_dvd _ hdvd
  have hnot : ¬ a.neg = false := by simp [hneg]
  rw [umod2exp, if_neg hnot, hval]
  simp only [hn]
  rcases negLimbs_spec (a.mpD.take n) with ⟨hnone, hzero⟩ | ⟨r, hsome, hlen, hsum⟩
  · rw [hnone, toInt_fixsize]
    have hmag : a.mag % 2 ^ b = 0 := by rw [← hmod, ← hlow, hzero, Nat.zero_mod]
    have hdiv : (2 ^ b : ℤ) ∣ -(a.mag : ℤ) :=
      (Int.natCast_dvd_natCast.mpr (Nat.dvd_of_mod_eq_zero hmag)).neg_right
    rw [Int.emod_eq_zero_of_dvd hdiv]
    rfl
  · obtain ⟨k, hk⟩ : ∃ k, k = n - (a.mpD.take n).length := ⟨_, rfl⟩
    have hle : (a.mpD.take n).length ≤ n := List.length_take_le _ _
    have hfill : Words.val (a.mpD.take n) + Words.val (r ++ List.replicate k (~~~0#64)) =
        (2 ^ 64) ^ n := by
      have hones := Words.val_map_not (List.replicate k 0#64)
      rw [List.map_replicate, Words.val_replicate_zero, List.length_replicate,
        Nat.zero_add] at hones
      have hn' : n = (a.mpD.take n).length + k := by omega
      rw [Words.val_append, hlen, ← Nat.add_assoc, hsum, Nat.add_comm, ← Nat.mul_succ,
        Nat.succ_eq_add_one, hones, ← pow_add, ← hn']
    have hb : 0 < b := by
      by_contra hzero
      have hn0 : n = 0 := by omega
      rw [hn0, List.take_zero] at hsome
      exact absurd hsome nofun
    have hlen' : (r ++ List.replicate k (~~~0#64)).length = (b + 63) / 64 := by
      rw [List.length_append, List.length_replicate]
      omega
    rw [hsome]
    simp only [hlen, ← hk, toInt_fixsize, Bool.false_eq_true, if_false, val_mask hb hlen']
    have hboth : 2 ^ b ∣ a.mag + Words.val (r ++ List.replicate k (~~~0#64)) := by
      apply Nat.dvd_trans hdvd
      rw [← Nat.div_add_mod a.mag ((2 ^ 64) ^ n), Nat.add_assoc, ← hlow, hfill]
      exact Nat.dvd_add (Nat.dvd_mul_right _ _) (Nat.dvd_refl _)
    have hsub : (2 ^ b : ℤ) ∣ (Words.val (r ++ List.replicate k (~~~0#64)) : ℤ) - -(a.mag : ℤ) := by
      rw [sub_neg_eq_add, add_comm]
      exact_mod_cast hboth
    push_cast
    exact Int.emod_eq_emod_iff_emod_sub_eq_zero.mpr (Int.emod_eq_zero_of_dvd hsub)

theorem umod2exp_spec (a : MpInt) (b : ℕ) : (a.umod2exp b).toInt = a.toInt % 2 ^ b := by
  cases hneg : a.neg with
  | true => exact toInt_umod2exp hneg b
  | false =>
    have hnonneg : 0 ≤ a.toInt := by
      unfold toInt
      simp [hneg]
    rw [umod2exp, if_pos hneg, tdivR2exp, toInt_ofInt, Int.tmod_eq_emod_of_nonneg hnonneg]

end MpInt

end Sfslite.Crypt
