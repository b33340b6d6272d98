import Sfslite.Crypt.Rabin

/-!
Decryption undoes encryption, and verification undoes signing with any of the four roots.
What the private operation computes is described modulo each of the two primes.
-/

namespace Sfslite.Crypt

section

variable {m : ℕ} {a b n : ℤ}

theorem cast_tmod (hn : (n : ZMod m) = 0) (a : ℤ) : ((a.tmod n : ℤ) : ZMod m) = a := by
  have hsplit : n * a.tdiv n + a.tmod n = a := Int.mul_tdiv_add_tmod a n
  calc ((a.tmod n : ℤ) : ZMod m) = n * (a.tdiv n : ℤ) + (a.tmod n : ℤ) := by rw [hn]; ring
    _ = a := by exact_mod_cast congrArg (Int.cast : ℤ → ZMod m) hsplit

theorem cast_mod (hn : (n : ZMod m) = 0) (a : ℤ) : ((a % n : ℤ) : ZMod m) = a := by
  have hsplit : a % n + n * (a / n) = a := Int.emod_add_mul_ediv a n
  calc ((a % n : ℤ) : ZMod m) = (a % n : ℤ) + n * (a / n : ℤ) := by rw [hn]; ring
    _ = a := by exact_mod_cast congrArg (Int.cast : ℤ → ZMod m) hsplit

theorem cast_invert (hgcd : Int.gcd a b = 1) (hb : (b : ZMod m) = 0) :
    ((invert a b : ℤ) : ZMod m) * a = 1 := by
  have hbezout : (1 : ℤ) = a * Int.gcdA a b + b * Int.gcdB a b := by
    rw [← Int.gcd_eq_gcd_ab, hgcd]
    rfl
  rw [invert, if_pos hgcd, cast_mod hb]
  calc ((Int.gcdA a b : ℤ) : ZMod m) * a
      = a * (Int.gcdA a b : ℤ) + b * (Int.gcdB a b : ℤ) := by rw [hb]; ring
    _ = 1 := by exact_mod_cast (congrArg (Int.cast : ℤ → ZMod m) hbezout).symm

theorem gcd_tmod (a n : ℤ) : Int.gcd (a.tmod n) n = Int.gcd a n := by
  have hsplit : a.tmod n + n * a.tdiv n = a := Int.tmod_add_mul_tdiv a n
  calc Int.gcd (a.tmod n) n = Int.gcd (a.tmod n + n * a.tdiv n) n :=
        (Int.gcd_add_mul_left_left n (a.tmod n) (a.tdiv n)).symm
    _ = Int.gcd a n := by rw [hsplit]

theorem cast_ne_zero_of_gcd [Fact m.Prime] (hgcd : Int.gcd a b = 1) (hb : (b : ZMod m) = 0) :
    (a : ZMod m) ≠ 0 := by
  intro ha
  rw [ZMod.intCast_zmod_eq_zero_iff_dvd] at ha hb
  have hone : (m : ℤ) ∣ (Int.gcd a b : ℕ) := Int.dvd_coe_gcd ha hb
  rw [hgcd] at hone
  have hm : m ∣ 1 := by exact_mod_cast hone
  exact (Fact.out : m.Prime).one_lt.ne' (Nat.dvd_one.mp hm)

theorem blinded_mul {rand : ℤ} (inp : ℤ) (hn : (n : ZMod m) = 0) (hrand : Int.gcd rand n = 1) :
    (((invert ((rand * rand).tmod n * (rand * rand).tmod n) n * inp).tmod n : ℤ) : ZMod m) *
      (rand : ZMod m) ^ 4 = inp := by
  have hgcd : Int.gcd ((rand * rand).tmod n * (rand * rand).tmod n) n = 1 := by
    have hsquare : Int.gcd ((rand * rand).tmod n) n = 1 := by
      rw [gcd_tmod, Int.gcd_mul_right_left_of_gcd_eq_one hrand, hrand]
    rw [Int.gcd_mul_right_left_of_gcd_eq_one hsquare, hsquare]
  have hinv := cast_invert (m := m) hgcd hn
  rw [Int.cast_mul, cast_tmod hn, Int.cast_mul] at hinv
  rw [cast_tmod hn, Int.cast_mul]
  calc _ = (invert ((rand * rand).tmod n * (rand * rand).tmod n) n : ZMod m) *
        (rand * rand * (rand * rand)) * inp := by ring
    _ = inp := by rw [hinv, one_mul]

end

/-- What `init` leaves in a key of two primes. -/
structure RabinPriv.IsKey (priv : RabinPriv) : Prop where
  prime_p : priv.p.Prime
  prime_q : priv.q.Prime
  p_lt_q : priv.p < priv.q
  pair : WilliamsPair priv.p priv.q
  n_eq : priv.n = priv.p * priv.q
  u_eq : priv.u = invert priv.q priv.p % priv.p
  kp_eq : priv.kp = rootExponent priv.p priv.q % (priv.p - 1)
  kq_eq : priv.kq = rootExponent priv.p priv.q % (priv.q - 1)

theorem RabinPriv.init_isKey {n1 n2 : ℕ} (h1 : n1.Prime) (h2 : n2.Prime) (hlt : n1 < n2)
    (hpair : WilliamsPair n1 n2) :
    ∃ priv, RabinPriv.init n1 n2 = some priv ∧ priv.n = n1 * n2 ∧ priv.IsKey := by
  rw [RabinPriv.init, if_pos hlt]
  exact ⟨_, rfl, rfl, h1, h2, hlt, hpair, rfl, rfl, rfl, rfl⟩

theorem RabinPriv.make_isKey {probabPrime : ℕ → Bool} (hprobab : ∀ n, n.Prime → probabPrime n)
    {n1 n2 : ℕ} (h1 : n1.Prime) (h2 : n2.Prime) (hpair : WilliamsPair n1 n2) :
    ∃ priv, RabinPriv.make probabPrime n1 n2 = some priv ∧ priv.n = n1 * n2 ∧ priv.IsKey := by
  have hne : n1 ≠ n2 := by
    unfold WilliamsPair at hpair
    omega
  have haccept : ¬(n1 = n2 ∨ n1 ≤ 1 ∨ n2 ≤ 1 ∨ !probabPrime n1 ∨ !probabPrime n2) := by
    have hgt1 := h1.one_lt
    have hgt2 := h2.one_lt
    simp [hprobab, h1, h2]
    omega
  rw [RabinPriv.make, if_neg haccept]
  split
  · rename_i hlt
    exact RabinPriv.init_isKey h1 h2 hlt hpair
  · rw [Nat.mul_comm]
    exact RabinPriv.init_isKey h2 h1 (by omega) hpair.symm

namespace RabinPriv.IsKey

variable {priv : RabinPriv} (hkey : priv.IsKey) {rand inp : ℤ} {rsel : BitVec 32}
include hkey

theorem n_cast_p : ((priv.n : ℤ) : ZMod priv.p) = 0 := by
  rw [hkey.n_eq]
  simp

theorem n_cast_q : ((priv.n : ℤ) : ZMod priv.q) = 0 := by
  rw [hkey.n_eq]
  simp

theorem n_pos : 0 < priv.n := by
  rw [hkey.n_eq]
  exact Nat.mul_pos hkey.prime_p.pos hkey.prime_q.pos

theorem u_mul_q : (priv.u : ZMod priv.p) * (priv.q : ℤ) = 1 := by
  have hgcd : Int.gcd priv.q priv.p = 1 := by
    rw [Int.gcd_natCast_natCast]
    exact (Nat.coprime_primes hkey.prime_q hkey.prime_p).mpr hkey.p_lt_q.ne'
  rw [hkey.u_eq, ZMod.intCast_mod]
  exact cast_invert hgcd (by simp)

omit hkey in
theorem unblind {m k : ℕ} [Fact m.Prime] (hpair : WilliamsPair m k)
    (hm : ((priv.n : ℤ) : ZMod m) = 0) (hrand : Int.gcd rand priv.n = 1)
    (hinp : Int.gcd inp priv.n = 1) :
    ((powm ((invert ((rand * rand).tmod priv.n * (rand * rand).tmod priv.n) priv.n * inp).tmod
      priv.n) (rootExponent m k % (m - 1)) m : ℤ) : ZMod m) * ((rand * rand).tmod priv.n : ℤ) =
      (inp : ZMod m) ^ rootExponent m k := by
  have hblind := blinded_mul inp hm hrand
  have hx : (rand : ZMod m) ≠ 0 := cast_ne_zero_of_gcd hrand hm
  have hc : (inp : ZMod m) ≠ 0 := cast_ne_zero_of_gcd hinp hm
  generalize (invert ((rand * rand).tmod priv.n * (rand * rand).tmod priv.n) priv.n * inp).tmod
    priv.n = r at *
  have hr : (r : ZMod m) ≠ 0 := by
    rintro hr
    rw [hr, zero_mul] at hblind
    exact hc hblind.symm
  rw [powm, ZMod.intCast_mod, Int.cast_pow, cast_tmod hm, Int.cast_mul, ← sq]
  exact hpair.unblind hr hx hblind

theorem d2_cast_p (hrand : Int.gcd rand priv.n = 1) (hinp : Int.gcd inp priv.n = 1) :
    ((priv.d2 rand inp rsel : ℤ) : ZMod priv.p) =
      (if rsel &&& 1 ≠ 0 then -1 else 1) * (inp : ZMod priv.p) ^ rootExponent priv.p priv.q := by
  have hprime : Fact priv.p.Prime := ⟨hkey.prime_p⟩
  have hroot := unblind hkey.pair hkey.n_cast_p hrand hinp
  simp only [RabinPriv.d2, hkey.kp_eq]
  rw [cast_tmod hkey.n_cast_p, Int.cast_mul, Int.cast_add, Int.cast_mul, ZMod.intCast_mod,
    Int.cast_mul, mul_assoc _ (priv.u : ZMod priv.p), hkey.u_mul_q, mul_one, Int.cast_sub,
    sub_add_cancel, ← hroot]
  split <;> simp

theorem d2_cast_q (hrand : Int.gcd rand priv.n = 1) (hinp : Int.gcd inp priv.n = 1) :
    ((priv.d2 rand inp rsel : ℤ) : ZMod priv.q) =
      (if rsel &&& 2 ≠ 0 then -1 else 1) * (inp : ZMod priv.q) ^ rootExponent priv.p priv.q := by
  have hprime : Fact priv.q.Prime := ⟨hkey.prime_q⟩
  have hroot := unblind hkey.pair.symm hkey.n_cast_q hrand hinp
  rw [rootExponent_comm] at hroot
  simp only [RabinPriv.d2, hkey.kq_eq]
  rw [cast_tmod hkey.n_cast_q, Int.cast_mul, Int.cast_add, Int.cast_mul, Int.cast_natCast,
    ZMod.natCast_self, mul_zero, zero_add, ← hroot]
  split <;> simp

theorem d2_nonneg : 0 ≤ priv.d2 rand inp rsel := by
  have hp : (0 : ℤ) < priv.p := by exact_mod_cast hkey.prime_p.pos
  have hq : (0 : ℤ) < priv.q := by exact_mod_cast hkey.prime_q.pos
  have hri : 0 ≤ (rand * rand).tmod priv.n := Int.tmod_nonneg _ (mul_self_nonneg rand)
  have hoq : ∀ r, 0 ≤ (if rsel &&& 2 ≠ 0 then priv.q - powm r priv.kq priv.q
      else powm r priv.kq priv.q) := by
    intro r
    have hlow : 0 ≤ powm r priv.kq priv.q := Int.emod_nonneg _ hq.ne'
    have hhigh : powm r priv.kq priv.q < priv.q := Int.emod_lt_of_pos _ hq
    split <;> omega
  simp only [RabinPriv.d2]
  apply Int.tmod_nonneg
  apply mul_nonneg _ hri
  apply add_nonneg _ (hoq _)
  exact mul_nonneg (Int.emod_nonneg _ hp.ne') hq.le

theorem d2_lt : priv.d2 rand inp rsel < priv.n :=
  Int.tmod_lt_of_pos _ (by exact_mod_cast hkey.n_pos)

theorem eq_or_eq_sub {x y s : ℤ} (hs : s = 1 ∨ s = -1) (hx : 0 < x) (hxn : x < priv.n)
    (hy : 0 ≤ y) (hyn : y < priv.n) (hp : (y : ZMod priv.p) = s * x)
    (hq : (y : ZMod priv.q) = s * x) : y = x ∨ y = priv.n - x := by
  have hpdvd : (priv.p : ℤ) ∣ s * x - y := by
    rw [← ZMod.intCast_eq_intCast_iff_dvd_sub, hp, Int.cast_mul]
  have hqdvd : (priv.q : ℤ) ∣ s * x - y := by
    rw [← ZMod.intCast_eq_intCast_iff_dvd_sub, hq, Int.cast_mul]
  have hcoprime : IsCoprime (priv.p : ℤ) priv.q := by
    rw [Nat.isCoprime_iff_coprime]
    exact (Nat.coprime_primes hkey.prime_p hkey.prime_q).mpr hkey.p_lt_q.ne
  have hdvd : (priv.n : ℤ) ∣ s * x - y := by
    rw [hkey.n_eq, Nat.cast_mul]
    exact hcoprime.mul_dvd hpdvd hqdvd
  rcases hs with rfl | rfl
  · left
    have hzero := Int.eq_zero_of_abs_lt_dvd hdvd (by rw [abs_lt]; omega)
    omega
  · right
    obtain ⟨c, hc⟩ : (priv.n : ℤ) ∣ x + y := by
      rw [← Int.dvd_neg]
      convert hdvd using 1
      ring
    have hpos : 0 < c := by nlinarith
    have hlt : c < 2 := by nlinarith
    obtain rfl : c = 1 := by omega
    omega

end RabinPriv.IsKey

theorem RabinPub.e1_eq_some {pub : RabinPub} {p q : ℕ} (hpair : WilliamsPair p q)
    (hn : pub.n = p * q) {inp x : ℤ} (h : pub.e1 inp = some x) :
    x < pub.n ∧ jacobiSym x pub.n = 1 ∧ (x = 4 * (2 * inp + 1) ∨ x = 2 * (2 * inp + 1)) := by
  have htwo : jacobiSym 2 pub.n = -1 := by rw [hn, hpair.jacobiSym_two]
  simp only [RabinPub.e1] at h
  split at h
  · rename_i hone
    split at h
    · cases h
    · cases h
      refine ⟨by omega, ?_, Or.inl (by ring)⟩
      rw [jacobiSym.mul_left, jacobiSym.pow_left, hone, htwo]
      rfl
  split at h
  · rename_i hneg
    split at h
    · cases h
    · cases h
      refine ⟨by omega, ?_, Or.inr (by ring)⟩
      rw [jacobiSym.mul_left, jacobiSym.pow_left, hneg, htwo]
      rfl
  · cases h

theorem getui_and_three (a : ℤ) : getui a &&& 3 = a.natAbs % 4 := by
  have hmask : getui a &&& 3 = getui a % 4 := Nat.and_two_pow_sub_one_eq_mod (getui a) 2
  rw [hmask, getui]
  omega

theorem RabinPub.d1_spec {pub : RabinPub} (hmod : pub.n % 8 = 5) {msg x y : ℤ}
    (hx : x = 4 * (2 * msg + 1) ∨ x = 2 * (2 * msg + 1)) (hxn : x < pub.n)
    (hy : y = x ∨ y = pub.n - x) : pub.d1 y = msg := by
  have htdiv8 : (8 * msg).tdiv (2 ^ 3) = msg := Int.mul_tdiv_cancel_left msg (by decide)
  have htdiv4 : (4 * msg).tdiv (2 ^ 2) = msg := Int.mul_tdiv_cancel_left msg (by decide)
  rw [RabinPub.d1, getui_and_three]
  rcases hx with hx | hx <;> rcases hy with hy | hy
  · have hcase : y.natAbs % 4 = 0 := by omega
    have hval : y - 4 = 8 * msg := by omega
    simp only [hcase, hval, htdiv8]
  · have hcase : y.natAbs % 4 = 1 := by omega
    have hval : pub.n - y - 4 = 8 * msg := by omega
    simp only [hcase, hval, htdiv8]
  · have hcase : y.natAbs % 4 = 2 := by omega
    have hval : y - 2 = 4 * msg := by omega
    simp only [hcase, hval, htdiv4]
  · have hcase : y.natAbs % 4 = 3 := by omega
    have hval : pub.n - y - 2 = 4 * msg := by omega
    simp only [hcase, hval, htdiv4]

namespace RabinPriv.IsKey

variable {priv : RabinPriv} (hkey : priv.IsKey) {rand msg x : ℤ}
include hkey

omit hkey in
theorem e2_nonneg (inp : ℤ) : 0 ≤ priv.e2 inp := Int.tmod_nonneg _ (mul_self_nonneg inp)

theorem e2_lt (inp : ℤ) : priv.e2 inp < priv.n :=
  Int.tmod_lt_of_pos _ (by exact_mod_cast hkey.n_pos)

theorem e2_cast_p (inp : ℤ) : ((priv.e2 inp : ℤ) : ZMod priv.p) = (inp : ZMod priv.p) ^ 2 := by
  rw [RabinPub.e2, cast_tmod hkey.n_cast_p, Int.cast_mul, sq]

theorem e2_cast_q (inp : ℤ) : ((priv.e2 inp : ℤ) : ZMod priv.q) = (inp : ZMod priv.q) ^ 2 := by
  rw [RabinPub.e2, cast_tmod hkey.n_cast_q, Int.cast_mul, sq]

theorem gcd_of_jacobiSym (hx : jacobiSym x priv.n = 1) : Int.gcd x priv.n = 1 := by
  have hne : NeZero priv.n := ⟨hkey.n_pos.ne'⟩
  by_contra hgcd
  rw [jacobiSym.eq_zero_iff_not_coprime.mpr hgcd] at hx
  cases hx

theorem exists_sign (hx : jacobiSym x priv.n = 1) : ∃ s : ℤ, (s = 1 ∨ s = -1) ∧
    (x : ZMod priv.p) ^ (2 * rootExponent priv.p priv.q) = s * x ∧
    (x : ZMod priv.q) ^ (2 * rootExponent priv.p priv.q) = s * x := by
  have hp : Fact priv.p.Prime := ⟨hkey.prime_p⟩
  have hq : Fact priv.q.Prime := ⟨hkey.prime_q⟩
  have hgcd := hkey.gcd_of_jacobiSym hx
  have hxp : (x : ZMod priv.p) ≠ 0 := cast_ne_zero_of_gcd hgcd hkey.n_cast_p
  have hxq : (x : ZMod priv.q) ≠ 0 := cast_ne_zero_of_gcd hgcd hkey.n_cast_q
  rw [hkey.n_eq] at hx
  refine ⟨legendreSym priv.p x, legendreSym.eq_one_or_neg_one priv.p hxp,
    hkey.pair.pow_two_mul hxp, ?_⟩
  rw [rootExponent_comm, hkey.pair.symm.pow_two_mul hxq, legendreSym_eq_of_jacobiSym hx]

theorem d2_e2 (hrand : Int.gcd rand priv.n = 1) (hx : jacobiSym x priv.n = 1) (hpos : 0 < x)
    (hxn : x < priv.n) : priv.d2 rand (priv.e2 x) 0 = x ∨ priv.d2 rand (priv.e2 x) 0 = priv.n - x := by
  obtain ⟨s, hs, hp, hq⟩ := hkey.exists_sign hx
  have hgcd : Int.gcd (priv.e2 x) priv.n = 1 := by
    have hgcdx := hkey.gcd_of_jacobiSym hx
    rw [RabinPub.e2, gcd_tmod, Int.gcd_mul_right_left_of_gcd_eq_one hgcdx, hgcdx]
  apply hkey.eq_or_eq_sub hs hpos hxn hkey.d2_nonneg hkey.d2_lt
  · rw [hkey.d2_cast_p hrand hgcd, hkey.e2_cast_p, ← pow_mul, hp]
    simp
  · rw [hkey.d2_cast_q hrand hgcd, hkey.e2_cast_q, ← pow_mul, hq]
    simp

theorem e2_d2 (hrand : Int.gcd rand priv.n = 1) (hx : jacobiSym x priv.n = 1) (hpos : 0 < x)
    (hxn : x < priv.n) (rsel : BitVec 32) :
    priv.e2 (priv.d2 rand x rsel) = x ∨ priv.e2 (priv.d2 rand x rsel) = priv.n - x := by
  obtain ⟨s, hs, hp, hq⟩ := hkey.exists_sign hx
  have hgcd := hkey.gcd_of_jacobiSym hx
  apply hkey.eq_or_eq_sub hs hpos hxn (e2_nonneg _) (hkey.e2_lt _)
  · rw [hkey.e2_cast_p, hkey.d2_cast_p hrand hgcd, ← hp, mul_pow, ← pow_mul, Nat.mul_comm 2]
    split <;> simp
  · rw [hkey.e2_cast_q, hkey.d2_cast_q hrand hgcd, ← hq, mul_pow, ← pow_mul, Nat.mul_comm 2]
    split <;> simp

end RabinPriv.IsKey

/-- For a key of two primes in either order, `D1 (D2 (E2 (E1 (M))))` and, with any choice of
the root, `D1 (E2 (D2 (E1 (M))))` are `M`. -/
theorem rabin_round_trip (probabPrime : ℕ → Bool) (hprobab : ∀ n, n.Prime → probabPrime n)
    (n1 n2 : ℕ) (h1 : n1.Prime) (h2 : n2.Prime) (hpair : WilliamsPair n1 n2) :
    ∃ priv, RabinPriv.make probabPrime n1 n2 = some priv ∧ priv.n = n1 * n2 ∧
      ∀ msg x : ℤ, 0 ≤ msg → priv.e1 msg = some x →
        ∀ rand : ℤ, Int.gcd rand priv.n = 1 →
          priv.d1 (priv.d2 rand (priv.e2 x) 0) = msg ∧
            ∀ rsel, priv.d1 (priv.e2 (priv.d2 rand x rsel)) = msg := by
  obtain ⟨priv, hmake, hn, hkey⟩ := RabinPriv.make_isKey hprobab h1 h2 hpair
  refine ⟨priv, hmake, hn, ?_⟩
  intro msg x hmsg he1 rand hrand
  obtain ⟨hxn, hx, hform⟩ := RabinPub.e1_eq_some hkey.pair hkey.n_eq he1
  have hmod : priv.n % 8 = 5 := by rw [hkey.n_eq, hkey.pair.mul_mod_eight]
  have hpos : 0 < x := by omega
  constructor
  · exact RabinPub.d1_spec hmod hform hxn (hkey.d2_e2 hrand hx hpos hxn)
  · intro rsel
    exact RabinPub.d1_spec hmod hform hxn (hkey.e2_d2 hrand hx hpos hxn rsel)

theorem rabin_round_trip_seven_three :
    ∃ priv, RabinPriv.make (fun n => decide n.Prime) 7 3 = some priv ∧
      (priv.e1 0 = some 4 ∧ priv.d1 (priv.d2 2 (priv.e2 4) 0) = 0 ∧
        priv.d1 (priv.e2 (priv.d2 2 4 3)) = 0) ∧
      priv.e1 2 = some 20 ∧ priv.d1 (priv.d2 2 (priv.e2 20) 0) = 2 ∧
        priv.d1 (priv.e2 (priv.d2 2 20 3)) = 2 := by
  obtain ⟨priv, hmake, hn, hround⟩ := rabin_round_trip (fun n => decide n.Prime)
    (fun _ h => decide_eq_true h) 7 3 Nat.prime_seven Nat.prime_three (Or.inr ⟨rfl, rfl⟩)
  have hzero : priv.e1 0 = some 4 := by simp [RabinPub.e1, hn, jacobiSym.one_left]
  have hjacobi : jacobiSym 5 21 = 1 := by decide +kernel
  have htwo : priv.e1 2 = some 20 := by simp [RabinPub.e1, hn, hjacobi]
  have hgcd : Int.gcd 2 priv.n = 1 := by
    rw [hn]
    rfl
  have hboth := hround 0 4 le_rfl hzero 2 hgcd
  have hboth' := hround 2 20 (by decide) htwo 2 hgcd
  exact ⟨priv, hmake, ⟨hzero, hboth.1, hboth.2 3⟩, htwo, hboth'.1, hboth'.2 3⟩

end Sfslite.Crypt
