import Sfslite.Crypt.RabinRoundTrip
import Sfslite.Crypt.Schnorr
import Sfslite.Lib.Run
import Mathlib.Tactic.NormNum.Prime

/-!
Which signatures verify. A signature is `k + x * e` modulo the order of the group, and the
verifier does not accept zero.
-/

namespace Sfslite.Crypt

open Sfslite.Arpc
open Sfslite.Lib

/-- A subgroup of prime order. -/
structure SchnorrGroup (p q : ℕ) (g : ℤ) : Prop where
  one_lt : 1 < p
  prime : q.Prime
  pow_q : (g : ZMod p) ^ q = 1
  ne_one : (g : ZMod p) ≠ 1

section

variable {p q : ℕ} {g a r z : ℤ} {s e : ℕ}

theorem cast_powm (a : ℤ) (e p : ℕ) : ((powm a e p : ℤ) : ZMod p) = (a : ZMod p) ^ e := by
  have hmod := (ZMod.intCast_eq_intCast_iff _ _ _).mpr (powm_modEq a e p)
  rw [hmod]
  push_cast
  rfl

theorem eq_iff_cast_eq (ha : a % p = a) (hz : z % p = z) : a = z ↔ (a : ZMod p) = z := by
  rw [ZMod.intCast_eq_intCast_iff']
  constructor
  · intro h
    rw [h]
  · intro h
    rwa [ha, hz] at h

theorem tmod_residue (hz : 0 ≤ z) : z.tmod p % p = z.tmod p := by
  rw [Int.tmod_eq_emod_of_nonneg hz, Int.emod_emod]

theorem SchnorrGroup.pow_congr (hgrp : SchnorrGroup p q g) {m n : ℕ}
    (h : (m : ZMod q) = n) : (g : ZMod p) ^ m = (g : ZMod p) ^ n := by
  apply pow_eq_pow_of_modEq _ hgrp.pow_q
  exact (ZMod.natCast_eq_natCast_iff _ _ _).mp h

theorem SchnorrGroup.pow_inj (hgrp : SchnorrGroup p q g) {m n : ℕ}
    (h : (g : ZMod p) ^ m = (g : ZMod p) ^ n) : (m : ZMod q) = n := by
  have hprime : Fact q.Prime := ⟨hgrp.prime⟩
  have horder : orderOf (g : ZMod p) = q := orderOf_eq_prime hgrp.pow_q hgrp.ne_one
  obtain ⟨u, hu⟩ := IsUnit.of_pow_eq_one hgrp.pow_q hgrp.prime.ne_zero
  rw [← hu, ← Units.val_pow_eq_pow_val, ← Units.val_pow_eq_pow_val, Units.val_inj,
    pow_eq_pow_iff_modEq, ← orderOf_units, hu, horder] at h
  exact (ZMod.natCast_eq_natCast_iff _ _ _).mpr h

end

/-- The public key of `x`. -/
def keyOf (p q : ℕ) (g : ℤ) (x : ℕ) : SchnorrPub := ⟨p, q, g, powm g x p⟩

def challenge (sha1 : Sha1) (msg : List Byte) (r : ℤ) : ℕ :=
  magOfBytes (sha1 (msg ++ mpzGetRaw (mpzRawsize (.ofInt r)) (.ofInt r))).toList

theorem bindRToM_eq (sha1 : Sha1) (msg : List Byte) (r : ℤ) :
    SchnorrPub.bindRToM sha1 msg r = challenge sha1 msg r := rfl

section

variable {p q : ℕ} {g r : ℤ} {sha1 : Sha1} {msg : List Byte} {x k n e : ℕ}
  (hgrp : SchnorrGroup p q g)
include hgrp

theorem SchnorrGroup.p_ne_zero : (p : ℤ) ≠ 0 := by
  have hlt := hgrp.one_lt
  omega

theorem SchnorrGroup.one_residue : (1 : ℤ) % p = 1 :=
  Int.emod_eq_of_lt (by decide) (by exact_mod_cast hgrp.one_lt)

theorem makeEphemKeyPair_eq : (keyOf p q g x).makeEphemKeyPair k = some ⟨k, powm g k p⟩ := by
  unfold SchnorrPub.makeEphemKeyPair keyOf
  rw [mpzPowm_natCast hgrp.p_ne_zero]
  rfl

theorem isGroupElem_pow (hr : (r : ZMod p) = (g : ZMod p) ^ k) :
    (keyOf p q g x).isGroupElem r = some true := by
  have hone : powm r q p = 1 := by
    rw [eq_iff_cast_eq powm_emod hgrp.one_residue, cast_powm, hr, ← pow_mul, mul_comm, pow_mul,
      hgrp.pow_q]
    simp
  unfold SchnorrPub.isGroupElem keyOf
  rw [mpzPowm_natCast hgrp.p_ne_zero, Option.map_some, hone]
  rfl

theorem checkSignature_eq (hr : 0 ≤ r) (hk : (r : ZMod p) = (g : ZMod p) ^ k) :
    (keyOf p q g x).checkSignature r n e (keyOf p q g x).y =
      some (decide ((g : ZMod p) ^ n = (g : ZMod p) ^ (k + x * e))) := by
  have hp := hgrp.p_ne_zero
  unfold SchnorrPub.checkSignature keyOf
  simp only [mpzPowm_natCast hp, Option.bind_eq_bind, Option.bind_some, pure]
  congr 2
  have hprod : 0 ≤ r * powm (powm g x p) e p := mul_nonneg hr (powm_nonneg hp)
  rw [eq_iff_cast_eq powm_emod (tmod_residue hprod), cast_powm, cast_tmod (by simp),
    Int.cast_mul, cast_powm, cast_powm, hk, ← pow_mul, ← pow_add]

theorem verify_eq (hr : 0 ≤ r) (hk : (r : ZMod p) = (g : ZMod p) ^ k) (hlt : n < q)
    (hn : (n : ZMod q) = ((k + x * challenge sha1 msg r : ℕ) : ZMod q)) :
    (keyOf p q g x).verify sha1 msg r n = some (decide (¬ q ∣ k + x * challenge sha1 msg r)) := by
  have hzero : n = 0 ↔ q ∣ k + x * challenge sha1 msg r := by
    rw [← ZMod.natCast_eq_zero_iff, ← hn, ZMod.natCast_eq_zero_iff]
    constructor
    · intro h
      rw [h]
      exact Nat.dvd_zero q
    · exact fun h => Nat.eq_zero_of_dvd_of_lt h hlt
  unfold SchnorrPub.verify
  rw [isGroupElem_pow hgrp hk]
  simp only [Option.bind_eq_bind, Option.bind_some, true_and, bindRToM_eq]
  by_cases hn0 : n = 0
  · rw [hn0, if_neg (by simp)]
    simp [hzero.mp hn0]
  · have hrange : (0 : ℤ) < n ∧ (n : ℤ) < (keyOf p q g x).q :=
      ⟨by omega, Int.ofNat_lt.mpr hlt⟩
    rw [if_pos hrange, checkSignature_eq hgrp hr hk, hgrp.pow_congr hn]
    simp [mt hzero.mpr hn0]

end

section

variable {q : ℕ} (hq : q.Prime) (k x e : ℕ)
include hq

theorem invert_natCast : ∃ i : ℕ, invert e q = i ∧
    (Int.gcd e q = 1 → (i : ZMod q) * e = 1) ∧ (Int.gcd e q ≠ 1 → i = 0) := by
  have hpos : (0 : ℤ) < q := by exact_mod_cast hq.pos
  have hnonneg : 0 ≤ invert e q := by
    unfold invert
    split
    · exact Int.emod_nonneg _ hpos.ne'
    · exact le_refl 0
  obtain ⟨i, hi⟩ := Int.eq_ofNat_of_zero_le hnonneg
  refine ⟨i, hi, ?_, ?_⟩
  · intro hgcd
    have hinv := @cast_invert q e q hgcd (by simp)
    rw [hi] at hinv
    exact_mod_cast hinv
  · intro hgcd
    unfold invert at hi
    rw [if_neg hgcd] at hi
    exact_mod_cast hi.symm

theorem halfSignature_spec : ∃ n : ℕ, halfSignature q k x e = n ∧ n < q ∧
    (((invert e q * k).tmod q + x) * e).tmod q = n ∧
    (Int.gcd e q = 1 → (n : ZMod q) = k + x * e) ∧
    (Int.gcd e q ≠ 1 → (e : ZMod q) = 0 ∧ n = 0) := by
  obtain ⟨i, hi, hinv, hzero⟩ := invert_natCast hq e
  have hpos := hq.pos
  have hhalf : halfSignature q k x e = (((i * k % q + x) * e % q : ℕ) : ℤ) := by
    rw [← Nat.mod_mul_mod]
    unfold halfSignature
    dsimp only
    rw [hi]
    rfl
  refine ⟨(i * k % q + x) * e % q, hhalf, Nat.mod_lt _ hpos, ?_, ?_, ?_⟩
  · rw [hi]
    rfl
  · intro hgcd
    have hmul := hinv hgcd
    push_cast [ZMod.natCast_mod]
    calc ((i : ZMod q) * k + x) * e = i * e * k + x * e := by ring
      _ = k + x * e := by rw [hmul, one_mul]
  · intro hgcd
    have hdvd : q ∣ e := by
      by_contra hnot
      apply hgcd
      rw [Int.gcd_natCast_natCast]
      exact ((Nat.Prime.coprime_iff_not_dvd hq).mpr hnot).symm
    refine ⟨(ZMod.natCast_eq_zero_iff e q).mpr hdvd, ?_⟩
    exact Nat.mod_eq_zero_of_dvd (Dvd.dvd.mul_left hdvd _)

end

variable {priv : SchnorrPriv}

section

variable {p q : ℕ} {g : ℤ} {sha1 : Sha1} {x : ℕ} (hgrp : SchnorrGroup p q g)

/-- A signer with the key `x`. -/
structure IsSigner (p q : ℕ) (g : ℤ) (x : ℕ) (priv : SchnorrPriv) : Prop where
  pub : priv.toSchnorrPub = keyOf p q g x
  x : priv.x = x
  ekp : ∀ ekp ∈ priv.ekp, ∃ k : ℕ, ekp = ⟨k, powm g k p⟩

def nextK (priv : SchnorrPriv) (draw : ℕ) : ℤ := (priv.ekp.map EphemKeyPair.k).getD draw

include hgrp

theorem IsSigner.makeEkp (h : IsSigner p q g x priv) (draw : ℕ) :
    ∃ k : ℕ, nextK priv draw = k ∧ priv.makeEkp draw = some ⟨k, powm g k p⟩ := by
  unfold nextK SchnorrPriv.makeEkp
  cases hekp : priv.ekp with
  | none =>
    refine ⟨draw, rfl, ?_⟩
    dsimp only
    rw [h.pub]
    exact makeEphemKeyPair_eq hgrp
  | some ekp =>
    obtain ⟨k, rfl⟩ := h.ekp ekp hekp
    exact ⟨k, rfl, rfl⟩

theorem IsSigner.sign (h : IsSigner p q g x priv) (draw : ℕ) (msg : List Byte) :
    ∃ k n : ℕ, nextK priv draw = k ∧ n < q ∧
      priv.sign sha1 draw msg =
        (if ((n : ZMod q) = ((k + x * challenge sha1 msg (powm g k p) : ℕ) : ZMod q)) then
          some (powm g k p, (n : ℤ), { priv with ekp := none }) else none) ∧
      (Int.gcd (challenge sha1 msg (powm g k p)) q = 1 →
        (n : ZMod q) = ((k + x * challenge sha1 msg (powm g k p) : ℕ) : ZMod q)) := by
  obtain ⟨k, hk, hekp⟩ := h.makeEkp hgrp draw
  obtain ⟨i, hi, -, -⟩ := invert_natCast hgrp.prime (challenge sha1 msg (powm g k p))
  obtain ⟨n, -, hlt, hn, hgcd, -⟩ :=
    halfSignature_spec hgrp.prime k x (challenge sha1 msg (powm g k p))
  refine ⟨k, n, hk, hlt, ?_, ?_⟩
  · have hp : priv.p = p := congrArg SchnorrPub.p h.pub
    have hq : priv.q = q := congrArg SchnorrPub.q h.pub
    have hinv : ¬ invert (challenge sha1 msg (powm g k p)) q < 0 := by omega
    have hcheck := @checkSignature_eq p q g (powm g k p) x k n
      (challenge sha1 msg (powm g k p)) hgrp (powm_nonneg hgrp.p_ne_zero) (cast_powm g k p)
    have hiff : (g : ZMod p) ^ n = (g : ZMod p) ^ (k + x * challenge sha1 msg (powm g k p)) ↔
        (n : ZMod q) = ((k + x * challenge sha1 msg (powm g k p) : ℕ) : ZMod q) :=
      ⟨hgrp.pow_inj, hgrp.pow_congr⟩
    unfold SchnorrPriv.sign
    simp only [hekp, Option.bind_eq_bind, Option.bind_some, bindRToM_eq, hq, if_neg hinv, h.x, hn]
    rw [h.pub, hcheck]
    simp only [Option.bind_some, decide_eq_true_eq, hiff]
    rfl
  · intro hone
    rw [hgcd hone]
    push_cast
    rfl

theorem IsSigner.step {priv' : SchnorrPriv} (h : IsSigner p q g x priv)
    {ev : SchnorrPriv.Event} (hstep : priv.step sha1 ev = some priv') : IsSigner p q g x priv' := by
  cases ev with
  | sign draw msg =>
    obtain ⟨k, n, -, -, hsign, -⟩ := @IsSigner.sign priv p q g sha1 x hgrp h draw msg
    simp only [SchnorrPriv.step, hsign, Option.map_eq_some_iff] at hstep
    obtain ⟨signed, hsome, rfl⟩ := hstep
    split at hsome
    · cases hsome
      exact ⟨h.pub, h.x, nofun⟩
    · exact absurd hsome nofun
  | makeEkp draw =>
    obtain ⟨k, -, hekp⟩ := h.makeEkp hgrp draw
    simp only [SchnorrPriv.step, hekp, Option.map_some, Option.some.injEq] at hstep
    subst hstep
    refine ⟨h.pub, h.x, ?_⟩
    intro ekp hmem
    cases hmem
    exact ⟨k, rfl⟩

theorem IsSigner.verify {priv' : SchnorrPriv} (h : IsSigner p q g x priv) {draw : ℕ}
    {msg : List Byte} {r s : ℤ} (hsign : priv.sign sha1 draw msg = some (r, s, priv')) :
    priv.verify sha1 msg r s = some true ↔
      ¬ (q : ℤ) ∣ nextK priv draw + x * SchnorrPub.bindRToM sha1 msg r := by
  obtain ⟨k, n, hk, hlt, heq, -⟩ := @IsSigner.sign priv p q g sha1 x hgrp h draw msg
  rw [heq] at hsign
  split at hsign
  · rename_i hn
    simp only [Option.some.injEq, Prod.mk.injEq] at hsign
    obtain ⟨rfl, rfl, -⟩ := hsign
    have hverify := verify_eq hgrp (powm_nonneg hgrp.p_ne_zero) (cast_powm g k p) hlt hn
    rw [h.pub, hverify, hk, bindRToM_eq]
    norm_cast
    simp
  · exact absurd hsign nofun

end

section

variable {p q : ℕ} {g : ℤ} {sha1 : Sha1} {x : ℕ} (hgrp : SchnorrGroup p q g)

/-- The halves of the key `x`, neither of them negative. -/
structure AreHalves (p q : ℕ) (g : ℤ) (x : ℕ) (keys : SchnorrClntPriv × SchnorrSrvPriv) : Prop where
  clnt : keys.1.toSchnorrPub = keyOf p q g x
  srv : keys.2.toSchnorrPub = keyOf p q g x
  clnt_nonneg : 0 ≤ keys.1.xClnt
  srv_nonneg : 0 ≤ keys.2.xSrv
  sum : (keys.1.xClnt + keys.2.xSrv : ZMod q) = x

/-- The client's delta is no larger than what it takes it from, `x_clnt + q`. -/
def DeltaFits (keys : SchnorrClntPriv × SchnorrSrvPriv) (ev : ℕ × ℤ) : Prop :=
  (if 0 < ev.2 then ev.2 else (ev.1 : ℤ)) ≤ keys.1.xClnt + keys.1.q

def bothR (p : ℕ) (g : ℤ) (kClnt kSrv : ℕ) : ℤ := (powm g kClnt p * powm g kSrv p).tmod p

include hgrp

variable {keys : SchnorrClntPriv × SchnorrSrvPriv}

theorem AreHalves.updateBoth {keys' : SchnorrClntPriv × SchnorrSrvPriv} {ev : ℕ × ℤ}
    (h : AreHalves p q g x keys) (hfits : DeltaFits keys ev)
    (hstep : updateBoth keys ev = some keys') : AreHalves p q g x keys' := by
  have hcq : keys.1.q = q := congrArg SchnorrPub.q h.clnt
  have hsq : keys.2.q = q := congrArg SchnorrPub.q h.srv
  have hq : (0 : ℤ) < q := by exact_mod_cast hgrp.prime.pos
  obtain ⟨delta, hdelta, heq⟩ : ∃ delta, delta = (if 0 < ev.2 then ev.2 else (ev.1 : ℤ)) ∧
      keys' = ({ keys.1 with xClnt := (keys.1.xClnt + keys.1.q - delta).tmod keys.1.q },
        keys.2.update delta) := by
    refine ⟨_, rfl, ?_⟩
    unfold Sfslite.Crypt.updateBoth SchnorrClntPriv.update randomZn at hstep
    rw [hcq, if_pos hq] at hstep
    split at hstep
    · rename_i hpos
      rw [if_pos hpos]
      cases hstep
      rw [hcq]
    · rename_i hpos
      rw [if_neg hpos]
      cases hstep
      rw [hcq]
  have hnonneg : 0 ≤ delta := by
    rw [hdelta]
    split <;> omega
  unfold DeltaFits at hfits
  rw [← hdelta] at hfits
  subst heq
  have hclnt := h.clnt_nonneg
  have hsrv := h.srv_nonneg
  refine ⟨h.clnt, h.srv, ?_, ?_, ?_⟩
  · exact Int.tmod_nonneg _ (by omega)
  · exact Int.tmod_nonneg _ (by omega)
  · have hzero : ((keys.1.q : ℤ) : ZMod q) = 0 := by
      rw [hcq]
      simp
    have hzero' : ((keys.2.q : ℤ) : ZMod q) = 0 := by
      rw [hsq]
      simp
    dsimp only [SchnorrSrvPriv.update]
    rw [cast_tmod hzero, cast_tmod hzero', ← h.sum]
    push_cast [hzero]
    ring

theorem AreHalves.sign (h : AreHalves p q g x keys) (kClnt kSrv : ℕ) (msg : List Byte)
    (hgcd : Int.gcd (challenge sha1 msg (bothR p g kClnt kSrv)) q = 1) :
    ∃ n : ℕ, n < q ∧
      (n : ZMod q) = ((kClnt + kSrv + x * challenge sha1 msg (bothR p g kClnt kSrv) : ℕ) : ZMod q) ∧
      twoPartySign sha1 kClnt kSrv keys.1 keys.2 msg =
        some (some (bothR p g kClnt kSrv, (n : ℤ))) := by
  obtain ⟨xc, hxc⟩ := Int.eq_ofNat_of_zero_le h.clnt_nonneg
  obtain ⟨xs, hxs⟩ := Int.eq_ofNat_of_zero_le h.srv_nonneg
  obtain ⟨e, he⟩ : ∃ e, e = challenge sha1 msg (bothR p g kClnt kSrv) := ⟨_, rfl⟩
  rw [← he] at hgcd ⊢
  obtain ⟨nc, hnc, -, -, hcval, -⟩ := halfSignature_spec hgrp.prime kClnt xc e
  obtain ⟨ns, hns, -, -, hsval, -⟩ := halfSignature_spec hgrp.prime kSrv xs e
  have hp := hgrp.p_ne_zero
  have hsum : ((xc : ZMod q) + xs) = x := by
    rw [← h.sum, hxc, hxs]
    push_cast
    rfl
  have hval : (((nc + ns) % q : ℕ) : ZMod q) = ((kClnt + kSrv + x * e : ℕ) : ZMod q) := by
    push_cast [ZMod.natCast_mod]
    rw [hcval hgcd, hsval hgcd, ← hsum]
    ring
  refine ⟨(nc + ns) % q, Nat.mod_lt _ hgrp.prime.pos, hval, ?_⟩
  have hcq : keys.1.q = q := congrArg SchnorrPub.q h.clnt
  have hsq : keys.2.q = q := congrArg SchnorrPub.q h.srv
  have hcp : keys.1.p = p := congrArg SchnorrPub.p h.clnt
  have hsp : keys.2.p = p := congrArg SchnorrPub.p h.srv
  have hprod : 0 ≤ powm g kClnt p * powm g kSrv p := mul_nonneg (powm_nonneg hp) (powm_nonneg hp)
  have hR : 0 ≤ bothR p g kClnt kSrv := Int.tmod_nonneg _ hprod
  have hRk : (bothR p g kClnt kSrv : ZMod p) = (g : ZMod p) ^ (kClnt + kSrv) := by
    rw [bothR, cast_tmod (by simp), Int.cast_mul, cast_powm, cast_powm, ← pow_add]
  have hclntPair := @makeEphemKeyPair_eq p q g x kClnt hgrp
  have hsrvPair := @makeEphemKeyPair_eq p q g x kSrv hgrp
  have hclntElem := @isGroupElem_pow p q g _ x kClnt hgrp (cast_powm g kClnt p)
  have hsrvElem := @isGroupElem_pow p q g _ x kSrv hgrp (cast_powm g kSrv p)
  have hcheck := @checkSignature_eq p q g _ x _ ((nc + ns) % q) e hgrp hR hRk
  rw [hgrp.pow_congr hval, decide_eq_true rfl] at hcheck
  rw [← h.clnt] at hclntPair hsrvElem hcheck
  rw [← h.srv] at hsrvPair hclntElem
  have htmod : ((nc : ℤ) + ns).tmod q = ((nc + ns) % q : ℕ) := rfl
  have hbind : SchnorrPub.bindRToM sha1 msg (bothR p g kClnt kSrv) = e := by
    rw [bindRToM_eq, he]
  unfold twoPartySign SchnorrSrvPriv.endorseSignature SchnorrClntPriv.completeSignature
  unfold bothR at hcheck hbind ⊢
  simp only [hclntPair, hclntElem, hsrvPair, hsrvElem, Option.bind_eq_bind, Option.bind_some,
    if_true, hcp, hsp, hcq, hsq, hxc, hxs, hbind, pure]
  simp only [hnc, hns, htmod, hcheck, Option.bind_some, if_true]

theorem AreHalves.verify (h : AreHalves p q g x keys) (kClnt kSrv : ℕ) (msg : List Byte)
    (hgcd : Int.gcd (challenge sha1 msg (bothR p g kClnt kSrv)) q = 1) :
    ∃ s, twoPartySign sha1 kClnt kSrv keys.1 keys.2 msg = some (some (bothR p g kClnt kSrv, s)) ∧
      ((keyOf p q g x).verify sha1 msg (bothR p g kClnt kSrv) s = some true ↔
        ¬ q ∣ kClnt + kSrv + x * challenge sha1 msg (bothR p g kClnt kSrv)) := by
  obtain ⟨n, hlt, hval, hsign⟩ := @AreHalves.sign p q g sha1 x hgrp keys h kClnt kSrv msg hgcd
  have hp := hgrp.p_ne_zero
  have hprod : 0 ≤ powm g kClnt p * powm g kSrv p := mul_nonneg (powm_nonneg hp) (powm_nonneg hp)
  have hR : 0 ≤ bothR p g kClnt kSrv := Int.tmod_nonneg _ hprod
  have hRk : (bothR p g kClnt kSrv : ZMod p) = (g : ZMod p) ^ (kClnt + kSrv) := by
    rw [bothR, cast_tmod (by simp), Int.cast_mul, cast_powm, cast_powm, ← pow_add]
  refine ⟨n, hsign, ?_⟩
  rw [verify_eq hgrp hR hRk hlt hval]
  simp

theorem schnorrGen_spec {draw draw' draw'' : ℕ} {clnt : SchnorrClntPriv} {srv : SchnorrSrvPriv}
    (h : schnorrGen p q g draw draw' draw'' = some (clnt, srv, priv)) :
    AreHalves p q g ((draw + draw') % q) (clnt, srv) ∧
      IsSigner p q g ((draw + draw') % q) priv := by
  have hq : (0 : ℤ) < q := by exact_mod_cast hgrp.prime.pos
  have hx : ((draw : ℤ) + draw').tmod q = ((draw + draw') % q : ℕ) := rfl
  have hpow : mpzPowm g ((draw : ℤ) + draw' |>.tmod q) p =
      some (powm g ((draw + draw') % q) p) := by
    rw [hx]
    exact mpzPowm_natCast hgrp.p_ne_zero _ _
  have hpair := @makeEphemKeyPair_eq p q g ((draw + draw') % q) draw'' hgrp
  unfold keyOf at hpair
  unfold schnorrGen randomZn at h
  simp only [if_pos hq, Option.bind_eq_bind, Option.bind_some, hpow, hpair, pure,
    Option.some.injEq, Prod.mk.injEq] at h
  obtain ⟨rfl, rfl, rfl⟩ := h
  refine ⟨⟨rfl, rfl, Int.natCast_nonneg _, Int.natCast_nonneg _, ?_⟩, rfl, rfl, ?_⟩
  · push_cast [ZMod.natCast_mod]
    rfl
  · intro ekp hmem
    cases hmem
    exact ⟨draw'', rfl⟩

end

section

variable {p q : ℕ} {g : ℤ} {sha1 : Sha1}

/-- Exactly the signatures that are not zero verify: those that one signer makes at any time, and
those of the two parties after any updates with deltas that fit, which keep the public key. Both
are made whenever the challenge has an inverse. -/
theorem schnorr_signatures (hgrp : SchnorrGroup p q g) {draw draw' draw'' : ℕ}
    {clnt : SchnorrClntPriv} {srv : SchnorrSrvPriv} {priv : SchnorrPriv}
    (hgen : schnorrGen p q g draw draw' draw'' = some (clnt, srv, priv)) :
    (∀ evs priv₁, Run (SchnorrPriv.step sha1) (fun _ _ => True) priv evs priv₁ →
      ∀ k msg,
        (∀ r s priv₂, priv₁.sign sha1 k msg = some (r, s, priv₂) →
          (priv.verify sha1 msg r s = some true ↔
            ¬ (q : ℤ) ∣ nextK priv₁ k + priv.x * SchnorrPub.bindRToM sha1 msg r)) ∧
        (Int.gcd (SchnorrPub.bindRToM sha1 msg (powm g (nextK priv₁ k).toNat p)) q = 1 →
          ∃ r s priv₂, priv₁.sign sha1 k msg = some (r, s, priv₂))) ∧
    (∀ evs keys, Run updateBoth DeltaFits (clnt, srv) evs keys →
      keys.1.toSchnorrPub = priv.toSchnorrPub ∧ keys.2.toSchnorrPub = priv.toSchnorrPub ∧
      priv.y = powm g priv.x.toNat p ∧ (q : ℤ) ∣ keys.1.xClnt + keys.2.xSrv - priv.x ∧
      ∀ kClnt kSrv msg, Int.gcd (SchnorrPub.bindRToM sha1 msg (bothR p g kClnt kSrv)) q = 1 →
        ∃ r s, twoPartySign sha1 kClnt kSrv keys.1 keys.2 msg = some (some (r, s)) ∧
          (priv.verify sha1 msg r s = some true ↔
            ¬ (q : ℤ) ∣ kClnt + kSrv + priv.x * SchnorrPub.bindRToM sha1 msg r)) := by
  obtain ⟨hhalves, hsigner⟩ := schnorrGen_spec hgrp hgen
  constructor
  · intro evs priv₁ hrun k msg
    have hsigner₁ : IsSigner p q g ((draw + draw') % q) priv₁ :=
      hrun.invariant hsigner fun _ _ _ hs _ hstep => hs.step hgrp hstep
    constructor
    · intro r s priv₂ hsign
      have hverify := hsigner₁.verify hgrp hsign
      rwa [hsigner₁.pub, ← hsigner.pub, ← hsigner.x] at hverify
    · intro hgcd
      obtain ⟨k', n, hk, -, hsign, hone⟩ := @IsSigner.sign priv₁ p q g sha1 _ hgrp hsigner₁ k msg
      rw [hk, Int.toNat_natCast, bindRToM_eq] at hgcd
      rw [hsign, if_pos (hone hgcd)]
      exact ⟨_, _, _, rfl⟩
  · intro evs keys hrun
    have hhalves' : AreHalves p q g ((draw + draw') % q) keys :=
      hrun.invariant hhalves fun _ _ _ hs hfits hstep => hs.updateBoth hgrp hfits hstep
    refine ⟨hhalves'.clnt.trans hsigner.pub.symm, hhalves'.srv.trans hsigner.pub.symm, ?_, ?_, ?_⟩
    · rw [hsigner.x, hsigner.pub]
      rfl
    · apply (ZMod.intCast_zmod_eq_zero_iff_dvd _ q).mp
      rw [hsigner.x]
      push_cast
      rw [hhalves'.sum, ZMod.natCast_mod]
      push_cast
      ring
    · intro kClnt kSrv msg hgcd
      obtain ⟨s, hsign, hverify⟩ := hhalves'.verify hgrp kClnt kSrv msg hgcd
      refine ⟨_, s, hsign, ?_⟩
      rw [hsigner.pub, hverify, hsigner.x, bindRToM_eq]
      norm_cast

theorem schnorrGroup_23 : SchnorrGroup 23 11 4 := by
  refine ⟨by norm_num, by norm_num, ?_, ?_⟩
  · decide
  · decide

def digest3 : List.Vector Byte hashsize :=
  ⟨[0x98, 0x42, 0x92, 0x6a, 0xf7, 0xca, 0x0a, 0x8c, 0xca, 0x12, 0x60, 0x4f, 0x94, 0x54, 0x14,
    0xf0, 0x7b, 0x01, 0xe1, 0x3d], rfl⟩

def digest12 : List.Vector Byte hashsize :=
  ⟨[0x1e, 0x32, 0xe3, 0xc3, 0x60, 0x50, 0x1a, 0x0e, 0xde, 0x37, 0x8b, 0xc4, 0x5a, 0x24, 0x42,
    0x0d, 0xc2, 0xe5, 0x3f, 0xba], rfl⟩

def samplePub : SchnorrPub := ⟨23, 11, 4, 12⟩

theorem schnorr_signatures_sample : ∃ r s priv₂,
    SchnorrPriv.sign (fun _ => digest12) 0 ⟨samplePub, 5, some ⟨5, 12⟩⟩ [] = some (r, s, priv₂) ∧
    samplePub.verify (fun _ => digest12) [] r s = some true := by
  have hgen : schnorrGen (23 : ℕ) (11 : ℕ) 4 2 3 5 =
      some (⟨samplePub, 2⟩, ⟨samplePub, 3⟩, ⟨samplePub, 5, some ⟨5, 12⟩⟩) := rfl
  obtain ⟨hone, -⟩ := @schnorr_signatures 23 11 4 (fun _ => digest12) schnorrGroup_23 2 3 5 _ _ _ hgen
  obtain ⟨hverify, hmade⟩ := hone [] _ (Run.nil _) 0 []
  obtain ⟨r, s, priv₂, hsign⟩ := hmade (by decide)
  refine ⟨r, s, priv₂, hsign, (hverify r s priv₂ hsign).mpr ?_⟩
  have hbind : SchnorrPub.bindRToM (fun _ => digest12) [] r =
      SchnorrPub.bindRToM (fun _ => digest12) [] 12 := rfl
  rw [hbind]
  decide

/-- The signature zero is given out and does not verify. -/
theorem schnorr_zero_signature : ∃ r s priv₂,
    SchnorrPriv.sign (fun _ => digest3) 0 ⟨samplePub, 5, some ⟨4, 3⟩⟩ [] = some (r, s, priv₂) ∧
    samplePub.verify (fun _ => digest3) [] r s = some false := by
  have hsigner : IsSigner 23 11 4 5 ⟨samplePub, 5, some ⟨4, 3⟩⟩ := by
    refine ⟨rfl, rfl, ?_⟩
    intro ekp hmem
    cases hmem
    exact ⟨4, rfl⟩
  obtain ⟨k, n, hk, hlt, hsign, hone⟩ :=
    @IsSigner.sign _ 23 11 4 (fun _ => digest3) 5 schnorrGroup_23 hsigner 0 []
  have hk4 : k = 4 := Int.ofNat.inj hk.symm
  subst hk4
  have hn := hone (by decide)
  rw [if_pos hn] at hsign
  have hverify := verify_eq schnorrGroup_23 (by decide) (cast_powm 4 4 23) hlt hn
  have hdvd : 11 ∣ 4 + 5 * challenge (fun _ => digest3) [] (powm 4 4 (23 : ℕ)) := by decide
  rw [decide_eq_false (not_not.mpr hdvd)] at hverify
  exact ⟨_, _, _, hsign, hverify⟩

end

end Sfslite.Crypt
