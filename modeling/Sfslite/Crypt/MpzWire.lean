import Sfslite.Crypt.MpInt
import Sfslite.Arpc.XdrRoundTrip

/-!
Big integers as bytes, the most significant byte first, and on the wire: `mpz_raw.C` and
`xdr_mpz_t.C` on a little-endian machine. The bytes are two's complement.
-/

namespace Sfslite.Crypt

open Sfslite.Arpc
open Sfslite.Lib

/-- The bytes of a limb in memory. -/
def limbMem (v : Limb) : List Byte := Words.ofNat 8 v.toNat

/-- `while (sp < ep)` in `mpz_get_rawmag_be`: the buffer is filled from its end. -/
def getLimbs : List Limb → List Byte
  | [] => []
  | v :: vs => getLimbs vs ++ (limbMem v).reverse

/-- `for (; bp > buf; v >>= 8) *--bp = v`, where `n` bytes are left. -/
def getLow : ℕ → Limb → List Byte
  | 0, _ => []
  | n + 1, v => getLow n (v >>> 8) ++ [v.setWidth 8]

def mpzGetRawmagBe (size : ℕ) (d : List Limb) : List Byte :=
  let k := min (size / 8) d.length
  let n := size - 8 * k
  let high :=
    match d.drop k with
    | v :: _ => if n < 8 then getLow n v else List.replicate n 0#8
    | [] => List.replicate n 0#8
  high ++ getLimbs (d.take k)

/-- `while (sp < ep)` in `mpz_set_rawmag_be`: the last eight bytes make the first limb. -/
def setLimbs : ℕ → List Byte → List Limb
  | 0, _ => []
  | k + 1, buf =>
    BitVec.ofNat 64 (Words.val (buf.drop (buf.length - 8)).reverse) ::
      setLimbs k (buf.take (buf.length - 8))

/-- The bytes in front of the whole limbs. -/
def setHigh (bs : List Byte) : Limb := bs.foldl (fun v b => v <<< 8 ||| b.setWidth 64) 0#64

def mpzSetRawmagBe (buf : List Byte) : MpInt :=
  let rest := buf.take (buf.length % 8)
  .fixsize false (setLimbs (buf.length / 8) buf ++ if rest ≠ [] then [setHigh rest] else [])

def mpzRawsize (mp : MpInt) : ℕ :=
  let nbits := mp.sizeinbase2
  if nbits ≠ 0 then nbits / 2 ^ 3 + 1 else 0

def mpzGetRaw (size : ℕ) (mp : MpInt) : List Byte :=
  if mp.neg then mpzGetRawmagBe size (mp.umod2exp (size * 8)).mpD
  else mpzGetRawmagBe size mp.mpD

/-- `mpz_set_raw`, which looks at the first byte also where there is none; `past` is what it
finds there. -/
def mpzSetRaw (past : Byte) (buf : List Byte) : MpInt :=
  let mp := mpzSetRawmagBe buf
  if buf.headD past &&& 0x80 ≠ 0 then (mp.negSize.umod2exp (8 * buf.length)).negSize
  else mp

/-- `xdr_mpz_t`; behind the end of the message is the byte `past`. -/
def xdrMpzT (past : Byte) (x : XDR) (z : MpInt) : Bool × XDR × MpInt :=
  match x with
  | .encode out =>
    let size := (BitVec.ofNat 32 (mpzRawsize z) + 3) &&& ~~~3#32
    (true, .encode (out ++ htonl size ++ mpzGetRaw size.toNat z), z)
  | .decode inp =>
    match getint inp with
    | none => (false, .decode inp, z)
    | some (size, inp) =>
      -- (int32_t) size < 0
      if 2 ^ 31 ≤ size.toNat then (false, .decode inp, z)
      else
        match xdrGetbytes ((size + 3) &&& ~~~3#32).toNat inp with
        | none => (false, .decode inp, z)
        | some (cp, inp) =>
          (true, .decode inp, mpzSetRaw (inp.headD past) (cp.take size.toNat))

def bytesVal (bs : List Byte) : ℕ := Words.val bs.reverse

/-- The low `size` bytes of a number in two's complement. -/
def twosBytes (size : ℕ) (z : ℤ) : List Byte :=
  (Words.ofNat size (z % 256 ^ size).toNat).reverse

/-- The number of some bytes in two's complement. -/
def twosVal (bs : List Byte) : ℤ := Int.bmod (bytesVal bs) (256 ^ bs.length)

variable {bs bs' : List Byte} {d : List Limb} {v : Limb} {size n : ℕ}

theorem bytesVal_append (bs bs' : List Byte) :
    bytesVal (bs ++ bs') = bytesVal bs' + 256 ^ bs'.length * bytesVal bs := by
  have happ := Words.val_append bs'.reverse bs.reverse
  rwa [← List.reverse_append, List.length_reverse] at happ

theorem bytesVal_lt (bs : List Byte) : bytesVal bs < 256 ^ bs.length := by
  have hlt := Words.val_lt bs.reverse
  rwa [List.length_reverse] at hlt

theorem bytesVal_inj (hlen : bs.length = bs'.length) (h : bytesVal bs = bytesVal bs') :
    bs = bs' := by
  apply List.reverse_injective
  exact Words.val_inj (by simpa using hlen) h

@[simp] theorem length_twosBytes (size : ℕ) (z : ℤ) : (twosBytes size z).length = size := by
  simp [twosBytes]

theorem bytesVal_twosBytes (size : ℕ) (z : ℤ) :
    (bytesVal (twosBytes size z) : ℤ) = z % 256 ^ size := by
  have hpos : (0 : ℤ) < 256 ^ size := by positivity
  have hnonneg := Int.emod_nonneg z hpos.ne'
  have hlt := Int.emod_lt_of_pos z hpos
  have hnat : (z % 256 ^ size).toNat < 256 ^ size := by
    apply (Int.toNat_lt hnonneg).mpr
    push_cast
    exact hlt
  have hpow : (2 ^ 8) ^ size = 256 ^ size := rfl
  rw [bytesVal, twosBytes, List.reverse_reverse, Words.val_ofNat, hpow, Nat.mod_eq_of_lt hnat,
    Int.toNat_of_nonneg hnonneg]

theorem twosVal_twosBytes (size : ℕ) (z : ℤ) :
    twosVal (twosBytes size z) = Int.bmod z (256 ^ size) := by
  have hpow : ((256 ^ size : ℕ) : ℤ) = 256 ^ size := by push_cast; rfl
  rw [twosVal, bytesVal_twosBytes, length_twosBytes, ← hpow, Int.emod_bmod]

variable {bs rest : List Byte} {d : List Limb} {v : Limb} {size n k : ℕ}

theorem limbMem_spec (v : Limb) :
    bytesVal (limbMem v).reverse = v.toNat ∧ (limbMem v).reverse.length = 8 := by
  have hlt : v.toNat < 2 ^ 64 := v.isLt
  have hpow : (2 ^ 8) ^ 8 = 2 ^ 64 := rfl
  constructor
  · rw [bytesVal, List.reverse_reverse, limbMem, Words.val_ofNat, hpow, Nat.mod_eq_of_lt hlt]
  · rw [List.length_reverse, limbMem, Words.length_ofNat]

theorem getLimbs_spec (d : List Limb) :
    bytesVal (getLimbs d) = Words.val d ∧ (getLimbs d).length = 8 * d.length := by
  induction d with
  | nil => exact ⟨rfl, rfl⟩
  | cons v vs ih =>
    obtain ⟨hval, hlen⟩ := ih
    obtain ⟨hlimb, hlimblen⟩ := limbMem_spec v
    have hpow : 256 ^ 8 = 2 ^ 64 := rfl
    rw [getLimbs, bytesVal_append, hlimb, hlimblen, hval, hpow, Words.val_cons]
    refine ⟨rfl, ?_⟩
    rw [List.length_append, hlen, hlimblen, List.length_cons]
    omega

theorem getLow_spec (n : ℕ) (v : Limb) :
    bytesVal (getLow n v) = v.toNat % 256 ^ n ∧ (getLow n v).length = n := by
  induction n generalizing v with
  | zero => exact ⟨(Nat.mod_one _).symm, rfl⟩
  | succ n ih =>
    obtain ⟨hval, hlen⟩ := ih (v >>> 8)
    have hbyte : bytesVal [v.setWidth 8] = v.toNat % 256 := by
      simp [bytesVal]
    have hshift : (v >>> 8).toNat = v.toNat / 256 := by
      rw [BitVec.toNat_ushiftRight, Nat.shiftRight_eq_div_pow]
    rw [getLow, bytesVal_append, hbyte, hval, hshift, List.length_singleton, pow_one,
      List.length_append, hlen, List.length_singleton, pow_succ', Nat.mod_mul]
    exact ⟨rfl, rfl⟩

theorem bytesVal_replicate_zero (n : ℕ) : bytesVal (List.replicate n 0#8) = 0 := by
  rw [bytesVal, List.reverse_replicate, Words.val_replicate_zero]

theorem mpzGetRawmagBe_spec (size : ℕ) (d : List Limb) :
    bytesVal (mpzGetRawmagBe size d) = Words.val d % 256 ^ size ∧
      (mpzGetRawmagBe size d).length = size := by
  obtain ⟨k, hk⟩ : ∃ k, k = min (size / 8) d.length := ⟨_, rfl⟩
  obtain ⟨hval, hlen⟩ := getLimbs_spec (d.take k)
  have hklen : k ≤ d.length := by omega
  have hsplit := Words.val_append (d.take k) (d.drop k)
  have hlow := Words.val_lt (d.take k)
  rw [List.take_append_drop] at hsplit
  rw [List.length_take_of_le hklen] at hlen hlow hsplit
  have hpow : (2 ^ 64) ^ k = 256 ^ (8 * k) := by
    rw [pow_mul]
    rfl
  rw [hpow] at hlow hsplit
  have hsize : 256 ^ size = 256 ^ (8 * k) * 256 ^ (size - 8 * k) := by
    rw [← pow_add, Nat.add_sub_cancel' (by omega)]
  have hmod : Words.val d % 256 ^ size = Words.val (d.take k) +
      256 ^ (8 * k) * (Words.val (d.drop k) % 256 ^ (size - 8 * k)) := by
    rw [hsplit, hsize, Nat.mod_mul, Nat.add_mul_mod_self_left, Nat.mod_eq_of_lt hlow,
      Nat.add_mul_div_left _ _ (by positivity), Nat.div_eq_of_lt hlow, Nat.zero_add]
  unfold mpzGetRawmagBe
  simp only [← hk]
  rw [bytesVal_append, hval, hlen, hmod, List.length_append, hlen]
  cases hdrop : d.drop k with
  | nil =>
    dsimp only
    rw [bytesVal_replicate_zero, Words.val_nil, Nat.zero_mod, List.length_replicate]
    exact ⟨rfl, by omega⟩
  | cons v vs =>
    have hdlen := congrArg List.length hdrop
    rw [List.length_drop, List.length_cons] at hdlen
    have hn : size - 8 * k < 8 := by omega
    obtain ⟨hgval, hglen⟩ := getLow_spec (size - 8 * k) v
    have hdvd : 256 ^ (size - 8 * k) ∣ 2 ^ 64 * Words.val vs := by
      have hpow64 : 2 ^ 64 = 256 ^ 8 := rfl
      rw [hpow64]
      exact Nat.dvd_mul_right_of_dvd (pow_dvd_pow 256 (by omega)) _
    dsimp only
    rw [if_pos hn, hgval, hglen, Words.val_cons, Nat.add_mod, Nat.mod_eq_zero_of_dvd hdvd,
      Nat.add_zero, Nat.mod_mod]
    exact ⟨rfl, by omega⟩

theorem MpInt.mag_eq (mp : MpInt) : mp.mag = mp.toInt.natAbs := by
  unfold MpInt.toInt
  split <;> omega

theorem mpzGetRaw_eq (size : ℕ) (mp : MpInt) : mpzGetRaw size mp = twosBytes size mp.toInt := by
  obtain ⟨mp', hget, hint⟩ : ∃ mp' : MpInt, mpzGetRaw size mp = mpzGetRawmagBe size mp'.mpD ∧
      (mp'.mag : ℤ) % 256 ^ size = mp.toInt % 256 ^ size := by
    unfold mpzGetRaw
    cases hneg : mp.neg with
    | false =>
      refine ⟨mp, if_neg Bool.false_ne_true, ?_⟩
      rw [MpInt.toInt, if_neg (by simp [hneg])]
    | true =>
      refine ⟨_, if_pos rfl, ?_⟩
      have hpow : (2 : ℤ) ^ (size * 8) = 256 ^ size := by
        rw [mul_comm, pow_mul]
        norm_num
      have hval := MpInt.toInt_umod2exp hneg (size * 8)
      have hnonneg : 0 ≤ mp.toInt % 256 ^ size := Int.emod_nonneg _ (by positivity)
      rw [hpow] at hval
      rw [MpInt.mag_eq, hval, Int.natAbs_of_nonneg hnonneg, Int.emod_emod]
  obtain ⟨hval, hlen⟩ := mpzGetRawmagBe_spec size mp'.mpD
  rw [hget]
  apply bytesVal_inj
  · rw [hlen, length_twosBytes]
  · apply Int.natCast_inj.mp
    rw [hval, bytesVal_twosBytes, ← hint]
    push_cast
    rfl

theorem setLimbs_spec {k : ℕ} {buf : List Byte} (hk : 8 * k ≤ buf.length) :
    bytesVal buf =
        Words.val (setLimbs k buf) + (2 ^ 64) ^ k * bytesVal (buf.take (buf.length - 8 * k)) ∧
      (setLimbs k buf).length = k := by
  induction k generalizing buf with
  | zero => simp [setLimbs]
  | succ k ih =>
    obtain ⟨front, hfront⟩ : ∃ front, front = buf.take (buf.length - 8) := ⟨_, rfl⟩
    obtain ⟨back, hback⟩ : ∃ back, back = buf.drop (buf.length - 8) := ⟨_, rfl⟩
    have hbuf : buf = front ++ back := by
      rw [hfront, hback]
      exact (List.take_append_drop _ _).symm
    have hfrontlen : front.length = buf.length - 8 := by
      rw [hfront]
      exact List.length_take_of_le (by omega)
    have hbacklen : back.length = 8 := by
      rw [hback, List.length_drop]
      omega
    obtain ⟨hval, hlen⟩ := @ih front (by omega)
    have hlt := bytesVal_lt back
    have hpow : 256 ^ 8 = 2 ^ 64 := rfl
    have hlimb : (BitVec.ofNat 64 (Words.val back.reverse)).toNat = bytesVal back := by
      rw [BitVec.toNat_ofNat]
      apply Nat.mod_eq_of_lt
      rwa [hbacklen] at hlt
    have htake : buf.take (buf.length - 8 * (k + 1)) = front.take (front.length - 8 * k) := by
      rw [hfront, List.take_take, List.length_take_of_le (by omega)]
      congr 1
      omega
    rw [setLimbs, ← hfront, ← hback, htake, List.length_cons, hlen, Words.val_cons, hlimb]
    conv_lhs => rw [hbuf, bytesVal_append, hval, hbacklen, hpow]
    rw [pow_succ' (2 ^ 64), Nat.mul_add, Nat.add_assoc, Nat.mul_assoc]
    exact ⟨rfl, rfl⟩

theorem setHigh_spec {bs : List Byte} (hlen : bs.length ≤ 8) : (setHigh bs).toNat = bytesVal bs := by
  induction bs using List.reverseRecOn with
  | nil => rfl
  | append_singleton bs b ih =>
    rw [List.length_append, List.length_singleton] at hlen
    have hih := ih (by omega)
    have hlt : bytesVal bs < 256 ^ 7 :=
      Nat.lt_of_lt_of_le (bytesVal_lt bs) (Nat.pow_le_pow_right (by decide) (by omega))
    have hb : b.toNat < 2 ^ 8 := b.isLt
    have hstep : setHigh (bs ++ [b]) = setHigh bs <<< 8 ||| b.setWidth 64 := by
      rw [setHigh, List.foldl_append]
      rfl
    have hone : bytesVal [b] = b.toNat := by simp [bytesVal]
    have hshift : (setHigh bs <<< 8).toNat = bytesVal bs <<< 8 := by
      rw [BitVec.toNat_shiftLeft, hih, Nat.shiftLeft_eq]
      apply Nat.mod_eq_of_lt
      omega
    rw [hstep, bytesVal_append, hone, BitVec.toNat_or, hshift, BitVec.toNat_setWidth,
      Nat.mod_eq_of_lt (by omega), ← Nat.shiftLeft_add_eq_or_of_lt hb, Nat.shiftLeft_eq,
      List.length_singleton]
    omega

theorem mpzSetRawmagBe_spec (buf : List Byte) : (mpzSetRawmagBe buf).toInt = bytesVal buf := by
  obtain ⟨hval, hlen⟩ := @setLimbs_spec (buf.length / 8) buf (by omega)
  have hrest : buf.length - 8 * (buf.length / 8) = buf.length % 8 := by omega
  rw [hrest] at hval
  unfold mpzSetRawmagBe
  rw [MpInt.toInt_fixsize, if_neg Bool.false_ne_true, Words.val_append, hlen, hval]
  split
  · have hshort : (buf.take (buf.length % 8)).length ≤ 8 :=
      Nat.le_trans (List.length_take_le _ _) (by omega)
    rw [Words.val_cons, setHigh_spec hshort, Words.val_nil]
    rfl
  · rename_i hnil
    have hempty : buf.take (buf.length % 8) = [] := by
      by_contra hne
      exact hnil hne
    rw [hempty]
    rfl

theorem sign_bit (b : Byte) : b &&& 0x80 ≠ 0 ↔ 128 ≤ b.toNat := by
  have hmsb : b.msb = b.getLsbD 7 := BitVec.msb_eq_getLsbD_last b
  have hmask : b &&& 0x80 ≠ 0 ↔ b.getLsbD 7 = true := by
    constructor
    · intro hne
      by_contra hbit
      apply hne
      apply BitVec.eq_of_getLsbD_eq
      intro i hi
      interval_cases i <;> simp_all
    · intro hbit hzero
      have hseven := congrArg (fun v => BitVec.getLsbD v 7) hzero
      rw [BitVec.getLsbD_and, hbit] at hseven
      exact absurd hseven (by decide)
  rw [hmask, ← hmsb, BitVec.msb_eq_decide]
  simp

theorem mpzSetRaw_spec (past : Byte) (bs : List Byte) : (mpzSetRaw past bs).toInt = twosVal bs := by
  have hval := mpzSetRawmagBe_spec bs
  have hpow : (2 : ℤ) ^ (8 * bs.length) = (256 ^ bs.length : ℕ) := by
    rw [pow_mul]
    push_cast
    norm_num
  cases bs with
  | nil =>
    have hzero : mpzSetRawmagBe [] = MpInt.ofInt 0 := MpInt.toInt_inj rfl
    have hbmod : twosVal [] = 0 := rfl
    unfold mpzSetRaw
    rw [hzero, hbmod]
    dsimp only
    split
    · rw [MpInt.toInt_negSize, MpInt.umod2exp_spec, MpInt.toInt_negSize]
      rfl
    · rfl
  | cons b t =>
    have hlt := bytesVal_lt t
    have hcons : bytesVal (b :: t) = bytesVal t + 256 ^ t.length * b.toNat := by
      have happ := bytesVal_append [b] t
      have hone : bytesVal [b] = b.toNat := by simp [bytesVal]
      rwa [hone] at happ
    have hfull := bytesVal_lt (b :: t)
    have hb : b.toNat < 256 := b.isLt
    have hmod : ((bytesVal (b :: t) : ℕ) : ℤ) % (256 ^ (b :: t).length : ℕ) = bytesVal (b :: t) := by
      apply Int.emod_eq_of_lt (by omega)
      exact_mod_cast hfull
    have hhalf : (b :: t).length = t.length + 1 := rfl
    unfold mpzSetRaw twosVal Int.bmod
    rw [hmod, List.headD_cons]
    by_cases hsign : b &&& 0x80 ≠ 0
    · have hbig := Nat.mul_le_mul_left (256 ^ t.length) ((sign_bit b).mp hsign)
      rw [if_pos hsign, MpInt.toInt_negSize, MpInt.umod2exp_spec, MpInt.toInt_negSize, hval, hpow,
        if_neg (by rw [hhalf, pow_succ]; omega)]
      have hneg : -((bytesVal (b :: t) : ℕ) : ℤ) % (256 ^ (b :: t).length : ℕ) =
          (256 ^ (b :: t).length : ℕ) - bytesVal (b :: t) := by
        rw [Int.emod_eq_iff (by positivity)]
        refine ⟨by omega, ?_, ?_⟩
        · rw [hhalf, pow_succ] at *
          omega
        · exact ⟨1, by ring⟩
      rw [hneg]
      ring
    · have hsmall : b.toNat ≤ 127 := by
        by_contra hbig
        exact hsign ((sign_bit b).mpr (by omega))
      have hle := Nat.mul_le_mul_left (256 ^ t.length) hsmall
      rw [if_neg hsign, hval, if_pos (by rw [hhalf, pow_succ]; omega)]

/-- There is room for the sign bit in the bytes that `mpz_rawsize` promises. -/
theorem two_mul_natAbs_lt {mp : MpInt} {size : ℕ} (h : mpzRawsize mp ≤ size) :
    2 * mp.toInt.natAbs < 256 ^ size := by
  have hlt := Nat.lt_size_self mp.toInt.natAbs
  unfold mpzRawsize at h
  rw [MpInt.sizeinbase2_eq, MpInt.mag_eq] at h
  generalize mp.toInt.natAbs.size = nbits at h hlt
  dsimp only at h
  have hpow : 256 ^ size = 2 ^ (8 * size) := by
    rw [pow_mul]
    rfl
  split at h
  · calc 2 * mp.toInt.natAbs
      _ < 2 * 2 ^ nbits := by omega
      _ = 2 ^ (nbits + 1) := (pow_succ' 2 nbits).symm
      _ ≤ 2 ^ (8 * size) := Nat.pow_le_pow_right (by decide) (by omega)
      _ = 256 ^ size := hpow.symm
  · have hnbits : nbits = 0 := by omega
    have hpos : 0 < 256 ^ size := by positivity
    rw [hnbits, pow_zero] at hlt
    omega

theorem mpzSetRaw_twosBytes {mp : MpInt} {size : ℕ} (h : mpzRawsize mp ≤ size) (past : Byte) :
    mpzSetRaw past (twosBytes size mp.toInt) = mp := by
  have hroom := two_mul_natAbs_lt h
  apply MpInt.toInt_inj
  rw [mpzSetRaw_spec, twosVal_twosBytes]
  apply Int.bmod_eq_of_le <;> omega

/-- `(size + 3) & ~3`. -/
def roundup (size : ℕ) : ℕ := (size + 3) / 4 * 4

theorem toNat_roundup (size : BitVec 32) :
    ((size + 3) &&& ~~~3#32).toNat = roundup size.toNat % 2 ^ 32 := by
  have hsize : size.toNat < 2 ^ 32 := size.isLt
  have hthree : (3 : BitVec 32).toNat = 3 := rfl
  rw [toNat_and_not_three, BitVec.toNat_add, hthree, roundup]
  omega

theorem xdrMpzT_decode (past : Byte) (z : MpInt) {bs pad : List Byte} (rest : List Byte)
    (hshort : bs.length < 2 ^ 31) (hpad : (bs ++ pad).length = roundup bs.length) :
    ∃ z', xdrMpzT past (.decode (htonl (BitVec.ofNat 32 bs.length) ++ bs ++ pad ++ rest)) z =
        (true, .decode rest, z') ∧ z'.toInt = twosVal bs := by
  have hlen : (BitVec.ofNat 32 bs.length).toNat = bs.length := by
    rw [BitVec.toNat_ofNat]
    omega
  have hround : ((BitVec.ofNat 32 bs.length + 3) &&& ~~~3#32).toNat = (bs ++ pad).length := by
    rw [toNat_roundup, hlen, hpad, roundup]
    omega
  refine ⟨mpzSetRaw (rest.headD past) bs, ?_, mpzSetRaw_spec _ _⟩
  have hsmall : ¬ 2 ^ 31 ≤ bs.length := by omega
  unfold xdrMpzT
  rw [List.append_assoc, List.append_assoc, ← List.append_assoc bs]
  simp only [getint_htonl, hlen, hsmall, if_false, hround, xdrGetbytes_append, List.take_left]

/-- On the wire an integer is a size word and its two's complement bytes, as many as
`mpz_rawsize` promises up to the next multiple of four, and what is decoded is the integer. -/
def OnWire (mp : MpInt) : Prop :=
  ∃ size : BitVec 32, ∀ (past : Byte) (out : List Byte),
    xdrMpzT past (.encode out) mp =
      (true, .encode (out ++ htonl size ++ twosBytes (roundup (mpzRawsize mp)) mp.toInt), mp) ∧
    ∀ (z : MpInt) (rest : List Byte),
      xdrMpzT past
          (.decode (htonl size ++ twosBytes (roundup (mpzRawsize mp)) mp.toInt ++ rest)) z =
        (true, .decode rest, mp)

theorem onWire_iff (mp : MpInt) : OnWire mp ↔ roundup (mpzRawsize mp) < 2 ^ 31 := by
  obtain ⟨word, hword⟩ : ∃ word, word = (BitVec.ofNat 32 (mpzRawsize mp) + 3) &&& ~~~3#32 :=
    ⟨_, rfl⟩
  have hnat : word.toNat = roundup (mpzRawsize mp) % 2 ^ 32 := by
    rw [hword, toNat_roundup, BitVec.toNat_ofNat, roundup, roundup]
    omega
  have henc : ∀ past out, xdrMpzT past (.encode out) mp =
      (true, .encode (out ++ htonl word ++ twosBytes word.toNat mp.toInt), mp) := by
    intro past out
    unfold xdrMpzT
    dsimp only
    rw [← hword, mpzGetRaw_eq]
  have hle : mpzRawsize mp ≤ roundup (mpzRawsize mp) := by
    unfold roundup
    omega
  constructor
  · rintro ⟨size, hwire⟩
    obtain ⟨hwrite, hread⟩ := hwire 0#8 []
    rw [henc, List.nil_append, List.nil_append] at hwrite
    have hout := (XDR.encode.inj (Prod.ext_iff.mp (Prod.ext_iff.mp hwrite).2).1)
    obtain ⟨hsize, hbytes⟩ := List.append_inj hout rfl
    have hsame : word.toNat = roundup (mpzRawsize mp) := by
      rw [← length_twosBytes word.toNat mp.toInt, hbytes, length_twosBytes]
    by_contra hbig
    have hread := hread mp []
    unfold xdrMpzT at hread
    rw [← hsize, List.append_nil] at hread
    simp only [getint_htonl, hsame, Nat.not_lt.mp hbig, if_true] at hread
    exact absurd (Prod.ext_iff.mp hread).1 Bool.false_ne_true
  · intro hshort
    have hsame : word.toNat = roundup (mpzRawsize mp) := by omega
    refine ⟨word, fun past out => ⟨?_, ?_⟩⟩
    · rw [henc, hsame]
    · intro z rest
      have hround : roundup (roundup (mpzRawsize mp)) = roundup (mpzRawsize mp) := by
        unfold roundup
        omega
      obtain ⟨z', hdec, hval⟩ := @xdrMpzT_decode past z
        (twosBytes (roundup (mpzRawsize mp)) mp.toInt) [] rest (by rwa [length_twosBytes])
        (by rw [List.append_nil, length_twosBytes, hround])
      have hz : z' = mp := by
        rw [← mpzSetRaw_twosBytes hle past]
        apply MpInt.toInt_inj
        rw [hval, mpzSetRaw_spec]
      have hofnat : BitVec.ofNat 32 (roundup (mpzRawsize mp)) = word := by
        apply BitVec.eq_of_toNat_eq
        rw [BitVec.toNat_ofNat, hsame]
        omega
      rwa [length_twosBytes, hofnat, List.append_nil, hz] at hdec

/-- An integer that the raw routines and the wire give back, with the bytes it is written as. -/
def RoundTrips (mp : MpInt) : Prop :=
  mpzGetRaw (mpzRawsize mp) mp = twosBytes (mpzRawsize mp) mp.toInt ∧
    (∀ past, mpzSetRaw past (mpzGetRaw (mpzRawsize mp) mp) = mp) ∧ OnWire mp

/-- Bytes are read as their number in two's complement. An integer is written in two's complement
and read again, on the wire exactly where its bytes are no more than an `int32_t` counts. -/
theorem mpz_wire (mp : MpInt) :
    (∀ (past : Byte) (bs : List Byte), (mpzSetRaw past bs).toInt = twosVal bs) ∧
    (∀ (past : Byte) (z : MpInt) (bs pad rest : List Byte), bs.length < 2 ^ 31 →
      (bs ++ pad).length = roundup bs.length →
      ∃ z', xdrMpzT past (.decode (htonl (BitVec.ofNat 32 bs.length) ++ bs ++ pad ++ rest)) z =
        (true, .decode rest, z') ∧ z'.toInt = twosVal bs) ∧
    (RoundTrips mp ↔ roundup (mpzRawsize mp) < 2 ^ 31) := by
  refine ⟨mpzSetRaw_spec, fun past z bs pad rest => xdrMpzT_decode past z rest, ?_⟩
  rw [← onWire_iff]
  constructor
  · exact fun h => h.2.2
  · intro hwire
    refine ⟨mpzGetRaw_eq _ mp, fun past => ?_, hwire⟩
    rw [mpzGetRaw_eq]
    exact mpzSetRaw_twosBytes (Nat.le_refl _) past

theorem mpzRawsize_two_pow (n : ℕ) : mpzRawsize (MpInt.ofInt (2 ^ n)) = (n + 1) / 8 + 1 := by
  have hmag : (MpInt.ofInt (2 ^ n)).mag = 2 ^ n := by
    rw [MpInt.mag_eq, MpInt.toInt_ofInt, Int.natAbs_pow]
    rfl
  unfold mpzRawsize
  rw [MpInt.sizeinbase2_eq, hmag, Nat.size_pow]
  exact if_pos (Nat.succ_ne_zero n)

theorem mpz_wire_short : (∃ z', xdrMpzT 0 (.decode
      (htonl (BitVec.ofNat 32 [0xff#8].length) ++ [0xff#8] ++ [0#8, 0#8, 0#8] ++ [])) (.ofInt 0) =
      (true, .decode [], z') ∧ z'.toInt = twosVal [0xff#8]) ∧
    RoundTrips (.ofInt (2 ^ 7)) := by
  constructor
  · exact (mpz_wire (.ofInt 0)).2.1 0 (.ofInt 0) [0xff#8] [0#8, 0#8, 0#8] [] (by decide) (by decide)
  · apply (mpz_wire _).2.2.mpr
    rw [mpzRawsize_two_pow]
    decide

/-- An integer of 2 ^ 31 bytes and one for the sign is written and not read again. -/
theorem mpz_wire_long : ¬ RoundTrips (.ofInt (2 ^ (2 ^ 34))) := by
  rintro ⟨-, -, hwire⟩
  rw [onWire_iff, mpzRawsize_two_pow, roundup] at hwire
  omega

end Sfslite.Crypt
