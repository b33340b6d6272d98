import Sfslite.Arpc.Bytes
import Sfslite.Async.Msb
import Sfslite.Lib.Gf2Poly

/-!
`rabinpoly.C` and `rabinpoly.h`: words as polynomials over the field of two elements, remainders
and products bit by bit, the step by one byte through a table, and the window of the last bytes.
-/

namespace Sfslite.Crypt

open Sfslite.Arpc (Byte)
open Sfslite.Async (fls64)

abbrev U64 := BitVec 64

/-- `poly`, `shift` and `T` of a `rabinpoly`. -/
structure Rabinpoly where
  poly : U64
  shift : ℤ
  T : List U64

namespace Rabinpoly

/-- The loop of `polymod` over the high word, for the bits from `i - 1` down. -/
def highLoop (d : U64) : (i : ℕ) → U64 → U64 → U64 × U64
  | 0, nh, nl => (nh, nl)
  | i + 1, nh, nl =>
    if nh.getLsbD i then highLoop d i (nh ^^^ d >>> (63 - i)) (nl ^^^ d <<< (i + 1))
    else highLoop d i nh nl

/-- Its loop over the low word, from bit `i - 1` down to bit `k`. -/
def lowLoop (d : U64) (k : ℕ) : (i : ℕ) → U64 → U64
  | 0, nl => nl
  | i + 1, nl =>
    if i < k then nl
    else if nl.getLsbD i then lowLoop d k i (nl ^^^ d >>> (63 - i))
    else lowLoop d k i nl

/-- `polymod`; with zero for `d` it would shift by the size of a word. -/
def polymod (nh nl d : U64) : Option U64 :=
  if d = 0 then none
  else
    let k := fls64 d - 1
    let d := d <<< (63 - k)
    let nl :=
      if nh = 0 then nl
      else
        let nh := if nh.getLsbD 63 then nh ^^^ d else nh
        (highLoop d 63 nh nl).2
    some (lowLoop d k 64 nl)

/-- `ph` and `pl` of `polymult` behind the passes of its loop up to `i`. -/
def multLoop (x y : U64) : (i : ℕ) → U64 × U64
  | 0 => (0, if x.getLsbD 0 then y else 0)
  | i + 1 =>
    let (ph, pl) := multLoop x y i
    if x.getLsbD (i + 1) then (ph ^^^ y >>> (64 - (i + 1)), pl ^^^ y <<< (i + 1)) else (ph, pl)

def polymult (x y : U64) : U64 × U64 := multLoop x y 63

def polymmult (x y d : U64) : Option U64 :=
  let (h, l) := polymult x y
  polymod h l d

/-- The entry `T[j]` that `calcT` makes. -/
def entry (poly T1 : U64) (xshift j : ℕ) : Option U64 := do
  let t ← polymmult (BitVec.ofNat 64 j) T1 poly
  some (t ||| BitVec.ofNat 64 j <<< xshift)

/-- The constructor, with `calcT`. -/
def new (poly : U64) : Option Rabinpoly := do
  let xshift := fls64 poly - 1
  let T1 ← polymod 0 ((1 : U64) <<< xshift) poly
  let T ← (List.range 256).mapM (entry poly T1 xshift)
  some { poly := poly, shift := xshift - 8, T := T }

/-- `append8`; `none` where the shift is negative or the index is behind the table. -/
def append8 (r : Rabinpoly) (p : U64) (m : Byte) : Option U64 :=
  if r.shift < 0 then none
  else do
    let t ← r.T[(p >>> r.shift.toNat).toNat]?
    some ((p <<< 8 ||| m.setWidth 64) ^^^ t)

end Rabinpoly

/-- A `window`; `bufpos` starts at -1. -/
structure Window extends Rabinpoly where
  fingerprint : U64
  bufpos : ℤ
  U : List U64
  buf : List Byte

namespace Window

/-- `window::size` -/
def size : ℕ := 48

/-- `sizeshift` behind `n` passes of the loop. -/
def sizeshift (r : Rabinpoly) : (n : ℕ) → Option U64
  | 0 => some 1
  | n + 1 => do
      let shifted ← sizeshift r n
      r.append8 shifted 0

def new (poly : U64) : Option Window := do
  let r ← Rabinpoly.new poly
  let shifted ← sizeshift r (size - 1)
  let U ← (List.range 256).mapM fun i => Rabinpoly.polymmult (BitVec.ofNat 64 i) shifted poly
  some { toRabinpoly := r, fingerprint := 0, bufpos := -1, U := U, buf := List.replicate size 0 }

def slide8 (w : Window) (m : Byte) : Option Window := do
  let bufpos := if size ≤ w.bufpos + 1 then 0 else w.bufpos + 1
  let om ← w.buf[bufpos.toNat]?
  let out ← w.U[om.toNat]?
  let fingerprint ← w.append8 (w.fingerprint ^^^ out) m
  some { w with fingerprint := fingerprint, bufpos := bufpos, buf := w.buf.set bufpos.toNat m }

def reset (w : Window) : Window :=
  { w with fingerprint := 0, buf := List.replicate size 0 }

end Window

namespace Rabinpoly

open Polynomial
open Sfslite.Lib.Gf2Poly

variable {d nh nl x y : U64} {q : (ZMod 2)[X]}

theorem xor_lt {u v : U64} {i : ℕ} (hu : u.getLsbD i = true) (hv : v.getLsbD i = true)
    (hult : u.toNat < 2 ^ (i + 1)) (hvlt : v.toNat < 2 ^ (i + 1)) : (u ^^^ v).toNat < 2 ^ i := by
  apply Nat.lt_pow_two_of_testBit
  intro n hn
  rw [BitVec.toNat_xor, Nat.testBit_xor]
  rcases Nat.eq_or_lt_of_le hn with rfl | hlt
  · have hu' : u.toNat.testBit i = true := hu
    have hv' : v.toNat.testBit i = true := hv
    rw [hu', hv']
    rfl
  · have hpow := Nat.pow_le_pow_right (show 0 < 2 by decide) hlt
    rw [Nat.testBit_lt_two_pow (Nat.lt_of_lt_of_le hult hpow),
      Nat.testBit_lt_two_pow (Nat.lt_of_lt_of_le hvlt hpow)]
    rfl

theorem lt_of_getLsbD {u : U64} {i : ℕ} (hu : ¬ u.getLsbD i = true) (hlt : u.toNat < 2 ^ (i + 1)) :
    u.toNat < 2 ^ i := by
  apply Nat.lt_pow_two_of_testBit
  intro n hn
  rcases Nat.eq_or_lt_of_le hn with rfl | hgt
  · exact Bool.eq_false_iff.mpr hu
  · exact Nat.testBit_lt_two_pow (Nat.lt_of_lt_of_le hlt
      (Nat.pow_le_pow_right (by decide) hgt))

theorem shiftRight_lt (d : U64) {i : ℕ} (hi : i < 64) : (d >>> (63 - i)).toNat < 2 ^ (i + 1) := by
  rw [BitVec.toNat_ushiftRight, Nat.shiftRight_eq_div_pow, Nat.div_lt_iff_lt_mul (by positivity),
    ← Nat.pow_add]
  have hexp : i + 1 + (63 - i) = 64 := by
    omega
  rw [hexp]
  exact d.isLt

theorem highLoop_spec {c : (ZMod 2)[X]} (hq : q.Monic) (hd : ofWord d = c * q)
    (htop : d.getLsbD 63 = true) (i : ℕ) (hi : i ≤ 63) (nh nl : U64) (hnh : nh.toNat < 2 ^ i) :
    ofWord (highLoop d i nh nl).2 %ₘ q = (X ^ 64 * ofWord nh + ofWord nl) %ₘ q := by
  induction i generalizing nh nl with
  | zero =>
    have hzero : nh = 0#64 := BitVec.eq_of_toNat_eq (Nat.lt_one_iff.mp hnh)
    rw [highLoop, hzero, ofWord_zero, mul_zero, zero_add]
  | succ i ih =>
    rw [highLoop]
    split_ifs with hbit
    · have hsame : (d >>> (63 - i)).getLsbD i = true := by
        have hindex : 63 - i + i = 63 := by
          omega
        rw [BitVec.getLsbD_ushiftRight, hindex]
        exact htop
      rw [ih (by omega) _ _ (xor_lt hbit hsame hnh (shiftRight_lt d (by omega))), ofWord_xor,
        ofWord_xor]
      have hsplit := ofWord_shift d (s := i + 1) (by omega)
      have hindex : 64 - (i + 1) = 63 - i := by
        omega
      rw [hindex, hd, ← mul_assoc] at hsplit
      have hsum : X ^ 64 * (ofWord nh + ofWord (d >>> (63 - i))) +
          (ofWord nl + ofWord (d <<< (i + 1))) =
            X ^ 64 * ofWord nh + ofWord nl + X ^ (i + 1) * c * q := by
        rw [← hsplit]
        ring
      rw [hsum, add_mul_mod hq]
    · exact ih (by omega) nh nl (lt_of_getLsbD hbit hnh)

theorem lowLoop_spec {k : ℕ} (hk : k ≤ 63) (htop : d.getLsbD k = true)
    (hlt : d.toNat < 2 ^ (k + 1)) (i : ℕ) (hi : i ≤ 64) (nl : U64) (hnl : nl.toNat < 2 ^ i) :
    ofWord (lowLoop (d <<< (63 - k)) k i nl) %ₘ ofWord d = ofWord nl %ₘ ofWord d ∧
      (lowLoop (d <<< (63 - k)) k i nl).toNat < 2 ^ k := by
  obtain ⟨hq, -⟩ := monic_ofWord htop hlt
  induction i generalizing nl with
  | zero => exact ⟨rfl, Nat.lt_of_lt_of_le hnl (Nat.pow_le_pow_right (by decide) (Nat.zero_le k))⟩
  | succ i ih =>
    rw [lowLoop]
    split_ifs with hend hbit
    · exact ⟨rfl, Nat.lt_of_lt_of_le hnl (Nat.pow_le_pow_right (by decide) hend)⟩
    · -- the divisor, with its highest bit at bit `i`
      have hshift : (d <<< (63 - k)) >>> (63 - i) = d <<< (i - k) := by
        apply BitVec.eq_of_getLsbD_eq
        intro n hn
        rw [BitVec.getLsbD_ushiftRight, BitVec.getLsbD_shiftLeft, BitVec.getLsbD_shiftLeft]
        rcases Nat.lt_or_ge n (i + 1) with hlow | hhigh
        · rcases Nat.lt_or_ge n (i - k) with hbelow | habove
          · have h₁ : 63 - i + n < 63 - k := by
              omega
            simp [h₁, hbelow]
          · have h₁ : ¬ 63 - i + n < 63 - k := by
              omega
            have h₂ : 63 - i + n - (63 - k) = n - (i - k) := by
              omega
            have h₃ : 63 - i + n < 64 := by
              omega
            simp [h₁, h₂, h₃, Nat.not_lt.mpr habove, hn]
        · have h₁ : ¬ 63 - i + n < 64 := by
            omega
          have h₂ : d.getLsbD (n - (i - k)) = false :=
            Nat.testBit_lt_two_pow (Nat.lt_of_lt_of_le hlt
              (Nat.pow_le_pow_right (by decide) (by omega)))
          simp [h₁, h₂]
      have hfit : d.toNat < 2 ^ (64 - (i - k)) :=
        Nat.lt_of_lt_of_le hlt (Nat.pow_le_pow_right (by decide) (by omega))
      have hmul := ofWord_shiftLeft (s := i - k) (by omega) hfit
      have hsame : (d <<< (i - k)).getLsbD i = true := by
        have hindex : i - (i - k) = k := by
          omega
        rw [BitVec.getLsbD_shiftLeft, hindex, htop]
        simp
        omega
      have hbelow := shiftRight_lt (d <<< (63 - k)) (show i < 64 by omega)
      rw [hshift] at hbelow ⊢
      obtain ⟨hmod, hdeg⟩ := ih (by omega) _ (xor_lt hbit hsame hnl hbelow)
      refine ⟨?_, hdeg⟩
      rw [hmod, ofWord_xor, hmul, add_mul_mod hq]
    · exact ih (by omega) nl (lt_of_getLsbD hbit hnl)

theorem degree_fls64 (hd : d ≠ 0) : d.getLsbD (fls64 d - 1) = true ∧
    d.toNat < 2 ^ (fls64 d - 1 + 1) ∧ fls64 d - 1 ≤ 63 := by
  rw [Sfslite.Async.fls64_eq_size]
  have hne : d.toNat ≠ 0 := fun h => hd (BitVec.eq_of_toNat_eq h)
  have hpos : 0 < d.toNat.size := Nat.size_pos.mpr (Nat.pos_of_ne_zero hne)
  have hsize : d.toNat.size ≤ 64 := Nat.size_le.mpr d.isLt
  refine ⟨(Sfslite.Async.testBit_size_pred hne).2, ?_, by omega⟩
  rw [Nat.sub_add_cancel hpos]
  exact Nat.lt_size_self _

theorem polymod_spec (hd : d ≠ 0) (nh nl : U64) :
    ∃ r, polymod nh nl d = some r ∧
      ofWord r = (X ^ 64 * ofWord nh + ofWord nl) %ₘ ofWord d := by
  obtain ⟨htop, hlt, hk⟩ := degree_fls64 hd
  generalize hdeg : fls64 d - 1 = k at htop hlt hk
  obtain ⟨hq, hdegree⟩ := monic_ofWord htop hlt
  have hfit : d.toNat < 2 ^ (64 - (63 - k)) :=
    Nat.lt_of_lt_of_le hlt (Nat.pow_le_pow_right (by decide) (by omega))
  have hmul := ofWord_shiftLeft (s := 63 - k) (by omega) hfit
  have htop63 : (d <<< (63 - k)).getLsbD 63 = true := by
    have hindex : 63 - (63 - k) = k := by
      omega
    rw [BitVec.getLsbD_shiftLeft, hindex, htop]
    simp
  rw [polymod, if_neg hd, hdeg]
  dsimp only
  generalize hlow : (if nh = 0 then nl else
    (highLoop (d <<< (63 - k)) 63 (if nh.getLsbD 63 then nh ^^^ d <<< (63 - k) else nh) nl).2) = l
  have hhigh : ofWord l %ₘ ofWord d = (X ^ 64 * ofWord nh + ofWord nl) %ₘ ofWord d := by
    rw [← hlow]
    split_ifs with hzero hbit
    · rw [hzero]
      simp
    · -- bit 127 goes first
      rw [highLoop_spec hq hmul htop63 63 (Nat.le_refl _) _ _ (xor_lt hbit htop63 nh.isLt
        (BitVec.isLt _)), ofWord_xor, hmul]
      have hsum : X ^ 64 * (ofWord nh + X ^ (63 - k) * ofWord d) + ofWord nl =
          X ^ 64 * ofWord nh + ofWord nl + X ^ 64 * X ^ (63 - k) * ofWord d := by
        ring
      rw [hsum, add_mul_mod hq]
    · exact highLoop_spec hq hmul htop63 63 (Nat.le_refl _) _ _ (lt_of_getLsbD hbit nh.isLt)
  obtain ⟨hmod, hsmall⟩ := lowLoop_spec hk htop hlt 64 (Nat.le_refl _) l l.isLt
  generalize lowLoop (d <<< (63 - k)) k 64 l = r at hmod hsmall ⊢
  have hself : ofWord r %ₘ ofWord d = ofWord r := by
    rw [modByMonic_eq_self_iff hq, hdegree]
    exact degree_ofWord_lt.mpr hsmall
  exact ⟨r, rfl, (hself.symm.trans hmod).trans hhigh⟩

theorem polymult_spec (x y : U64) :
    X ^ 64 * ofWord (polymult x y).1 + ofWord (polymult x y).2 = ofWord x * ofWord y := by
  have hloop : ∀ i, i < 64 → X ^ 64 * ofWord (multLoop x y i).1 + ofWord (multLoop x y i).2 =
      ofBits x (i + 1) * ofWord y := by
    intro i hi
    induction i with
    | zero =>
      rw [multLoop]
      rw [ofBits_succ]
      split_ifs with hbit
      · simp [ofBits]
      · simp [ofBits]
    | succ i ih =>
      rw [multLoop, ofBits_succ, add_mul, ← ih (by omega)]
      dsimp only
      split_ifs with hbit
      · rw [ofWord_xor, ofWord_xor, ← ofWord_shift y (s := i + 1) (by omega)]
        ring
      · rw [zero_mul, add_zero]
  rw [polymult]
  exact hloop 63 (Nat.lt_succ_self 63)

theorem polymmult_spec (hd : d ≠ 0) (x y : U64) :
    ∃ r, polymmult x y d = some r ∧ ofWord r = (ofWord x * ofWord y) %ₘ ofWord d := by
  rw [← polymult_spec x y, polymmult]
  generalize polymult x y = hl
  exact polymod_spec hd hl.1 hl.2

/-- A polynomial of degree at least 8, and its table: the remainder of `j * x^xshift`, with `j`
itself above it as far as the word goes. -/
structure Ready (r : Rabinpoly) : Prop where
  poly_ge : 0x100 ≤ r.poly.toNat
  shift_eq : r.shift = (fls64 r.poly - 1 : ℕ) - 8
  table : ∀ j, j < 256 → ∃ t, r.T[j]? = some t ∧
    ofWord t = (ofWord (BitVec.ofNat 64 j) * X ^ (fls64 r.poly - 1)) %ₘ ofWord r.poly +
      ofWord (BitVec.ofNat 64 j <<< (fls64 r.poly - 1))

theorem Ready.poly_ne_zero {r : Rabinpoly} (h : Ready r) : r.poly ≠ 0 := by
  intro hzero
  have hge := h.poly_ge
  rw [hzero] at hge
  exact absurd hge (by decide)

theorem mapM_spec {α β : Type} {f : α → Option β} (l : List α) (h : ∀ a ∈ l, ∃ b, f a = some b) :
    ∃ l' : List β, l.mapM f = some l' ∧ ∀ i : ℕ, l'[i]? = l[i]?.bind f := by
  induction l with
  | nil => exact ⟨[], rfl, fun _ => rfl⟩
  | cons a l ih =>
    obtain ⟨b, hb⟩ := h a List.mem_cons_self
    obtain ⟨l', hl', hread⟩ := ih fun c hc => h c (List.mem_cons_of_mem a hc)
    refine ⟨b :: l', by rw [List.mapM_cons, hb, hl']; rfl, fun i => ?_⟩
    cases i with
    | zero => exact hb.symm
    | succ i => exact hread i

theorem mapM_range {β : Type} {f : ℕ → Option β} (n : ℕ) (h : ∀ j, j < n → ∃ t, f j = some t) :
    ∃ l : List β, (List.range n).mapM f = some l ∧ ∀ j, j < n → l[j]? = f j := by
  obtain ⟨l, hl, hread⟩ := mapM_spec (List.range n) fun j hj => h j (List.mem_range.mp hj)
  refine ⟨l, hl, fun j hj => ?_⟩
  rw [hread, List.getElem?_range hj]
  rfl

theorem entry_spec {poly T1 : U64} (hpoly : poly ≠ 0)
    (hT1 : ofWord T1 = X ^ (fls64 poly - 1) %ₘ ofWord poly) (j : ℕ) :
    ∃ t, entry poly T1 (fls64 poly - 1) j = some t ∧
      ofWord t = (ofWord (BitVec.ofNat 64 j) * X ^ (fls64 poly - 1)) %ₘ ofWord poly +
        ofWord (BitVec.ofNat 64 j <<< (fls64 poly - 1)) := by
  obtain ⟨htop, hlt, hk⟩ := degree_fls64 hpoly
  obtain ⟨hq, hdegree⟩ := monic_ofWord htop hlt
  obtain ⟨t, ht, hmod⟩ := polymmult_spec hpoly (BitVec.ofNat 64 j) T1
  rw [hT1, mul_mod hq] at hmod
  refine ⟨t ||| BitVec.ofNat 64 j <<< (fls64 poly - 1), by rw [entry, ht]; rfl, ?_⟩
  have hsmall : t.toNat < 2 ^ (fls64 poly - 1) := by
    rw [← degree_ofWord_lt, hmod, ← hdegree]
    exact degree_modByMonic_lt _ hq
  rw [ofWord_or, hmod]
  intro n hbit
  have hn : n < fls64 poly - 1 := by
    by_contra hge
    rw [BitVec.getLsbD, Nat.testBit_lt_two_pow (Nat.lt_of_lt_of_le hsmall
      (Nat.pow_le_pow_right (by decide) (Nat.not_lt.mp hge)))] at hbit
    exact absurd hbit (by decide)
  simp [hn]

theorem new_spec {poly : U64} (h : 0x100 ≤ poly.toNat) :
    ∃ r, new poly = some r ∧ r.poly = poly ∧ Ready r := by
  have hpoly : poly ≠ 0 := by
    rintro rfl
    exact absurd h (by decide)
  obtain ⟨htop, hlt, hk⟩ := degree_fls64 hpoly
  obtain ⟨T1, hT1, hmod⟩ := polymod_spec hpoly 0 ((1 : U64) <<< (fls64 poly - 1))
  have hone : ofWord (1 : U64) = 1 := by
    ext n
    rw [coeff_ofWord, coeff_one]
    cases n with
    | zero => rfl
    | succ n => simp
  have hpow : ofWord ((1 : U64) <<< (fls64 poly - 1)) = X ^ (fls64 poly - 1) := by
    rw [ofWord_shiftLeft (by omega), hone, mul_one]
    exact Nat.lt_of_lt_of_le (show 1 < 2 ^ 1 by decide)
      (Nat.pow_le_pow_right (by decide) (by omega))
  have hzero : ofWord (0 : U64) = 0 := ofWord_zero
  rw [hzero, mul_zero, zero_add, hpow] at hmod
  obtain ⟨T, hT, hread⟩ := mapM_range 256 fun j _ =>
    (entry_spec hpoly hmod j).imp fun _ ht => ht.1
  refine ⟨⟨poly, (fls64 poly - 1 : ℕ) - 8, T⟩, ?_, rfl, h, rfl, fun j hj => ?_⟩
  · rw [new, hT1]
    simp only [Option.bind_eq_bind, Option.bind_some, hT]
  · obtain ⟨t, ht, hval⟩ := entry_spec hpoly hmod j
    dsimp only
    refine ⟨t, ?_, hval⟩
    rw [hread j hj, ht]

/-- A reduced word is its highest byte `j` above the rest. Where a shift by a byte pushes bits of
`j` out, so does the shift of `j` itself. -/
theorem exists_low {p j : U64} {k : ℕ} (hk8 : 8 ≤ k) (hk : k ≤ 63) (hp : p.toNat < 2 ^ k)
    (hj : p >>> (k - 8) = j) :
    j.toNat < 256 ∧ ∃ low : U64, low.toNat < 2 ^ (k - 8) ∧
      ofWord p = ofWord low + X ^ (k - 8) * ofWord j ∧
      ofWord (p <<< 8) + ofWord (j <<< k) = X ^ 8 * ofWord low := by
  have hjlt : j.toNat < 256 := by
    rw [← hj, BitVec.toNat_ushiftRight, Nat.shiftRight_eq_div_pow,
      Nat.div_lt_iff_lt_mul (by positivity)]
    have hpow : 256 * 2 ^ (k - 8) = 2 ^ k := by
      rw [show 256 = 2 ^ 8 by rfl, ← Nat.pow_add, Nat.add_sub_cancel' hk8]
    rwa [hpow]
  have hlow : (p ^^^ j <<< (k - 8)).toNat < 2 ^ (k - 8) := by
    apply Nat.lt_pow_two_of_testBit
    intro n hn
    have hindex : k - 8 + (n - (k - 8)) = n := by
      omega
    have hbit : (p ^^^ j <<< (k - 8)).getLsbD n = false := by
      rw [← hj, BitVec.getLsbD_xor, BitVec.getLsbD_shiftLeft, BitVec.getLsbD_ushiftRight, hindex]
      rcases Nat.lt_or_ge n 64 with hlt64 | hge64
      · simp [hlt64, Nat.not_lt.mpr hn]
      · simp only [Nat.not_lt.mpr hge64, decide_false, Bool.false_and, Bool.xor_false]
        exact BitVec.getLsbD_of_ge p n hge64
    exact hbit
  have hjmul : ofWord (j <<< (k - 8)) = X ^ (k - 8) * ofWord j :=
    ofWord_shiftLeft (by omega) (Nat.lt_of_lt_of_le (show j.toNat < 2 ^ 8 from hjlt)
      (Nat.pow_le_pow_right (by decide) (by omega)))
  refine ⟨hjlt, p ^^^ j <<< (k - 8), hlow, ?_, ?_⟩
  · rw [ofWord_xor, hjmul, add_assoc, CharTwo.add_self_eq_zero, add_zero]
  · have hword : (p ^^^ j <<< (k - 8)) <<< 8 = p <<< 8 ^^^ j <<< k := by
      rw [BitVec.shiftLeft_xor_distrib, ← BitVec.shiftLeft_add, Nat.sub_add_cancel hk8]
    rw [← ofWord_shiftLeft (by decide) (Nat.lt_of_lt_of_le hlow
      (Nat.pow_le_pow_right (by decide) (by omega))), hword, ofWord_xor]

theorem ofWord_or_byte (p : U64) (m : Byte) :
    ofWord (p <<< 8 ||| m.setWidth 64) = ofWord (p <<< 8) + ofWord m := by
  rw [ofWord_or, ofWord_setWidth m (by decide)]
  intro n hn
  rw [BitVec.getLsbD_shiftLeft] at hn
  rcases Nat.lt_or_ge n 8 with hlt8 | hge8
  · simp [hlt8] at hn
  · rw [BitVec.getLsbD_setWidth, BitVec.getLsbD_of_ge m n hge8, Bool.and_false]

/-- A step by one byte is a product with `x^8`, a sum and a remainder. -/
theorem Ready.append8 {r : Rabinpoly} (h : Ready r) {p : U64}
    (hp : (ofWord p).degree < (ofWord r.poly).degree) (m : Byte) :
    ∃ s, r.append8 p m = some s ∧ ofWord s = (ofWord p * X ^ 8 + ofWord m) %ₘ ofWord r.poly := by
  have hpoly : r.poly ≠ 0 := h.poly_ne_zero
  obtain ⟨htop, hlt, hk⟩ := degree_fls64 hpoly
  obtain ⟨hq, hdegree⟩ := monic_ofWord htop hlt
  have hshift := h.shift_eq
  have htable := h.table
  generalize fls64 r.poly - 1 = k at *
  have hk8 : 8 ≤ k := by
    by_contra hlow
    have hpow : 2 ^ (k + 1) ≤ 2 ^ 8 := Nat.pow_le_pow_right (by decide) (by omega)
    have hge := h.poly_ge
    omega
  rw [hdegree, degree_ofWord_lt] at hp
  generalize hj : p >>> (k - 8) = j
  obtain ⟨hjlt, low, hlow, hsplit, hout⟩ := exists_low hk8 hk hp hj
  obtain ⟨t, ht, hval⟩ := htable j.toNat hjlt
  rw [BitVec.ofNat_toNat, BitVec.setWidth_eq] at hval
  have hpow : (X : (ZMod 2)[X]) ^ k = X ^ (k - 8) * X ^ 8 := by
    rw [← pow_add, Nat.sub_add_cancel hk8]
  refine ⟨(p <<< 8 ||| m.setWidth 64) ^^^ t, ?_, ?_⟩
  · have hnat : r.shift.toNat = k - 8 := by
      omega
    rw [Rabinpoly.append8, if_neg (by omega), hnat, hj, ht]
    rfl
  · have hleft : ofWord ((p <<< 8 ||| m.setWidth 64) ^^^ t) =
        X ^ 8 * ofWord low + ofWord m + (ofWord j * X ^ k) %ₘ ofWord r.poly := by
      rw [ofWord_xor, ofWord_or_byte, hval, ← hout]
      ring
    have hright : ofWord p * X ^ 8 + ofWord m =
        X ^ 8 * ofWord low + ofWord m + ofWord j * X ^ k := by
      rw [hsplit, hpow]
      ring
    rw [hleft, hright, ← add_mod hq]
    refine ((modByMonic_eq_self_iff hq).mpr ?_).symm
    have hdeglow : (X ^ 8 * ofWord low).degree < (k : WithBot ℕ) := by
      rw [← ofWord_shiftLeft (by decide) (Nat.lt_of_lt_of_le hlow
        (Nat.pow_le_pow_right (by decide) (by omega))), degree_ofWord_lt, BitVec.toNat_shiftLeft,
        Nat.shiftLeft_eq]
      refine Nat.lt_of_le_of_lt (Nat.mod_le _ _) ?_
      have hnat : 2 ^ k = 2 ^ (k - 8) * 2 ^ 8 := by
        rw [← Nat.pow_add, Nat.sub_add_cancel hk8]
      rw [hnat]
      exact Nat.mul_lt_mul_of_pos_right hlow (by decide)
    have hdegm : (ofWord m).degree < (k : WithBot ℕ) :=
      degree_ofWord_lt.mpr (Nat.lt_of_lt_of_le m.isLt (Nat.pow_le_pow_right (by decide) hk8))
    have hdegmod := degree_modByMonic_lt (ofWord j * X ^ k) hq
    rw [hdegree] at hdegmod ⊢
    exact lt_of_le_of_lt (degree_add_le _ _)
      (max_lt (lt_of_le_of_lt (degree_add_le _ _) (max_lt hdeglow hdegm)) hdegmod)

end Rabinpoly

end Sfslite.Crypt
