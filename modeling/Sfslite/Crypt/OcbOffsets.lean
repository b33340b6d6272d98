import Sfslite.Crypt.OcbRoundTrip
import Sfslite.Lib.Gf128

/-!
The offsets of the blocks. The table holds the multiples of `L` by the powers of `x`, and a
block's index into it comes from the 64-bit `ffs`, which is not the number of trailing zeros.
-/

namespace Sfslite.Crypt

open Sfslite.Arpc (Byte)
open Sfslite.Async
open Sfslite.Lib

theorem bytesVal_cons (b : Byte) (bs : List Byte) :
    bytesVal (b :: bs) = bytesVal bs + 256 ^ bs.length * b.toNat := by
  have happ := bytesVal_append [b] bs
  have hone : bytesVal [b] = b.toNat := by simp [bytesVal]
  rwa [hone] at happ

theorem bytesVal_concat (bs : List Byte) (b : Byte) :
    bytesVal (bs ++ [b]) = 2 ^ 8 * bytesVal bs + b.toNat := by
  have happ := bytesVal_append bs [b]
  have hone : bytesVal [b] = b.toNat := by simp [bytesVal]
  rw [happ, hone, List.length_singleton, pow_one, Nat.add_comm]
  rfl

namespace Blk

theorem shift_byte : ∀ (b : Byte) (carryin : Bool),
    (b <<< 1 ||| if carryin then 1 else 0).toNat + 256 * b.msb.toNat =
      2 * b.toNat + carryin.toNat := by decide

theorem lshiftBytes_spec (bs : List Byte) :
    (lshiftBytes bs).1.length = bs.length ∧
      bytesVal (lshiftBytes bs).1 + 256 ^ bs.length * (lshiftBytes bs).2.toNat =
        2 * bytesVal bs := by
  induction bs with
  | nil => exact ⟨rfl, rfl⟩
  | cons b bs ih =>
    obtain ⟨hlen, hval⟩ := ih
    have hbyte := shift_byte b (lshiftBytes bs).2
    refine ⟨congrArg Nat.succ hlen, ?_⟩
    rw [lshiftBytes, bytesVal_cons, bytesVal_cons, hlen, List.length_cons, pow_succ]
    calc _ = bytesVal (lshiftBytes bs).1 + 256 ^ bs.length *
          ((b <<< 1 ||| if (lshiftBytes bs).2 then 1 else 0).toNat + 256 * b.msb.toNat) := by ring
      _ = 2 * bytesVal bs + 256 ^ bs.length * (2 * b.toNat) := by rw [hbyte, ← hval]; ring
      _ = _ := by ring

theorem ofBytes_modifyLast {bs : List Byte} (h : bs ≠ []) (x : Byte) :
    ofBytes (bs.modifyLast (· ^^^ x)) = ofBytes bs ^^^ x.setWidth 128 := by
  obtain ⟨init, b, rfl⟩ : ∃ init b, bs = init ++ [b] :=
    ⟨bs.dropLast, bs.getLast h, (List.dropLast_append_getLast h).symm⟩
  have hb : b.toNat < 2 ^ 8 := b.isLt
  have hbx : (b ^^^ x).toNat < 2 ^ 8 := (b ^^^ x).isLt
  rw [List.modifyLast_concat, ofBytes, ofBytes, bytesVal_concat, bytesVal_concat]
  apply BitVec.eq_of_getLsbD_eq
  intro i hi
  rw [BitVec.getLsbD_xor, BitVec.getLsbD_ofNat, BitVec.getLsbD_ofNat, BitVec.getLsbD_setWidth,
    Nat.testBit_two_pow_mul_add _ hb, Nat.testBit_two_pow_mul_add _ hbx]
  split
  · simp [hi, BitVec.testBit_toNat]
  · rename_i hi8
    rw [BitVec.getLsbD_of_ge x i (by omega)]
    simp [hi]

theorem lshift_eq_double (s : Blk) : s.lshift = Gf128.double s := by
  obtain ⟨hlen, hval⟩ := lshiftBytes_spec s.c
  have hlt := bytesVal_lt (lshiftBytes s.c).1
  have hpow : 256 ^ nc = 2 ^ 128 := rfl
  rw [hlen, length_c, hpow] at hlt
  rw [length_c, bytesVal_c, hpow] at hval
  have hslt : s.toNat < 2 ^ 128 := s.isLt
  have hmsb : (lshiftBytes s.c).2 = s.msb := by
    rw [BitVec.msb_eq_decide]
    cases hcarry : (lshiftBytes s.c).2 with
    | false =>
      rw [hcarry, Bool.toNat_false] at hval
      simp only [Bool.false_eq, decide_eq_false_iff_not]
      omega
    | true =>
      rw [hcarry, Bool.toNat_true] at hval
      simp only [Bool.true_eq, decide_eq_true_eq]
      omega
  have hshift : ofBytes (lshiftBytes s.c).1 = s <<< 1 := by
    apply BitVec.eq_of_toNat_eq
    rw [ofBytes, BitVec.toNat_ofNat, BitVec.toNat_shiftLeft, Nat.shiftLeft_eq]
    omega
  have hne : (lshiftBytes s.c).1 ≠ [] := by
    intro hnil
    rw [hnil, length_c] at hlen
    exact absurd hlen (by decide)
  unfold lshift Gf128.double
  dsimp only
  rw [hmsb, ← hshift]
  cases s.msb
  · simp
  · rw [if_pos rfl, if_pos rfl, ofBytes_modifyLast hne]
    rfl

end Blk

namespace Ocb

section

variable {mms nonce : BitVec 64} {k : Aes} {len : ℕ} {r : Blk}

def gray (i : ℕ) : ℕ := i ^^^ (i >>> 1)

/-- What the offsets of the blocks of a text of a length are for: that of block `i` is `R` and
`gray(i) * L`, and no two are the same if `L` is not zero. -/
def GrayOffsets (k : Aes) (mms nonce : BitVec 64) (len : ℕ) : Prop :=
  (∀ i, 0 < i → i ≤ fullBlocks len + 1 →
    offset (setkey mms k) (startOf k nonce) i =
      startOf k nonce ^^^ Gf128.mul (gray i) (k.encipher 0#128)) ∧
  (k.encipher 0#128 ≠ 0#128 → ∀ i j, 0 < i → i < j → j ≤ fullBlocks len + 1 →
    offset (setkey mms k) (startOf k nonce) i ≠ offset (setkey mms k) (startOf k nonce) j)

/-- The table entry of a block, as the power of `x` that its `ffs` names. -/
theorem offset_succ {j : ℕ} (hlen : len ≤ mms.toNat) (hj : j + 1 ≤ fullBlocks len + 1) (r : Blk) :
    offset (setkey mms k) r (j + 1) = offset (setkey mms k) r j ^^^
      Gf128.double^[ffs64 (BitVec.ofNat 64 (j + 1)) - 1] (k.encipher 0#128) := by
  have hshift : Blk.lshift = Gf128.double := funext Blk.lshift_eq_double
  rw [offset, (lFfs_setkey hlen (Nat.succ_pos j) hj).2, Option.getD_some, hshift]

theorem offset_one (hlen : len ≤ mms.toNat) (r : Blk) :
    offset (setkey mms k) r 1 = r ^^^ k.encipher 0#128 :=
  offset_succ hlen (Nat.succ_le_succ (Nat.zero_le _)) r

theorem offset_two (hlen : len ≤ mms.toNat) (h : 2 ≤ fullBlocks len + 1) (r : Blk) :
    offset (setkey mms k) r 2 =
      r ^^^ k.encipher 0#128 ^^^ Gf128.double (k.encipher 0#128) := by
  have hffs : ffs64 (BitVec.ofNat 64 (1 + 1)) = 2 := by decide
  rw [offset_succ hlen h, offset_one hlen, hffs]
  rfl

/-- The 64-bit `ffs` of 3 is 2, so that the third block takes `x * L` away again. -/
theorem offset_three (hlen : len ≤ mms.toNat) (h : 3 ≤ fullBlocks len + 1) (r : Blk) :
    offset (setkey mms k) r 3 = offset (setkey mms k) r 1 := by
  have hffs : ffs64 (BitVec.ofNat 64 (2 + 1)) = 2 := by decide
  rw [offset_succ hlen h, offset_two hlen (by omega), offset_one hlen, hffs]
  exact xor_cancel_right _ _

theorem mul_gray (v : Gf128.Word) : Gf128.mul (gray 1) v = v ∧
    Gf128.mul (gray 2) v = v ^^^ Gf128.double v ∧ Gf128.mul (gray 3) v = Gf128.double v := by
  have h1 : (gray 1).bits = [true] := Nat.one_bits
  have h2 : (gray 2).bits = [true, true] := by
    have hthree : gray 2 = 2 * 1 + 1 := rfl
    rw [hthree, Nat.bit1_bits, Nat.one_bits]
  have h3 : (gray 3).bits = [false, true] := by
    have htwo : gray 3 = 2 * 1 := rfl
    rw [htwo, Nat.bit0_bits 1 Nat.one_ne_zero, Nat.one_bits]
  unfold Gf128.mul
  rw [h1, h2, h3]
  simp [Gf128.double_zero, BitVec.xor_comm]

theorem offset_of_zero (hlen : len ≤ mms.toNat) (hL : k.encipher 0#128 = 0#128) (r : Blk) {i : ℕ}
    (hi : i ≤ fullBlocks len + 1) : offset (setkey mms k) r i = r := by
  have hpow : ∀ n, Gf128.double^[n] 0#128 = 0#128 :=
    fun n => Function.iterate_fixed Gf128.double_zero n
  induction i with
  | zero => rfl
  | succ i ih => rw [offset_succ hlen hi, ih (by omega), hL, hpow, BitVec.xor_zero]

theorem grayOffsets_iff (hlen : len ≤ mms.toNat) :
    GrayOffsets k mms nonce len ↔ len ≤ 2 * Blk.nc ∨ k.encipher 0#128 = 0#128 := by
  have hnc : Blk.nc = 16 := rfl
  obtain ⟨hg1, hg2, hg3⟩ := mul_gray (k.encipher 0#128)
  have hone := offset_one (k := k) hlen (startOf k nonce)
  constructor
  · rintro ⟨hgray, -⟩
    by_cases hshort : len ≤ 2 * Blk.nc
    · exact Or.inl hshort
    · right
      have hthree : 3 ≤ fullBlocks len + 1 := by
        unfold fullBlocks
        rw [hnc] at hshort ⊢
        omega
      have hthird := hgray 3 (by decide) hthree
      rw [offset_three hlen hthree, hone, hg3] at hthird
      exact Gf128.double_eq_self ((BitVec.xor_right_inj _).mp hthird).symm
  · intro hcond
    by_cases hL : k.encipher 0#128 = 0#128
    · refine ⟨fun i _ hi => ?_, fun hne => absurd hL hne⟩
      rw [offset_of_zero hlen hL _ hi, hL, Gf128.mul_zero_word, BitVec.xor_zero]
    · have hshort : fullBlocks len + 1 ≤ 2 := by
        have hle := hcond.resolve_right hL
        unfold fullBlocks
        rw [hnc] at hle ⊢
        omega
      constructor
      · intro i hi hle
        have hcases : i = 1 ∨ i = 2 := by omega
        rcases hcases with rfl | rfl
        · rw [hone, hg1]
        · rw [offset_two hlen hle, hg2, BitVec.xor_assoc]
      · intro _ i j hi hij hj heq
        obtain ⟨rfl, rfl⟩ : i = 1 ∧ j = 2 := by omega
        rw [hone, offset_two hlen hj] at heq
        apply hL
        apply Gf128.double_eq_zero
        exact ((BitVec.xor_right_inj (startOf k nonce ^^^ k.encipher 0#128)).mp
          (by rw [BitVec.xor_zero]; exact heq)).symm

/-- Both routines use the running offsets with the blocks of a text, the last one for the pad. The
offsets are those of the mode, sums and products of residues modulo `x^128 + x^7 + x^2 + x + 1`,
exactly for texts of two blocks, or if `L` is zero. -/
theorem ocb_offsets (hlen : len ≤ mms.toNat) :
    (∀ mem ctext ptext bs, InPlaceOrApart ctext ptext len → mem.read ptext len = bs →
      ∃ tag, encrypt (setkey mms k) mem ctext nonce ptext len =
        some (mem.write ctext (sealText (setkey mms k) (startOf k nonce) bs), tag)) ∧
    (∀ mem ctext ptext cs tag, InPlaceOrApart ptext ctext len → mem.read ctext len = cs →
      ∃ ok, decrypt (setkey mms k) mem ptext nonce ctext tag len =
        some (ok, mem.write ptext (openText (setkey mms k) (startOf k nonce) cs))) ∧
    (∀ i (R L : Blk), Gf128.ofWord (R ^^^ Gf128.mul (gray i) L) =
      Gf128.ofWord R + Gf128.ofNat (gray i) * Gf128.ofWord L) ∧
    (GrayOffsets k mms nonce len ↔ len ≤ 2 * Blk.nc ∨ k.encipher 0#128 = 0#128) := by
  refine ⟨?_, ?_, ?_, grayOffsets_iff hlen⟩
  · intro mem ctext ptext bs hapart hbs
    exact ⟨_, encrypt_spec hlen hapart hbs⟩
  · intro mem ctext ptext cs tag hapart hcs
    exact ⟨_, decrypt_spec hlen hapart hcs tag⟩
  · intro i R L
    rw [Gf128.ofWord_xor, Gf128.ofWord_mul]

end

def sampleAes : Aes := ⟨(· ^^^ 1#128), (· ^^^ 1#128)⟩

theorem ocb_offsets_two : GrayOffsets sampleAes 48 7 32 := by
  apply (@ocb_offsets 48 7 sampleAes 32 (by decide)).2.2.2.mpr
  left
  decide

/-- A text of three blocks has one offset twice. -/
theorem ocb_offsets_three : ¬ GrayOffsets sampleAes 48 7 48 := by
  rintro ⟨-, hdistinct⟩
  apply hdistinct (by decide) 1 3 (by decide) (by decide) (by decide)
  have hlen : 48 ≤ (48#64).toNat := by decide
  exact (offset_three hlen (by decide) _).symm

end Ocb

end Sfslite.Crypt
