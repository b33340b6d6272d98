import Sfslite.Async.Armor

/-!
What the decoders of `armor.C` make of the texts of its encoders. A text is a list of digits
of five or six bits, taken off the bytes from the high end and filled up with zero bits; the
tables carry a digit to its character and back.
-/

namespace Sfslite.Async.Armor

open Sfslite.Arpc (Byte)

/-- The `i`th field of `w` bits, from the high end. -/
def field (w : ℕ) (v : BitVec m) (i : ℕ) : BitVec w := v.extractLsb' (m - w * (i + 1)) w

theorem getLsbD_field (w : ℕ) (v : BitVec m) (i j : ℕ) :
    (field w v i).getLsbD j = (decide (j < w) && v.getLsbD (m - w * (i + 1) + j)) :=
  BitVec.getLsbD_extractLsb' ..

def quintets : List Byte → List (BitVec 5)
  | p0 :: p1 :: p2 :: p3 :: p4 :: p =>
    (List.range 8).map (field 5 (p0 ++ p1 ++ p2 ++ p3 ++ p4)) ++ quintets p
  | [p0, p1, p2, p3] => (List.range 7).map (field 5 (p0 ++ p1 ++ p2 ++ p3 ++ 0#8))
  | [p0, p1, p2] => (List.range 5).map (field 5 (p0 ++ p1 ++ p2 ++ 0#8 ++ 0#8))
  | [p0, p1] => (List.range 4).map (field 5 (p0 ++ p1 ++ 0#8 ++ 0#8 ++ 0#8))
  | [p0] => (List.range 2).map (field 5 (p0 ++ 0#8 ++ 0#8 ++ 0#8 ++ 0#8))
  | [] => []

def sextets : List Byte → List (BitVec 6)
  | p0 :: p1 :: p2 :: p => (List.range 4).map (field 6 (p0 ++ p1 ++ p2)) ++ sextets p
  | [p0, p1] => (List.range 3).map (field 6 (p0 ++ p1 ++ 0#8))
  | [p0] => (List.range 2).map (field 6 (p0 ++ 0#8 ++ 0#8))
  | [] => []

def enc (b2a : List Byte) (q : BitVec w) : Byte := b2aAt b2a (q.setWidth 8)

/-- `a2b` reads what `b2a` writes, and takes neither a null byte nor padding for a digit. -/
structure Alphabet (b2a : List Byte) (a2b : List ℤ) (w : ℕ) : Prop where
  a2b_enc : ∀ q : BitVec w, a2bAt a2b (enc b2a q) = q.toNat
  range : ∀ c : Byte, -1 ≤ a2bAt a2b c ∧ a2bAt a2b c < 64
  nul : a2bAt a2b 0#8 < 0
  pad : a2bAt a2b 0x3d#8 < 0

theorem a2bAt_range {a2b : List ℤ} (h : ∀ x ∈ a2b, -1 ≤ x ∧ x < 64) (c : Byte) :
    -1 ≤ a2bAt a2b c ∧ a2bAt a2b c < 64 := by
  rw [a2bAt, List.getD_eq_getElem?_getD]
  cases hx : a2b[c.toNat]? with
  | none => exact ⟨Int.le_refl _, by decide⟩
  | some x => exact h x (List.mem_of_getElem? hx)

set_option maxRecDepth 3000 in
/-- The tables of the source, checked entry by entry. -/
theorem alphabets : Alphabet b2a32 a2b32 5 ∧ Alphabet b2a32Rfc a2b32Rfc 5 ∧
    Alphabet b2a64 a2b64 6 ∧ Alphabet b2a64A a2b64A 6 ∧ Alphabet b2a64X a2b64X 6 := by
  refine ⟨⟨?_, ?_, ?_, ?_⟩, ⟨?_, ?_, ?_, ?_⟩, ⟨?_, ?_, ?_, ?_⟩, ⟨?_, ?_, ?_, ?_⟩,
    ⟨?_, ?_, ?_, ?_⟩⟩
  all_goals first | exact a2bAt_range (by decide +kernel) | decide +kernel

theorem alphabet_32 : Alphabet b2a32 a2b32 5 := alphabets.1

theorem alphabet_32Rfc : Alphabet b2a32Rfc a2b32Rfc 5 := alphabets.2.1

theorem alphabet_64 : Alphabet b2a64 a2b64 6 := alphabets.2.2.1

theorem alphabet_64A : Alphabet b2a64A a2b64A 6 := alphabets.2.2.2.1

theorem alphabet_64X : Alphabet b2a64X a2b64X 6 := alphabets.2.2.2.2

section Digit

variable {b2a : List Byte} {a2b : List ℤ} {w : ℕ}

theorem Alphabet.digit_zero (h : Alphabet b2a a2b w) (q : BitVec w) (s : List Byte) :
    digit a2b (enc b2a q :: s) 0 = some (q.setWidth 32) := by
  simp only [digit, List.getElem?_cons_zero, Option.map_some, h.a2b_enc]
  rw [BitVec.ofInt_natCast, BitVec.ofNat_toNat]

@[simp] theorem digit_succ (c : Byte) (s : List Byte) (i : ℕ) :
    digit a2b (c :: s) (i + 1) = digit a2b s i := rfl

theorem Alphabet.msb_digit (h : Alphabet b2a a2b w) (c : Byte) :
    (BitVec.ofInt 32 (a2bAt a2b c)).msb = decide (a2bAt a2b c < 0) := by
  obtain ⟨hlo, hhi⟩ := h.range c
  rw [BitVec.msb_eq_toInt, BitVec.toInt_ofInt, Int.bmod_eq_of_le (by omega) (by omega)]

theorem armorLen_append (tab : List ℤ) (text s : List Byte) (ht : ∀ c ∈ text, 0 ≤ a2bAt tab c) :
    armorLen tab (text ++ s) = (armorLen tab s).map (text.length + ·) := by
  induction text with
  | nil => cases h : armorLen tab s <;> simp [h]
  | cons c text ih =>
    have hc : 0 ≤ a2bAt tab c := ht c (by simp)
    simp only [List.cons_append, armorLen, if_pos hc, ih fun c hc => ht c (by simp [hc]),
      Option.map_map, List.length_cons]
    congr 1
    funext n
    simp only [Function.comp_apply]
    omega

theorem armorLen_stop {tab : List ℤ} {c : Byte} (s : List Byte) (hc : a2bAt tab c < 0) :
    armorLen tab (c :: s) = some 0 := by
  simp only [armorLen, if_neg (by omega : ¬ 0 ≤ a2bAt tab c)]

theorem Alphabet.enc_mem (h : Alphabet b2a a2b w) {qs : List (BitVec w)} :
    ∀ c ∈ qs.map (enc b2a), 0 ≤ a2bAt a2b c := by
  intro c hc
  obtain ⟨q, -, rfl⟩ := List.mem_map.mp hc
  rw [h.a2b_enc]
  exact Int.natCast_nonneg _

end Digit

section Fields32

variable (p0 p1 p2 p3 p4 : Byte)

theorem armor32_fields :
    p0 >>> 3 = (field 5 (p0 ++ p1 ++ p2 ++ p3 ++ p4) 0).setWidth 8 ∧
      (p0 &&& 0x7) <<< 2 ||| p1 >>> 6 =
        (field 5 (p0 ++ p1 ++ p2 ++ p3 ++ p4) 1).setWidth 8 ∧
      p1 >>> 1 &&& 0x1f = (field 5 (p0 ++ p1 ++ p2 ++ p3 ++ p4) 2).setWidth 8 ∧
      (p1 &&& 0x1) <<< 4 ||| p2 >>> 4 =
        (field 5 (p0 ++ p1 ++ p2 ++ p3 ++ p4) 3).setWidth 8 ∧
      (p2 &&& 0xf) <<< 1 ||| p3 >>> 7 =
        (field 5 (p0 ++ p1 ++ p2 ++ p3 ++ p4) 4).setWidth 8 ∧
      p3 >>> 2 &&& 0x1f = (field 5 (p0 ++ p1 ++ p2 ++ p3 ++ p4) 5).setWidth 8 ∧
      (p3 &&& 0x3) <<< 3 ||| p4 >>> 5 =
        (field 5 (p0 ++ p1 ++ p2 ++ p3 ++ p4) 6).setWidth 8 ∧
      p4 &&& 0x1f = (field 5 (p0 ++ p1 ++ p2 ++ p3 ++ p4) 7).setWidth 8 := by
  refine ⟨?_, ?_, ?_, ?_, ?_, ?_, ?_, ?_⟩
  all_goals
    apply BitVec.eq_of_getLsbD_eq
    intro i hi
    simp only [BitVec.getLsbD_setWidth, BitVec.getLsbD_or, BitVec.getLsbD_and,
      BitVec.getLsbD_shiftLeft, BitVec.getLsbD_ushiftRight, getLsbD_field,
      BitVec.getLsbD_append]
    interval_cases i <;> simp

theorem byte32_fields (v : BitVec 40) (hv : v = p0 ++ p1 ++ p2 ++ p3 ++ p4) :
    byte32_0 ((field 5 v 0).setWidth 32) ((field 5 v 1).setWidth 32) = p0 ∧
      byte32_1 ((field 5 v 1).setWidth 32) ((field 5 v 2).setWidth 32)
        ((field 5 v 3).setWidth 32) = p1 ∧
      byte32_2 ((field 5 v 3).setWidth 32) ((field 5 v 4).setWidth 32) = p2 ∧
      byte32_3 ((field 5 v 4).setWidth 32) ((field 5 v 5).setWidth 32)
        ((field 5 v 6).setWidth 32) = p3 ∧
      byte32_4 ((field 5 v 6).setWidth 32) ((field 5 v 7).setWidth 32) = p4 := by
  subst hv
  refine ⟨?_, ?_, ?_, ?_, ?_⟩
  all_goals
    apply BitVec.eq_of_getLsbD_eq
    intro i hi
    simp only [byte32_0, byte32_1, byte32_2, byte32_3, byte32_4, BitVec.getLsbD_setWidth,
      BitVec.getLsbD_or, BitVec.getLsbD_shiftLeft, BitVec.getLsbD_sshiftRight, getLsbD_field,
      BitVec.getLsbD_append]
    interval_cases i <;> simp

end Fields32

theorem armor32Text_eq (tab : List Byte) (x : List Byte) :
    armor32Text tab x = (quintets x).map (enc tab) := by
  fun_induction quintets x with
  | case1 p0 p1 p2 p3 p4 p ih =>
    obtain ⟨h0, h1, h2, h3, h4, h5, h6, h7⟩ := armor32_fields p0 p1 p2 p3 p4
    simp only [armor32Text, h0, h1, h2, h3, h4, h5, h6, h7, ih, List.range, List.range.loop,
      List.map_cons, List.map_nil, List.cons_append, List.nil_append, enc]
  | case2 p0 p1 p2 p3 =>
    obtain ⟨h0, h1, h2, h3, h4, h5, h6, -⟩ := armor32_fields p0 p1 p2 p3 0#8
    simp only [BitVec.zero_ushiftRight, BitVec.or_zero] at h6
    simp only [armor32Text, h0, h1, h2, h3, h4, h5, h6, List.range, List.range.loop, List.map_cons,
      List.map_nil, enc]
  | case3 p0 p1 p2 =>
    obtain ⟨h0, h1, h2, h3, h4, -⟩ := armor32_fields p0 p1 p2 0#8 0#8
    simp only [BitVec.zero_ushiftRight, BitVec.or_zero] at h4
    simp only [armor32Text, h0, h1, h2, h3, h4, List.range, List.range.loop, List.map_cons,
      List.map_nil, enc]
  | case4 p0 p1 =>
    obtain ⟨h0, h1, h2, h3, -⟩ := armor32_fields p0 p1 0#8 0#8 0#8
    simp only [BitVec.zero_ushiftRight, BitVec.or_zero] at h3
    simp only [armor32Text, h0, h1, h2, h3, List.range, List.range.loop, List.map_cons, List.map_nil, enc]
  | case5 p0 =>
    obtain ⟨h0, h1, -⟩ := armor32_fields p0 0#8 0#8 0#8 0#8
    simp only [BitVec.zero_ushiftRight, BitVec.or_zero] at h1
    simp only [armor32Text, h0, h1, List.range, List.range.loop, List.map_cons, List.map_nil, enc]
  | case6 => rfl

theorem length_quintets (x : List Byte) :
    (quintets x).length = x.length / 5 * 8 + b2a32rem.getD (x.length % 5) 0 ∧
      (quintets x).length / 8 = x.length / 5 ∧
      a2b32rem.getD ((quintets x).length % 8) 0 = (x.length % 5 : ℕ) := by
  fun_induction quintets x with
  | case1 p0 p1 p2 p3 p4 p ih =>
    obtain ⟨hlen, hdiv, hrem⟩ := ih
    have hL : ((List.range 8).map (field 5 (p0 ++ p1 ++ p2 ++ p3 ++ p4)) ++
        quintets p).length = (quintets p).length + 8 := by
      simp only [List.length_append, List.length_map, List.length_range]
      omega
    have hx : (p0 :: p1 :: p2 :: p3 :: p4 :: p).length = p.length + 5 := rfl
    rw [hL, hx, Nat.add_mod_right, Nat.add_mod_right, Nat.add_div_right _ (by omega),
      Nat.add_div_right _ (by omega), hdiv]
    exact ⟨by omega, rfl, hrem⟩
  | case2 => simp [b2a32rem, a2b32rem]
  | case3 => simp [b2a32rem, a2b32rem]
  | case4 => simp [b2a32rem, a2b32rem]
  | case5 => simp [b2a32rem, a2b32rem]
  | case6 => exact ⟨rfl, rfl, rfl⟩

variable {x t : List Byte}

theorem quintets_eq_nil (h : (quintets x).length = 0) : x = [] := by
  match x with
  | [] => rfl
  | [_] | [_, _] | [_, _, _] | [_, _, _, _] =>
    simp [quintets, List.range, List.range.loop] at h
  | _ :: _ :: _ :: _ :: _ :: _ => simp [quintets, List.range, List.range.loop] at h

theorem dearmor32Bytes_group {b2a : List Byte} {a2b : List ℤ} (h : Alphabet b2a a2b 5)
    (p0 p1 p2 p3 p4 : Byte) (n : ℕ) (rem : ℤ) (s : List Byte) :
    dearmor32Bytes a2b (n + 1) rem
        (((List.range 8).map (field 5 (p0 ++ p1 ++ p2 ++ p3 ++ p4))).map (enc b2a) ++ s) =
      (dearmor32Bytes a2b n rem s).map ([p0, p1, p2, p3, p4] ++ ·) := by
  obtain ⟨h0, h1, h2, h3, h4⟩ := byte32_fields p0 p1 p2 p3 p4 _ rfl
  simp only [List.range, List.range.loop, List.map_cons, List.map_nil, List.cons_append, List.nil_append,
    dearmor32Bytes, dearmor32Groups, digit_succ, h.digit_zero, Option.bind_eq_bind,
    Option.bind_some, List.drop_succ_cons, List.drop_zero, h0, h1, h2, h3, h4]
  cases dearmor32Groups a2b n s with
  | none => rfl
  | some ds =>
    obtain ⟨d, s'⟩ := ds
    cases hr : dearmor32Rem a2b rem s' <;> simp [hr]

theorem dearmor32Bytes_quintets {b2a : List Byte} {a2b : List ℤ} (h : Alphabet b2a a2b 5)
    (x s : List Byte) :
    dearmor32Bytes a2b (x.length / 5) (x.length % 5 : ℕ)
      ((quintets x).map (enc b2a) ++ s) = some x := by
  fun_induction quintets x with
  | case1 p0 p1 p2 p3 p4 p ih =>
    have hx : (p0 :: p1 :: p2 :: p3 :: p4 :: p).length = p.length + 5 := rfl
    rw [hx, Nat.add_mod_right, Nat.add_div_right _ (by omega), List.map_append,
      List.append_assoc, dearmor32Bytes_group h, ih]
    rfl
  | case2 p0 p1 p2 p3 =>
    obtain ⟨h0, h1, h2, h3, -⟩ := byte32_fields p0 p1 p2 p3 0#8 _ rfl
    simp [dearmor32Bytes, dearmor32Groups, dearmor32Rem, List.range, List.range.loop, h.digit_zero,
      h0, h1, h2, h3]
  | case3 p0 p1 p2 =>
    obtain ⟨h0, h1, h2, -⟩ := byte32_fields p0 p1 p2 0#8 0#8 _ rfl
    simp [dearmor32Bytes, dearmor32Groups, dearmor32Rem, List.range, List.range.loop, h.digit_zero,
      h0, h1, h2]
  | case4 p0 p1 =>
    obtain ⟨h0, h1, -⟩ := byte32_fields p0 p1 0#8 0#8 0#8 _ rfl
    simp [dearmor32Bytes, dearmor32Groups, dearmor32Rem, List.range, List.range.loop, h.digit_zero,
      h0, h1]
  | case5 p0 =>
    obtain ⟨h0, -⟩ := byte32_fields p0 0#8 0#8 0#8 0#8 _ rfl
    simp [dearmor32Bytes, dearmor32Groups, dearmor32Rem, List.range, List.range.loop, h.digit_zero, h0]
  | case6 => rfl

theorem armor32With_eq (tab : List Byte) (x : List Byte) :
    armor32With x tab = some ((quintets x).map (enc tab)) := by
  simp only [armor32With, armor32Text_eq, List.length_map, (length_quintets x).1, if_true]

theorem dearmor32With_text {b2a : List Byte} {a2b : List ℤ} (h : Alphabet b2a a2b 5)
    (x s : List Byte) (len : ℤ)
    (hlen : textLen armor32len ((quintets x).map (enc b2a) ++ s) len = some (quintets x).length) :
    dearmor32With ((quintets x).map (enc b2a) ++ s) len a2b = some (some x) := by
  obtain ⟨-, hdiv, hrem⟩ := length_quintets x
  have hmod : ¬ ((x.length % 5 : ℕ) : ℤ) < 0 := by omega
  simp only [dearmor32With, hlen, Option.bind_eq_bind, Option.bind_some, hdiv, hrem,
    if_neg hmod, dearmor32Bytes_quintets h]
  by_cases hx : (quintets x).length = 0
  · rw [if_pos hx, quintets_eq_nil hx]
  · rw [if_neg hx, if_pos (by omega)]

variable {n len : ℕ}

theorem length_of_dearmor32With {tab : List ℤ} {s y : List Byte} {len : ℤ}
    (hn : textLen armor32len s len = some n)
    (hy : dearmor32With s len tab = some (some y)) : n = (8 * y.length + 4) / 5 := by
  simp only [dearmor32With, hn, Option.bind_eq_bind, Option.bind_some] at hy
  split at hy
  · cases hy
  rename_i hrem
  split at hy
  · rename_i h0
    cases hy
    simp [h0]
  obtain ⟨bin, -, hy⟩ := Option.bind_eq_some_iff.mp hy
  split at hy
  case isFalse => cases hy
  case isTrue hlen =>
    cases hy
    have hlt : n % 8 < 8 := Nat.mod_lt _ (by omega)
    generalize hk : n % 8 = k at hrem hlen hlt
    interval_cases k <;> simp [a2b32rem] at hrem hlen <;> omega

theorem field_eight (v : BitVec 40) :
    field 8 v 0 ++ field 8 v 1 ++ field 8 v 2 ++ field 8 v 3 ++ field 8 v 4 = v := by
  apply BitVec.eq_of_getLsbD_eq
  intro i hi
  simp only [BitVec.getLsbD_append, getLsbD_field]
  interval_cases i <;> simp

theorem map_field_append (q0 q1 q2 q3 q4 q5 q6 q7 : BitVec 5) :
    (List.range 8).map (field 5 (q0 ++ q1 ++ q2 ++ q3 ++ q4 ++ q5 ++ q6 ++ q7)) =
      [q0, q1, q2, q3, q4, q5, q6, q7] := by
  simp only [List.range, List.range.loop, List.map_cons, List.map_nil, List.cons.injEq, and_true]
  refine ⟨?_, ?_, ?_, ?_, ?_, ?_, ?_, ?_⟩
  all_goals
    apply BitVec.eq_of_getLsbD_eq
    intro i hi
    simp only [getLsbD_field, BitVec.getLsbD_append]
    interval_cases i <;> simp

theorem exists_quintets {qs : List (BitVec 5)} (h : qs.length = 8 * n) :
    ∃ x, x.length = 5 * n ∧ quintets x = qs := by
  induction n generalizing qs with
  | zero => exact ⟨[], rfl, (List.eq_nil_of_length_eq_zero h).symm⟩
  | succ n ih =>
    match qs with
    | q0 :: q1 :: q2 :: q3 :: q4 :: q5 :: q6 :: q7 :: qs =>
      simp only [List.length_cons] at h
      obtain ⟨x, hlen, hx⟩ := ih (by omega : qs.length = 8 * n)
      have hfields := map_field_append q0 q1 q2 q3 q4 q5 q6 q7
      generalize q0 ++ q1 ++ q2 ++ q3 ++ q4 ++ q5 ++ q6 ++ q7 = v at hfields
      refine ⟨field 8 v 0 :: field 8 v 1 :: field 8 v 2 :: field 8 v 3 :: field 8 v 4 :: x,
        by simp only [List.length_cons]; omega, ?_⟩
      have hv : quintets (field 8 v 0 :: field 8 v 1 :: field 8 v 2 :: field 8 v 3 ::
          field 8 v 4 :: x) = (List.range 8).map (field 5 v) ++ quintets x := by
        rw [quintets, field_eight]
      rw [hv, hfields, hx]
      rfl

theorem enc_a2b32 (c : Byte) (hc : 0 ≤ a2bAt a2b32 c) :
    enc b2a32 (BitVec.ofInt 5 (a2bAt a2b32 c)) = c := by
  have htable : ∀ x ∈ a2b32.zipIdx, 0 ≤ x.1 →
      enc b2a32 (BitVec.ofInt 5 x.1) = BitVec.ofNat 8 x.2 := by
    decide +kernel
  rw [a2bAt, List.getD_eq_getElem?_getD] at hc ⊢
  cases hx : a2b32[c.toNat]? with
  | none => simp [hx] at hc
  | some x =>
    rw [hx] at hc
    have hmem : (x, c.toNat) ∈ a2b32.zipIdx := by
      rw [List.mem_zipIdx_iff_getElem?]
      exact hx
    simpa using htable _ hmem hc

theorem exists_armor32 {text : List Byte} (hlen : text.length = 8 * n)
    (htext : ∀ c ∈ text, 0 ≤ a2bAt a2b32 c) : ∃ x, x.length = 5 * n ∧ armor32 x = some text := by
  have hdigits : (text.map fun c => BitVec.ofInt 5 (a2bAt a2b32 c)).length = 8 * n := by
    rw [List.length_map, hlen]
  obtain ⟨x, hx, hq⟩ := exists_quintets hdigits
  refine ⟨x, hx, ?_⟩
  rw [armor32, armor32With_eq, hq, List.map_map]
  congr 1
  exact (List.map_congr_left fun c hc => enc_a2b32 c (htext c hc)).trans (List.map_id _)

section Fields64

variable (p0 p1 p2 : Byte)

theorem armor64_fields :
    p0 >>> 2 = (field 6 (p0 ++ p1 ++ p2) 0).setWidth 8 ∧
      (p0 &&& 0x3) <<< 4 ||| p1 >>> 4 = (field 6 (p0 ++ p1 ++ p2) 1).setWidth 8 ∧
      (p1 &&& 0xf) <<< 2 ||| p2 >>> 6 = (field 6 (p0 ++ p1 ++ p2) 2).setWidth 8 ∧
      p2 &&& 0x3f = (field 6 (p0 ++ p1 ++ p2) 3).setWidth 8 := by
  refine ⟨?_, ?_, ?_, ?_⟩
  all_goals
    apply BitVec.eq_of_getLsbD_eq
    intro i hi
    simp only [BitVec.getLsbD_setWidth, BitVec.getLsbD_or, BitVec.getLsbD_and,
      BitVec.getLsbD_shiftLeft, BitVec.getLsbD_ushiftRight, getLsbD_field,
      BitVec.getLsbD_append]
    interval_cases i <;> simp

theorem byte64_fields (v : BitVec 24) (hv : v = p0 ++ p1 ++ p2) :
    byte64_0 ((field 6 v 0).setWidth 32) ((field 6 v 1).setWidth 32) = p0 ∧
      byte64_1 ((field 6 v 1).setWidth 32) ((field 6 v 2).setWidth 32) = p1 ∧
      byte64_2 ((field 6 v 2).setWidth 32) ((field 6 v 3).setWidth 32) = p2 := by
  subst hv
  refine ⟨?_, ?_, ?_⟩
  all_goals
    apply BitVec.eq_of_getLsbD_eq
    intro i hi
    simp only [byte64_0, byte64_1, byte64_2, BitVec.getLsbD_setWidth, BitVec.getLsbD_or,
      BitVec.getLsbD_shiftLeft, BitVec.getLsbD_sshiftRight, getLsbD_field,
      BitVec.getLsbD_append]
    interval_cases i <;> simp

end Fields64

/-- The padding of a text, for the bytes behind the last whole group. -/
def padding (n : ℕ) : List Byte := List.replicate ((3 - n % 3) % 3) 0x3d#8

theorem armor64Text_eq (b2a : List Byte) (x : List Byte) :
    armor64Text b2a x = (sextets x).map (enc b2a) ++ padding x.length := by
  fun_induction sextets x with
  | case1 p0 p1 p2 p ih =>
    obtain ⟨h0, h1, h2, h3⟩ := armor64_fields p0 p1 p2
    have hx : (p0 :: p1 :: p2 :: p).length = p.length + 3 := rfl
    simp only [armor64Text, h0, h1, h2, h3, ih, hx, padding, Nat.add_mod_right, List.range,
      List.range.loop, List.map_cons, List.map_nil, List.cons_append, List.nil_append, enc]
  | case2 p0 p1 =>
    obtain ⟨h0, h1, h2, -⟩ := armor64_fields p0 p1 0#8
    simp only [BitVec.zero_ushiftRight, BitVec.or_zero] at h2
    simp only [armor64Text, h0, h1, h2, List.range, List.range.loop, List.map_cons, List.map_nil, enc]
    rfl
  | case3 p0 =>
    obtain ⟨h0, h1, -⟩ := armor64_fields p0 0#8 0#8
    simp only [BitVec.zero_ushiftRight, BitVec.or_zero] at h1
    simp only [armor64Text, h0, h1, List.range, List.range.loop, List.map_cons, List.map_nil, enc]
    rfl
  | case4 => rfl

theorem length_sextets (x : List Byte) :
    (sextets x).length + (3 - x.length % 3) % 3 = (x.length + 2) / 3 * 4 := by
  fun_induction sextets x with
  | case1 p0 p1 p2 p ih =>
    have hx : (p0 :: p1 :: p2 :: p).length = p.length + 3 := rfl
    simp only [List.length_append, List.length_map, List.length_range, hx]
    omega
  | case2 => simp
  | case3 => simp
  | case4 => rfl

theorem armor64With_eq (b2a : List Byte) (endpad : Bool) (x : List Byte) :
    armor64With b2a endpad x =
      some ((sextets x).map (enc b2a) ++ if endpad then padding x.length else []) := by
  have hlen := length_sextets x
  have htext : ((sextets x).map (enc b2a) ++ padding x.length).length =
      (x.length + 2) / 3 * 4 := by
    simp only [List.length_append, List.length_map, padding, List.length_replicate, hlen]
  simp only [armor64With, armor64Text_eq, if_pos htext]
  cases endpad with
  | true => simp
  | false =>
    by_cases hrem : x.length % 3 = 0
    · simp [hrem, padding]
    · have hcut : ((sextets x).map (enc b2a) ++ padding x.length).length +
          x.length % 3 - 3 = ((sextets x).map (enc b2a)).length := by
        rw [htext, List.length_map]
        omega
      rw [if_pos ⟨rfl, hrem⟩, hcut, List.take_left]
      simp

theorem dearmor64Bytes_group {b2a : List Byte} {a2b : List ℤ} (h : Alphabet b2a a2b 6)
    (p0 p1 p2 : Byte) (len : ℕ) (s : List Byte) :
    dearmor64Bytes a2b (len + 5)
        (((List.range 4).map (field 6 (p0 ++ p1 ++ p2))).map (enc b2a) ++ s) =
      (dearmor64Bytes a2b (len + 1) s).map ([p0, p1, p2] ++ ·) := by
  obtain ⟨h0, h1, h2⟩ := byte64_fields p0 p1 p2 _ rfl
  simp only [List.range, List.range.loop, List.map_cons, List.map_nil, List.cons_append, List.nil_append,
    dearmor64Bytes, dearmor64Groups, digit_succ, h.digit_zero, Option.bind_eq_bind,
    Option.bind_some, List.drop_succ_cons, List.drop_zero, h0, h1, h2]
  cases dearmor64Groups a2b (len + 1) s with
  | none => rfl
  | some ds =>
    obtain ⟨d, s'⟩ := ds
    cases hr : dearmor64Last a2b s' <;> simp [hr]

theorem dearmor64Groups_short (a2b : List ℤ) (hlen : len ≤ 4) (s : List Byte) :
    dearmor64Groups a2b len s = some ([], s) := by
  match len with
  | 0 | 1 | 2 | 3 | 4 => rfl
  | len + 5 => omega

/-- What follows the digits does not continue them. -/
def Stops (a2b : List ℤ) (t : List Byte) : Prop := ∃ c ∈ t.head?, a2bAt a2b c < 0

instance (a2b : List ℤ) (t : List Byte) : Decidable (Stops a2b t) :=
  match t with
  | [] => .isFalse fun ⟨_, h, _⟩ => by cases h
  | c :: _ =>
    decidable_of_iff (a2bAt a2b c < 0)
      ⟨fun h => ⟨c, rfl, h⟩, fun ⟨_, h, hc⟩ => by cases h; exact hc⟩

section Last

variable {b2a : List Byte} {a2b : List ℤ}

theorem Alphabet.msb_setWidth (h : Alphabet b2a a2b 6) (q : BitVec 6) :
    (q.setWidth 32).msb = false := by
  have hq := h.msb_digit (enc b2a q)
  rw [h.a2b_enc, BitVec.ofInt_natCast, BitVec.ofNat_toNat] at hq
  rw [hq, decide_eq_false_iff_not]
  omega

theorem Alphabet.digit_of_stops (h : Alphabet b2a a2b 6) (ht : Stops a2b t) :
    ∃ c, digit a2b t 0 = some c ∧ c.msb = true := by
  obtain ⟨c, hc, hneg⟩ := ht
  cases t with
  | nil => cases hc
  | cons c' t =>
    cases hc
    exact ⟨_, rfl, by rw [h.msb_digit, decide_eq_true hneg]⟩

theorem Alphabet.digit_of_not_stops (h : Alphabet b2a a2b 6) {c : Byte}
    (ht : ¬ Stops a2b (c :: t)) : ∃ c', digit a2b (c :: t) 0 = some c' ∧ c'.msb = false := by
  refine ⟨_, rfl, ?_⟩
  rw [h.msb_digit, decide_eq_false_iff_not]
  exact fun hneg => ht ⟨c, rfl, hneg⟩

theorem dearmor64Last_one (h : Alphabet b2a a2b 6) (q0 q1 : BitVec 6) (ht : Stops a2b t) :
    dearmor64Last a2b (enc b2a q0 :: enc b2a q1 :: t) =
      some [byte64_0 (q0.setWidth 32) (q1.setWidth 32)] := by
  obtain ⟨c2, h2, hmsb⟩ := h.digit_of_stops ht
  simp [dearmor64Last, h.digit_zero, h2, hmsb]

theorem dearmor64Last_two (h : Alphabet b2a a2b 6) (q0 q1 q2 : BitVec 6) (ht : Stops a2b t) :
    dearmor64Last a2b (enc b2a q0 :: enc b2a q1 :: enc b2a q2 :: t) =
      some [byte64_0 (q0.setWidth 32) (q1.setWidth 32),
        byte64_1 (q1.setWidth 32) (q2.setWidth 32)] := by
  obtain ⟨c3, h3, hmsb⟩ := h.digit_of_stops ht
  simp [dearmor64Last, h.digit_zero, h3, hmsb, h.msb_setWidth q2]

theorem dearmor64Last_three (h : Alphabet b2a a2b 6) (q0 q1 q2 q3 : BitVec 6) (t : List Byte) :
    dearmor64Last a2b (enc b2a q0 :: enc b2a q1 :: enc b2a q2 :: enc b2a q3 :: t) =
      some [byte64_0 (q0.setWidth 32) (q1.setWidth 32),
        byte64_1 (q1.setWidth 32) (q2.setWidth 32),
        byte64_2 (q2.setWidth 32) (q3.setWidth 32)] := by
  simp [dearmor64Last, h.digit_zero, h.msb_setWidth q2, h.msb_setWidth q3]

theorem length_dearmor64Last_two (h : Alphabet b2a a2b 6) {q0 q1 : BitVec 6}
    {d : List Byte} (ht : ¬ Stops a2b t)
    (hd : dearmor64Last a2b (enc b2a q0 :: enc b2a q1 :: t) = some d) : 1 < d.length := by
  cases t with
  | nil =>
    have hnone : digit a2b [] 0 = none := rfl
    simp [dearmor64Last, h.digit_zero, hnone] at hd
  | cons c t =>
    obtain ⟨c2, h2, hmsb⟩ := h.digit_of_not_stops ht
    simp only [dearmor64Last, digit_succ, h.digit_zero, h2, hmsb, if_true,
      Option.bind_eq_bind, Option.bind_some] at hd
    cases h3 : digit a2b t 0 with
    | none => simp [h3] at hd
    | some c3 =>
      simp only [h3, Option.bind_some, Option.some.injEq] at hd
      simp [← hd]

theorem length_dearmor64Last_three (h : Alphabet b2a a2b 6) {q0 q1 q2 : BitVec 6}
    {d : List Byte} (ht : ¬ Stops a2b t)
    (hd : dearmor64Last a2b (enc b2a q0 :: enc b2a q1 :: enc b2a q2 :: t) = some d) :
    2 < d.length := by
  cases t with
  | nil =>
    have hnone : digit a2b [] 0 = none := rfl
    simp [dearmor64Last, h.digit_zero, h.msb_setWidth q2, hnone] at hd
  | cons c t =>
    obtain ⟨c3, h3, hmsb⟩ := h.digit_of_not_stops ht
    simp only [dearmor64Last, digit_succ, h.digit_zero, h3, hmsb, h.msb_setWidth q2, if_true,
      Option.bind_eq_bind, Option.bind_some, Option.some.injEq] at hd
    simp [← hd]

theorem dearmor64Bytes_sextets (h : Alphabet b2a a2b 6) (hx : x ≠ [])
    (hlen : (len + 3) / 4 = (x.length + 2) / 3) (ht : x.length % 3 = 0 ∨ Stops a2b t) :
    dearmor64Bytes a2b len ((sextets x).map (enc b2a) ++ t) = some x := by
  fun_induction sextets x generalizing len with
  | case1 p0 p1 p2 p ih =>
    have hp : (p0 :: p1 :: p2 :: p).length = p.length + 3 := rfl
    rw [hp] at hlen ht
    rw [List.map_append, List.append_assoc]
    by_cases hnil : p = []
    · subst hnil
      obtain ⟨h0, h1, h2⟩ := byte64_fields p0 p1 p2 _ rfl
      rw [dearmor64Bytes, dearmor64Groups_short a2b (by simp at hlen; omega)]
      simp only [List.range, List.range.loop, List.map_cons, List.map_nil, List.cons_append, List.nil_append,
        Option.bind_eq_bind, Option.bind_some, dearmor64Last_three h, h0, h1, h2]
    · have hpos : 0 < p.length := List.length_pos_iff.mpr hnil
      obtain ⟨len', rfl⟩ : ∃ len', len = len' + 5 := ⟨len - 5, by omega⟩
      rw [dearmor64Bytes_group h, ih hnil (by omega) (by rwa [Nat.add_mod_right] at ht)]
      rfl
  | case2 p0 p1 =>
    obtain ⟨h0, h1, -⟩ := byte64_fields p0 p1 0#8 _ rfl
    have ht : Stops a2b t := ht.resolve_left (by simp)
    rw [dearmor64Bytes, dearmor64Groups_short a2b (by simp at hlen; omega)]
    simp only [List.range, List.range.loop, List.map_cons, List.map_nil, List.cons_append, List.nil_append,
      Option.bind_eq_bind, Option.bind_some, dearmor64Last_two h _ _ _ ht, h0, h1]
  | case3 p0 =>
    obtain ⟨h0, -⟩ := byte64_fields p0 0#8 0#8 _ rfl
    have ht : Stops a2b t := ht.resolve_left (by simp)
    rw [dearmor64Bytes, dearmor64Groups_short a2b (by simp at hlen; omega)]
    simp only [List.range, List.range.loop, List.map_cons, List.map_nil, List.cons_append, List.nil_append,
      Option.bind_eq_bind, Option.bind_some, dearmor64Last_one h _ _ ht, h0]
  | case4 => exact absurd rfl hx

theorem length_dearmor64Bytes_sextets (h : Alphabet b2a a2b 6) {d : List Byte}
    (hlen : (len + 3) / 4 = (x.length + 2) / 3) (hx : x.length % 3 ≠ 0) (ht : ¬ Stops a2b t)
    (hd : dearmor64Bytes a2b len ((sextets x).map (enc b2a) ++ t) = some d) :
    x.length < d.length := by
  fun_induction sextets x generalizing len d with
  | case1 p0 p1 p2 p ih =>
    have hp : (p0 :: p1 :: p2 :: p).length = p.length + 3 := rfl
    rw [hp, Nat.add_mod_right] at hx
    rw [hp] at hlen ⊢
    obtain ⟨len', rfl⟩ : ∃ len', len = len' + 5 := ⟨len - 5, by omega⟩
    rw [List.map_append, List.append_assoc, dearmor64Bytes_group h] at hd
    obtain ⟨d', hd', rfl⟩ := Option.map_eq_some_iff.mp hd
    have := ih (by omega) hx hd'
    simp only [List.length_append, List.length_cons, List.length_nil]
    omega
  | case2 p0 p1 =>
    rw [dearmor64Bytes, dearmor64Groups_short a2b (by simp at hlen; omega)] at hd
    simp only [List.range, List.range.loop, List.map_cons, List.map_nil, List.cons_append, List.nil_append,
      Option.bind_eq_bind, Option.bind_some] at hd
    obtain ⟨d', hd', heq⟩ := Option.bind_eq_some_iff.mp hd
    cases heq
    exact length_dearmor64Last_three h ht hd'
  | case3 p0 =>
    rw [dearmor64Bytes, dearmor64Groups_short a2b (by simp at hlen; omega)] at hd
    simp only [List.range, List.range.loop, List.map_cons, List.map_nil, List.cons_append, List.nil_append,
      Option.bind_eq_bind, Option.bind_some] at hd
    obtain ⟨d', hd', heq⟩ := Option.bind_eq_some_iff.mp hd
    cases heq
    exact length_dearmor64Last_two h ht hd'
  | case4 => exact absurd rfl hx

end Last

theorem textLen_natCast (lenOf : List Byte → Option ℕ) (s : List Byte) (n : ℕ) :
    textLen lenOf s n = some n := by
  rw [textLen, if_neg (by omega), Int.toNat_natCast]

theorem textLen_neg (lenOf : List Byte → Option ℕ) (s : List Byte) {len : ℤ} (h : len < 0) :
    textLen lenOf s len = lenOf s := if_pos h

/-- The text of `x`, passed with its length and as a string that ends with a null byte, comes
back as `x`. In memory the text is followed by `rest`. -/
def RoundTrips (e : Encoding) (x rest : List Byte) : Prop :=
  ∃ text, armor e x = some text ∧
    dearmor e (text ++ rest) text.length = some (some x) ∧
    ∀ len < 0, dearmor e (text ++ 0#8 :: rest) len = some (some x)

section Text

variable {b2a : List Byte} {a2b : List ℤ}

theorem armor32len_quintets (rest : List Byte) (h : ∀ q ∈ quintets x, 0 ≤ a2bAt a2b32 (enc b2a q)) :
    armor32len ((quintets x).map (enc b2a) ++ 0#8 :: rest) = some (quintets x).length := by
  have hmem : ∀ c ∈ (quintets x).map (enc b2a), 0 ≤ a2bAt a2b32 c := by
    intro c hc
    obtain ⟨q, hq, rfl⟩ := List.mem_map.mp hc
    exact h q hq
  rw [armor32len, armorLen_append _ _ _ hmem, armorLen_stop rest alphabet_32.nul,
    List.length_map]
  rfl

theorem roundTrips_32 (x rest : List Byte) : RoundTrips .base32 x rest := by
  refine ⟨_, armor32With_eq b2a32 x, ?_, fun len hlen => ?_⟩
  · refine dearmor32With_text alphabet_32 x rest _ ?_
    rw [textLen_natCast, List.length_map]
  · refine dearmor32With_text alphabet_32 x _ _ ?_
    rw [textLen_neg _ _ hlen]
    refine armor32len_quintets rest fun q _ => ?_
    rw [alphabet_32.a2b_enc]
    exact Int.natCast_nonneg _

theorem a2b32_enc_rfc : ∀ q : BitVec 5,
    0 ≤ a2bAt a2b32 (enc b2a32Rfc q) ↔ q ≠ 11 ∧ q ≠ 14 := by
  decide

theorem armorLen_lt {tab : List ℤ} {text : List Byte} (s : List Byte) {c : Byte}
    (hmem : c ∈ text) (hc : a2bAt tab c < 0) :
    ∃ n, armorLen tab (text ++ s) = some n ∧ n < text.length := by
  induction text with
  | nil => cases hmem
  | cons c' text ih =>
    by_cases hc' : 0 ≤ a2bAt tab c'
    · have hmem : c ∈ text := by
        rcases List.mem_cons.mp hmem with rfl | h
        · omega
        · exact h
      obtain ⟨n, hn, hlt⟩ := ih hmem
      refine ⟨n + 1, ?_, Nat.succ_lt_succ hlt⟩
      simp only [List.cons_append, armorLen, if_pos hc', hn, Option.map_some]
    · refine ⟨0, armorLen_stop _ (by omega), ?_⟩
      simp

theorem roundTrips_32Rfc (x rest : List Byte) :
    RoundTrips .base32Rfc x rest ↔ 11 ∉ quintets x ∧ 14 ∉ quintets x := by
  constructor
  · rintro ⟨text, htext, -, hnul⟩
    have hnul := hnul (-1) (by omega)
    have htext := (armor32With_eq b2a32Rfc x).symm.trans htext
    rw [Option.some.injEq] at htext
    subst htext
    have hall : ∀ q ∈ quintets x, q ≠ 11 ∧ q ≠ 14 := by
      intro q hq
      rw [← a2b32_enc_rfc]
      by_contra hneg
      obtain ⟨n, hn, hlt⟩ := armorLen_lt (0#8 :: rest) (List.mem_map_of_mem hq) (not_le.mp hneg)
      have hshort := length_of_dearmor32With (n := n)
        ((textLen_neg _ _ (by omega)).trans hn) hnul
      have hexact : (quintets x).length = (8 * x.length + 4) / 5 :=
        length_of_dearmor32With (textLen_natCast _ _ _)
          (dearmor32With_text alphabet_32Rfc x [] _ (textLen_natCast _ _ _))
      rw [List.length_map] at hlt
      omega
    exact ⟨fun h => (hall _ h).1 rfl, fun h => (hall _ h).2 rfl⟩
  · rintro ⟨hl, ho⟩
    refine ⟨_, armor32With_eq b2a32Rfc x, ?_, fun len hlen => ?_⟩
    · refine dearmor32With_text alphabet_32Rfc x rest _ ?_
      rw [textLen_natCast, List.length_map]
    · refine dearmor32With_text alphabet_32Rfc x _ _ ?_
      rw [textLen_neg _ _ hlen]
      refine armor32len_quintets rest fun q hq => ?_
      rw [a2b32_enc_rfc]
      exact ⟨fun h => hl (h ▸ hq), fun h => ho (h ▸ hq)⟩

theorem dearmor64With_text (h : Alphabet b2a a2b 6) (hlen : (len + 3) / 4 = (x.length + 2) / 3)
    (hroom : x.length ≤ len - len / 4) (ht : x.length % 3 = 0 ∨ Stops a2b t) :
    dearmor64With a2b ((sextets x).map (enc b2a) ++ t) len = some (some x) := by
  by_cases hx : x = []
  · subst hx
    have h0 : len = 0 := by simp at hlen; omega
    rw [dearmor64With, if_pos h0]
  · have hpos := List.length_pos_iff.mpr hx
    rw [dearmor64With, if_neg (by omega), dearmor64Bytes_sextets h hx hlen ht]
    simp only [Option.bind_eq_bind, Option.bind_some, if_pos hroom]

theorem stops_cons (h : Alphabet b2a a2b 6) {c : Byte} (hc : c = 0#8 ∨ c = 0x3d#8)
    (t : List Byte) : Stops a2b (c :: t) := by
  rcases hc with rfl | rfl
  · exact ⟨_, rfl, h.nul⟩
  · exact ⟨_, rfl, h.pad⟩

theorem armorLen_sextets (h : Alphabet b2a a2b 6) (x : List Byte) (ht : Stops a2b t) :
    armorLen a2b ((sextets x).map (enc b2a) ++ t) = some (sextets x).length := by
  obtain ⟨c, hc, hneg⟩ := ht
  cases t with
  | nil => cases hc
  | cons c' t =>
    cases hc
    rw [armorLen_append _ _ _ h.enc_mem, armorLen_stop t hneg, List.length_map]
    rfl

theorem armor64lenWith_padding (h : Alphabet b2a a2b 6) (x rest : List Byte) :
    armor64lenWith a2b true ((sextets x).map (enc b2a) ++ (padding x.length ++ 0#8 :: rest)) =
      some ((sextets x).length + (padding x.length).length) := by
  have hr : (3 - x.length % 3) % 3 = 0 ∨ (3 - x.length % 3) % 3 = 1 ∨
      (3 - x.length % 3) % 3 = 2 := by omega
  rcases hr with hr | hr | hr
  · have hstop := armorLen_sextets h x (stops_cons h (Or.inl rfl) rest)
    simp [armor64lenWith, padding, hr, hstop]
  · have hstop := armorLen_sextets h x (stops_cons h (Or.inr rfl) (0#8 :: rest))
    simp [armor64lenWith, padding, hr, hstop]
  · have hstop := armorLen_sextets h x (stops_cons h (Or.inr rfl) (0x3d#8 :: 0#8 :: rest))
    simp [armor64lenWith, padding, hr, hstop, List.replicate_succ]

theorem room_sextets (x : List Byte) :
    ((sextets x).length + 3) / 4 = (x.length + 2) / 3 ∧
      x.length ≤ (sextets x).length - (sextets x).length / 4 ∧
      (sextets x).length + (padding x.length).length = (x.length + 2) / 3 * 4 := by
  have hlen := length_sextets x
  rw [padding, List.length_replicate]
  omega

theorem roundTrips_padded (h : Alphabet b2a a2b 6) {e : Encoding}
    (harmor : armor e = armor64With b2a true) (hdearmor : ∀ s len, dearmor e s len =
      (textLen (armor64lenWith a2b true) s len).bind fun len =>
        if len % 4 ≠ 0 then some none else dearmor64With a2b s len) (x rest : List Byte) :
    RoundTrips e x rest := by
  obtain ⟨-, hroom, hlen⟩ := room_sextets x
  have htext : ((sextets x).map (enc b2a) ++ padding x.length).length =
      (x.length + 2) / 3 * 4 := by
    rw [List.length_append, List.length_map, hlen]
  have hstop (t : List Byte) : x.length % 3 = 0 ∨ Stops a2b (padding x.length ++ t) := by
    by_cases hrem : x.length % 3 = 0
    · exact Or.inl hrem
    · obtain ⟨k, hk⟩ : ∃ k, (3 - x.length % 3) % 3 = k + 1 :=
        ⟨(3 - x.length % 3) % 3 - 1, by omega⟩
      rw [padding, hk, List.replicate_succ, List.cons_append]
      exact Or.inr (stops_cons h (Or.inr rfl) _)
  have hdecode (t : List Byte) :
      dearmor64With a2b ((sextets x).map (enc b2a) ++ (padding x.length ++ t))
        ((x.length + 2) / 3 * 4) = some (some x) :=
    dearmor64With_text h (by omega) (by omega) (hstop t)
  refine ⟨_, (congrFun harmor x).trans (armor64With_eq b2a true x), ?_, fun len hneg => ?_⟩
  · rw [if_pos rfl, hdearmor, textLen_natCast, htext, List.append_assoc, Option.bind_some,
      if_neg (by omega), hdecode]
  · rw [if_pos rfl, hdearmor, textLen_neg _ _ hneg, List.append_assoc,
      armor64lenWith_padding h, hlen, Option.bind_some, if_neg (by omega), hdecode]

theorem roundTrips_64A (x rest : List Byte) :
    RoundTrips .base64A x rest ↔ 3 ∣ x.length ∨ Stops a2b64A rest := by
  obtain ⟨hlen, hroom, -⟩ := room_sextets x
  have hstop0 : Stops a2b64A (0#8 :: rest) := stops_cons alphabet_64A (Or.inl rfl) rest
  have harmor : armor .base64A x = some ((sextets x).map (enc b2a64A)) := by
    rw [armor, armor64A, armor64With_eq]
    simp
  have hexact (t : List Byte) :
      dearmor .base64A ((sextets x).map (enc b2a64A) ++ t)
          ((sextets x).map (enc b2a64A)).length =
        dearmor64With a2b64A ((sextets x).map (enc b2a64A) ++ t) (sextets x).length := by
    rw [dearmor, dearmor64A, textLen_natCast, List.length_map]
    rfl
  constructor
  · rintro ⟨text, htext, hx, -⟩
    cases harmor.symm.trans htext
    rw [hexact] at hx
    by_contra hcon
    obtain ⟨hdvd, hstop⟩ := not_or.mp hcon
    have hrem : x.length % 3 ≠ 0 := fun h => hdvd (Nat.dvd_of_mod_eq_zero h)
    rw [dearmor64With, if_neg (by omega)] at hx
    obtain ⟨d, hd, hx⟩ := Option.bind_eq_some_iff.mp hx
    have hlong := length_dearmor64Bytes_sextets alphabet_64A hlen hrem hstop hd
    split at hx
    case isFalse => cases hx
    case isTrue =>
      cases hx
      omega
  · intro hok
    have hok : x.length % 3 = 0 ∨ Stops a2b64A rest := hok.imp Nat.mod_eq_zero_of_dvd id
    refine ⟨_, harmor, ?_, fun len hneg => ?_⟩
    · rw [hexact, dearmor64With_text alphabet_64A hlen hroom hok]
    · rw [dearmor, dearmor64A, textLen_neg _ _ hneg, armor64Alen, armor64lenWith,
        armorLen_sextets alphabet_64A x hstop0]
      exact dearmor64With_text alphabet_64A hlen hroom (Or.inr hstop0)

end Text

/-- The strings that an encoding is safe for. The RFC alphabet has the letters `l` and `o`, at
11 and 14, which end a text for `armor32len`; base64A reads the byte behind a text whose last
group is not whole. -/
def Encoding.Safe (e : Encoding) (x rest : List Byte) : Prop :=
  match e with
  | .base32Rfc => 11 ∉ quintets x ∧ 14 ∉ quintets x
  | .base64A => 3 ∣ x.length ∨ Stops a2b64A rest
  | .base32 | .base64 | .base64X => True

instance (e : Encoding) (x rest : List Byte) : Decidable (e.Safe x rest) :=
  match e with
  | .base32Rfc => inferInstanceAs (Decidable (11 ∉ quintets x ∧ 14 ∉ quintets x))
  | .base64A => inferInstanceAs (Decidable (3 ∣ x.length ∨ Stops a2b64A rest))
  | .base32 | .base64 | .base64X => .isTrue trivial

/-- An encoding loses nothing exactly for the strings that it is safe for. -/
theorem armor_round_trip (e : Encoding) (x rest : List Byte) :
    RoundTrips e x rest ↔ e.Safe x rest := by
  cases e with
  | base32 => exact iff_of_true (roundTrips_32 x rest) trivial
  | base32Rfc => exact roundTrips_32Rfc x rest
  | base64 =>
      exact iff_of_true (roundTrips_padded alphabet_64 rfl (fun _ _ => rfl) x rest) trivial
  | base64A => exact roundTrips_64A x rest
  | base64X =>
      exact iff_of_true (roundTrips_padded alphabet_64X rfl (fun _ _ => rfl) x rest) trivial

/-- The text of the byte 0x5b starts with an `l`, and is read back as the empty string. -/
theorem armor32Rfc_loses : ¬ ∀ e x rest, RoundTrips e x rest := by
  intro h
  obtain ⟨text, htext, -, hnul⟩ := h .base32Rfc [0x5b] []
  have htext : some (chars ['l', 'm']) = some text := by
    rw [← htext]
    decide
  cases htext
  have hback : dearmor .base32Rfc (chars ['l', 'm'] ++ [0#8]) (-1) = some (some []) := by
    decide
  rw [hnul (-1) (by omega)] at hback
  simp at hback

end Sfslite.Async.Armor
