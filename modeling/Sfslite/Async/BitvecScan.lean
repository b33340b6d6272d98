import Sfslite.Async.Bitvec

/-!
`first_unset_bit`: the loops find the first bit that is not set among all the bits of the map, the
padding behind the last bit included, and the slots they look at are one more than the words where
the last word is full.
-/

namespace Sfslite.Async

namespace Bitvec

variable {bv : Bitvec} {map : List (BitVec 64)} {b i j k : ℕ} {ret : ℤ}

theorem toInt_of_lt (hb : b < 2 ^ 31) : toInt b = b := by
  rw [toInt, BitVec.toInt_eq_toNat_of_lt]
  · rw [BitVec.toNat_ofNat, Nat.mod_eq_of_lt (by omega)]
  · rw [BitVec.toNat_ofNat, Nat.mod_eq_of_lt (by omega)]
    omega

theorem toInt_lt (b : ℕ) : toInt b < 2 ^ 31 := BitVec.toInt_lt

variable {tmp w : BitVec 64}

theorem and_one_ne_zero : tmp &&& 1 ≠ 0 ↔ tmp.getLsbD 0 = true := by
  have hmask := and_mask_eq_zero (w := tmp) (k := 0) (by decide)
  have hone : (1#64 <<< 0 : BitVec 64) = 1 := rfl
  rw [hone] at hmask
  rw [ne_eq, hmask, Bool.not_eq_false]

/-- The loop stays at a bit that is set, also where its index is negative as an `int`. -/
theorem scanWord_found (htmp : tmp.getLsbD 0 = true) (hret : ret < 0) :
    scanWord (k + 1) tmp b ret = (toInt b, b) := by
  induction k generalizing ret with
  | zero =>
    rw [scanWord, if_pos hret, if_pos (and_one_ne_zero.mpr htmp)]
    rfl
  | succ k ih =>
    rw [scanWord, if_pos hret, if_pos (and_one_ne_zero.mpr htmp)]
    by_cases hneg : toInt b < 0
    · exact ih hneg
    · rw [scanWord, if_neg hneg]

theorem scanWord_spec (hj : j < k) (hset : tmp.getLsbD j = true)
    (hclear : ∀ l < j, tmp.getLsbD l = false) (hret : ret < 0) :
    scanWord k tmp b ret = (toInt (b + j), b + j) := by
  induction j generalizing k tmp b with
  | zero =>
    obtain ⟨k, rfl⟩ : ∃ l, k = l + 1 := ⟨k - 1, by omega⟩
    exact scanWord_found hset hret
  | succ j ih =>
    obtain ⟨k, rfl⟩ : ∃ l, k = l + 1 := ⟨k - 1, by omega⟩
    have hzero : ¬tmp &&& 1 ≠ 0 := by
      rw [and_one_ne_zero, hclear 0 (by omega)]
      exact Bool.false_ne_true
    have hshift (l : ℕ) : (tmp >>> 1).getLsbD l = tmp.getLsbD (l + 1) := by
      rw [BitVec.getLsbD_ushiftRight, Nat.add_comm]
    have hnext : scanWord k (tmp >>> 1) (b + 1) ret = (toInt (b + 1 + j), b + 1 + j) :=
      ih (by omega) ((hshift j).trans hset)
        (fun l hl => (hshift l).trans (hclear (l + 1) (by omega)))
    rw [scanWord, if_pos hret, if_neg hzero, hnext]
    rw [Nat.add_right_comm, Nat.add_assoc]

theorem getLsbD_flipped (w : BitVec 64) (hj : j < 64) : (w ^^^ ones).getLsbD j = !w.getLsbD j := by
  rw [BitVec.getLsbD_xor, ones, BitVec.getLsbD_allOnes, decide_eq_true hj, Bool.xor_true]

theorem flipped_eq_zero : w ^^^ ones = 0 ↔ ∀ j < 64, w.getLsbD j = true := by
  constructor
  · intro hzero j hj
    have hbit := getLsbD_flipped w hj
    rw [hzero] at hbit
    simpa using hbit
  · intro hset
    apply BitVec.eq_of_getLsbD_eq
    intro j hj
    rw [getLsbD_flipped w hj, hset j hj]
    simp

theorem scanMap_full (hw : map[i]? = some w) (hset : ∀ j < 64, w.getLsbD j = true) :
    scanMap map (k + 1) i b (-1) = scanMap map k (i + 1) (b + 64) (-1) := by
  have hzero : ¬w ^^^ ones ≠ 0 := not_not_intro (flipped_eq_zero.mpr hset)
  have hneg : (-1 : ℤ) < 0 := by decide
  rw [scanMap, if_pos hneg, hw]
  simp only [Option.bind_eq_bind, Option.bind_some, if_neg hzero]
  rfl

/-- A word with a bit that is not set ends the loop, by the assertion where the index of the bit
is negative as an `int`. -/
theorem scanMap_found (hw : map[i]? = some w) (hj : j < 64)
    (hclear : w.getLsbD j = false) (hset : ∀ l < j, w.getLsbD l = true) :
    scanMap map (k + 1) i b (-1) =
      if toInt (b + j) < 0 then none else some (toInt (b + j)) := by
  have hne : w ^^^ ones ≠ 0 := by
    intro hzero
    have htrue := flipped_eq_zero.mp hzero j hj
    rw [hclear] at htrue
    cases htrue
  have hneg : (-1 : ℤ) < 0 := by decide
  have hscan : scanWord mapbits (w ^^^ ones) b (-1) = (toInt (b + j), b + j) := by
    apply scanWord_spec hj
    · rw [getLsbD_flipped w hj, hclear]
      rfl
    · intro l hl
      rw [getLsbD_flipped w (by omega), hset l hl]
      rfl
    · exact hneg
  rw [scanMap, if_pos hneg, hw]
  simp only [Option.bind_eq_bind, Option.bind_some, if_pos hne, hscan]
  by_cases hint : toInt (b + j) < 0
  · rw [if_pos hint, if_pos hint]
  · rw [if_neg hint, if_neg hint]
    cases k with
    | zero => rfl
    | succ k => rw [scanMap, if_neg hint]

theorem bit_word (hw : map[i]? = some w) (hj : j < 64) : bit map (i * 64 + j) = w.getLsbD j := by
  have hdiv : (i * 64 + j) / mapbits = i := by
    rw [mapbits]
    omega
  have hmod : (i * 64 + j) % mapbits = j := by
    rw [mapbits]
    omega
  have hw' : map[(i * 64 + j) / mapbits]? = some w := by rw [hdiv, hw]
  rw [bit_of_getElem? hw', hmod]

theorem scanMap_first {q : ℕ} (hq : q < map.length * 64) (hclear : bit map q = false)
    (hset : ∀ p < q, bit map p = true) (hi : i ≤ q / 64) (hk : q / 64 < i + k) :
    scanMap map k i (i * 64) (-1) = if toInt q < 0 then none else some (toInt q) := by
  have hword (p : ℕ) (hp : p < map.length * 64) : ∃ w, map[p / 64]? = some w := by
    have hlt : p / 64 < map.length := by omega
    exact ⟨_, List.getElem?_eq_getElem hlt⟩
  induction k generalizing i with
  | zero => omega
  | succ k ih =>
    obtain ⟨w, hw⟩ := hword (i * 64) (by omega)
    have hdiv : i * 64 / 64 = i := by omega
    rw [hdiv] at hw
    by_cases heq : i = q / 64
    · have hqi : i * 64 + q % 64 = q := by omega
      have hfound := scanMap_found (k := k) (b := i * 64) (j := q % 64) hw (by omega)
        (by rw [← bit_word hw (by omega), hqi, hclear])
        (fun l hl => by rw [← bit_word hw (by omega), hset _ (by omega)])
      rw [hqi] at hfound
      exact hfound
    · have hfull := scanMap_full (k := k) (b := i * 64) hw
        (fun l hl => by rw [← bit_word hw hl, hset _ (by omega)])
      have hnext := ih (i := i + 1) (by omega) (by omega)
      rw [hfull, ← hnext, Nat.succ_mul]

theorem scanMap_ones (hset : ∀ p < map.length * 64, bit map p = true) (hi : i ≤ map.length) :
    scanMap map k i (i * 64) (-1) = if i + k ≤ map.length then some (-1) else none := by
  induction k generalizing i with
  | zero => rw [scanMap, if_pos (show i + 0 ≤ map.length from hi)]
  | succ k ih =>
    by_cases hlt : i < map.length
    · have hw : map[i]? = some map[i] := List.getElem?_eq_getElem hlt
      have hones (l : ℕ) (hl : l < 64) : map[i].getLsbD l = true :=
        (bit_word hw hl).symm.trans (hset _ (by omega))
      have hnext := ih (i := i + 1) (by omega)
      have hassoc : i + 1 + k = i + (k + 1) := by omega
      rw [hassoc] at hnext
      rw [scanMap_full hw hones, ← hnext, Nat.succ_mul]
    · have hnone : map[i]? = none := List.getElem?_eq_none_iff.mpr (by omega)
      have hout : ¬i + (k + 1) ≤ map.length := by omega
      have hneg : (-1 : ℤ) < 0 := by decide
      rw [scanMap, if_pos hneg, hnone, if_neg hout]
      rfl

/-- What `first_unset_bit` is to answer. -/
def LeastUnset (bv : Bitvec) (r : ℤ) : Prop :=
  (∃ i : ℕ, r = i ∧ i < bv.nbits ∧ bv.at i = some false ∧ ∀ j < i, bv.at j = some true) ∨
    (r = -1 ∧ ∀ i < bv.nbits, bv.at i = some true)

theorem at_eq_some_iff {v : Bool} :
    bv.at i = some v ↔ i < bv.map.length * 64 ∧ bit bv.map i = v := by
  rw [at_eq, mapbits]
  split_ifs with hi
  · simp [hi]
  · simp [hi]

theorem exists_first (map : List (BitVec 64)) :
    (∃ q < map.length * 64, bit map q = false ∧ ∀ p < q, bit map p = true) ∨
      ∀ p < map.length * 64, bit map p = true := by
  by_cases hex : ∃ q, q < map.length * 64 ∧ bit map q = false
  · have hspec := Nat.find_spec hex
    refine Or.inl ⟨Nat.find hex, hspec.1, hspec.2, ?_⟩
    intro p hp
    have hmin := Nat.find_min hex hp
    have hlt : p < map.length * 64 := by omega
    rw [not_and, Bool.not_eq_false] at hmin
    exact hmin hlt
  · refine Or.inr fun p hp => ?_
    have hnot := not_exists.mp hex p
    rw [not_and, Bool.not_eq_false] at hnot
    exact hnot hp

/-- `first_unset_bit` answers as it should, without a look outside of the map, if and only if a
bit of the vector is not set and an `int` can hold the first index of one, or all the bits of the
map are set, its padding included, and there is padding. -/
theorem firstUnsetBit_iff {bv : Bitvec} (h : bv.Wf) :
    (∃ r, bv.firstUnsetBit = some r ∧ bv.LeastUnset r) ↔
      (∃ i < bv.nbits, i < 2 ^ 31 ∧ bv.at i = some false ∧ ∀ j < i, bv.at j = some true) ∨
        (bv.nbits % 64 ≠ 0 ∧ ∀ i < bv.map.length * 64, bv.at i = some true) := by
  have hwords := h.words
  have hstart : bv.firstUnsetBit = scanMap bv.map (bv.nbits / 64 + 1) 0 (0 * 64) (-1) := rfl
  rcases exists_first bv.map with ⟨q, hq, hclear, hset⟩ | hset
  · -- The loops stop at `q`, which may be one of the bits of the padding.
    have hslots : q / 64 < 0 + (bv.nbits / 64 + 1) := by omega
    have hrun : bv.firstUnsetBit = if toInt q < 0 then none else some (toInt q) := by
      rw [hstart]
      exact scanMap_first hq hclear hset (Nat.zero_le _) hslots
    have hat (p : ℕ) (hp : p < q) : bv.at p = some true :=
      at_eq_some_iff.mpr ⟨by omega, hset p hp⟩
    have hatq : bv.at q = some false := at_eq_some_iff.mpr ⟨hq, hclear⟩
    have hfirst (i : ℕ) (hi : bv.at i = some false) (hbefore : ∀ j < i, bv.at j = some true) :
        i = q := by
      rcases Nat.lt_trichotomy i q with hlt | heq | hgt
      · rw [hat i hlt] at hi
        cases hi
      · exact heq
      · have htrue := hbefore q hgt
        rw [hatq] at htrue
        cases htrue
    constructor
    · rintro ⟨r, hr, hleast⟩
      rw [hrun] at hr
      split_ifs at hr with hneg
      cases hr
      rcases hleast with ⟨i, hri, hin, hi, hbefore⟩ | ⟨hri, -⟩
      · have heq := hfirst i hi hbefore
        have hmax := toInt_lt q
        refine Or.inl ⟨i, hin, ?_, hi, hbefore⟩
        omega
      · omega
    · rintro (⟨i, hin, hmax, hi, hbefore⟩ | ⟨-, hall⟩)
      · obtain rfl := hfirst i hi hbefore
        have hint := toInt_of_lt hmax
        have hneg : ¬toInt i < 0 := by omega
        refine ⟨toInt i, ?_, Or.inl ⟨i, hint, hin, hi, hbefore⟩⟩
        rw [hrun, if_neg hneg]
      · have htrue := hall q hq
        rw [hatq] at htrue
        cases htrue
  · have hrun : bv.firstUnsetBit =
        if 0 + (bv.nbits / 64 + 1) ≤ bv.map.length then some (-1) else none := by
      rw [hstart]
      exact scanMap_ones hset (Nat.zero_le _)
    have hat (p : ℕ) (hp : p < bv.map.length * 64) : bv.at p = some true :=
      at_eq_some_iff.mpr ⟨hp, hset p hp⟩
    constructor
    · rintro ⟨r, hr, -⟩
      rw [hrun] at hr
      split_ifs at hr with hroom
      exact Or.inr ⟨by omega, hat⟩
    · rintro (⟨i, hin, -, hi, -⟩ | ⟨hpad, -⟩)
      · have htrue := hat i (by omega)
        rw [hi] at htrue
        cases htrue
      · have hroom : 0 + (bv.nbits / 64 + 1) ≤ bv.map.length := by omega
        refine ⟨-1, ?_, Or.inr ⟨rfl, fun i hi => hat i (by omega)⟩⟩
        rw [hrun, if_pos hroom]

/-- Three bits, the last of which is not set. -/
theorem firstUnsetBit_three :
    let bv : Bitvec := ⟨[3], 3⟩
    (∃ r, bv.firstUnsetBit = some r ∧ bv.LeastUnset r) ↔
      (∃ i < bv.nbits, i < 2 ^ 31 ∧ bv.at i = some false ∧ ∀ j < i, bv.at j = some true) ∨
        (bv.nbits % 64 ≠ 0 ∧ ∀ i < bv.map.length * 64, bv.at i = some true) :=
  firstUnsetBit_iff ⟨rfl, by decide⟩

/-- Where sixty-four bits are all set, the word behind them is read. -/
theorem firstUnsetBit_full :
    ¬∃ r, firstUnsetBit ⟨[ones], 64⟩ = some r ∧ LeastUnset ⟨[ones], 64⟩ r := by
  rintro ⟨r, hr, -⟩
  have hnone : firstUnsetBit ⟨[ones], 64⟩ = none := by decide
  rw [hnone] at hr
  cases hr

end Bitvec

end Sfslite.Async
