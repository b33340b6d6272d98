import Sfslite.Async.Bbfree

/-!
`bitvec.h`, for a `long` of 64 bits. A size is a `size_t`. An access outside of the words of the
map, and an assertion that fails, answer `none`.
-/

namespace Sfslite.Async

/-- The map, a null pointer without words, and the number of bits. -/
structure Bitvec where
  map : List (BitVec 64)
  nbits : ℕ
deriving DecidableEq, Repr

/-- `at` -/
def Bitvec.at (bv : Bitvec) (i : ℕ) : Option Bool :=
  bv.map[i / mapbits]?.map fun w => w &&& 1#64 <<< (i % mapbits) ≠ 0

namespace Bitvec

/-- `map_t (-1)` -/
def ones : BitVec 64 :=
  BitVec.allOnes 64

/-- The words of `nb` bits: `nbytes` without the size of a word. The sum is a `size_t`. -/
def nwords (nb : ℕ) : ℕ :=
  (nb + mapbits - 1) % 2 ^ 64 / mapbits

/-- The words that are kept stay as they are, new ones are what `junk` says. -/
def datalloc (bv : Bitvec) (nb : ℕ) (junk : ℕ → BitVec 64) : List (BitVec 64) :=
  if nb ≠ 0 then (List.range (nwords nb)).map fun i => bv.map.getD i (junk i) else []

def write (map : List (BitVec 64)) (i : ℕ) (f : BitVec 64 → BitVec 64) :
    Option (List (BitVec 64)) :=
  map[i]?.map fun w => map.set i (f w)

/-- `memset` of `k` words from word `i` on. -/
def fill (map : List (BitVec 64)) (i k : ℕ) (v : BitVec 64) : Option (List (BitVec 64)) :=
  if i + k ≤ map.length then some (map.mapIdx fun j w => if i ≤ j ∧ j < i + k then v else w)
  else none

/-- What `range_set` and `range_clr` have in common: `one` is for a range within one word, `first`
and `last` are for the ends of a longer one, and `v` goes in between. -/
def range (one : ℕ → ℕ → BitVec 64 → BitVec 64) (first last : ℕ → BitVec 64 → BitVec 64)
    (v : BitVec 64) (map : List (BitVec 64)) (s e : ℕ) : Option (List (BitVec 64)) :=
  let sp := s / mapbits
  let ep := e / mapbits
  let sb := s % mapbits
  let eb := e % mapbits
  if sp = ep then
    if eb ≠ 0 then write map sp (one sb eb) else some map
  else do
    let map ← write map sp (first sb)
    let map ← (if eb ≠ 0 then write map ep (last eb) else some map)
    fill map (sp + 1) (ep - sp - 1) v

def rangeSet : List (BitVec 64) → ℕ → ℕ → Option (List (BitVec 64)) :=
  range (fun sb eb w => w ||| (ones <<< sb &&& ~~~(ones <<< eb)))
    (fun sb w => w ||| ones <<< sb) (fun eb w => w ||| ~~~(ones <<< eb)) ones

def rangeClr : List (BitVec 64) → ℕ → ℕ → Option (List (BitVec 64)) :=
  range (fun sb eb w => w &&& (~~~(ones <<< sb) ||| ones <<< eb))
    (fun sb w => w &&& ~~~(ones <<< sb)) (fun eb w => w &&& ones <<< eb) 0

def setrange (bv : Bitvec) (s e : ℕ) (v : Bool) : Option Bitvec := do
  let map ← (if v then rangeSet bv.map s e else rangeClr bv.map s e)
  return { bv with map := map }

def init : Bitvec := ⟨[], 0⟩

def setsize (bv : Bitvec) (n : ℕ) (junk : ℕ → BitVec 64) : Bitvec :=
  ⟨bv.datalloc n junk, n⟩

/-- What `zsetsize` and `osetsize` have in common: `fresh` is the work on the new bits. -/
def resize (fresh : List (BitVec 64) → ℕ → ℕ → Option (List (BitVec 64))) (bv : Bitvec) (n : ℕ)
    (junk : ℕ → BitVec 64) : Option Bitvec := do
  let map := bv.datalloc n junk
  let map ← (if bv.nbits < n then fresh map bv.nbits n else some map)
  return ⟨map, n⟩

def zsetsize : Bitvec → ℕ → (ℕ → BitVec 64) → Option Bitvec :=
  resize rangeClr

def osetsize : Bitvec → ℕ → (ℕ → BitVec 64) → Option Bitvec :=
  resize rangeSet

/-- The conversion of an index to an `int`. -/
def toInt (n : ℕ) : ℤ :=
  (BitVec.ofNat 32 n).toInt

/-- The inner loop of `first_unset_bit`, `k` turns being left: `ret` and `bitindex`. -/
def scanWord : (k : ℕ) → (tmp : BitVec 64) → (bitindex : ℕ) → (ret : ℤ) → ℤ × ℕ
  | 0, _, bitindex, ret => (ret, bitindex)
  | k + 1, tmp, bitindex, ret =>
    if ret < 0 then
      if tmp &&& 1 ≠ 0 then scanWord k tmp bitindex (toInt bitindex)
      else scanWord k (tmp >>> 1) (bitindex + 1) ret
    else (ret, bitindex)

/-- The outer loop of `first_unset_bit` from word `i` on, `k` slots being left. -/
def scanMap (map : List (BitVec 64)) : (k i bitindex : ℕ) → (ret : ℤ) → Option ℤ
  | 0, _, _, ret => some ret
  | k + 1, i, bitindex, ret =>
    if ret < 0 then do
      let w ← map[i]?
      let tmp := w ^^^ ones
      if tmp ≠ 0 then
        let (ret, bitindex) := scanWord mapbits tmp bitindex ret
        -- assert (ret >= 0)
        if ret < 0 then none else scanMap map k (i + 1) (bitindex + mapbits) ret
      else scanMap map k (i + 1) (bitindex + mapbits) ret
    else some ret

def firstUnsetBit (bv : Bitvec) : Option ℤ :=
  let slots := bv.nbits / mapbits + 1
  scanMap bv.map slots 0 0 (-1)

/-- The map has the words that the bits need, and no more. -/
structure Wf (bv : Bitvec) : Prop where
  words : bv.map.length = (bv.nbits + 63) / 64
  size : bv.nbits + 63 < 2 ^ 64

variable {bv : Bitvec} {map map' : List (BitVec 64)} {s e n i : ℕ} {v : Bool}

theorem at_eq (bv : Bitvec) (i : ℕ) :
    bv.at i = if i < bv.map.length * mapbits then some (bit bv.map i) else none := by
  unfold Bitvec.at
  have hmb : mapbits = 64 := rfl
  cases hw : bv.map[i / mapbits]? with
  | none =>
    have hle := List.getElem?_eq_none_iff.mp hw
    have hout : ¬i < bv.map.length * mapbits := by
      rw [hmb] at hle ⊢
      omega
    rw [if_neg hout]
    rfl
  | some w =>
    have hlt := (List.getElem?_eq_some_iff.mp hw).1
    have hin : i < bv.map.length * mapbits := by
      rw [hmb] at hlt ⊢
      omega
    rw [if_pos hin, bit_of_getElem? hw]
    have hmask := and_mask_eq_zero (w := w) (mod_mapbits_lt i)
    cases hbit : w.getLsbD (i % mapbits) with
    | false => simp [hmask.mpr hbit]
    | true =>
      have hne : ¬w &&& 1#64 <<< (i % mapbits) = 0 := by
        intro hzero
        have hfalse := hmask.mp hzero
        rw [hbit] at hfalse
        cases hfalse
      simpa using hne

theorem write_spec {f : BitVec 64 → BitVec 64} {c : ℕ → Prop} [DecidablePred c]
    (hf : ∀ w j, j < 64 → (f w).getLsbD j = if c j then v else w.getLsbD j) (hi : i < map.length) :
    ∃ map', write map i f = some map' ∧ map'.length = map.length ∧
      ∀ p, bit map' p = if p / 64 = i ∧ c (p % 64) then v else bit map p := by
  have hget : map[i]? = some map[i] := List.getElem?_eq_getElem hi
  refine ⟨map.set i (f map[i]), ?_, List.length_set, ?_⟩
  · rw [write, hget]
    rfl
  · intro p
    rw [bit_set hi]
    by_cases hp : p / mapbits = i
    · have hlt : p % 64 < 64 := mod_mapbits_lt p
      have hbit : bit map p = map[i].getLsbD (p % 64) := by
        apply bit_of_getElem?
        rw [hp, hget]
      have hp' : p / 64 = i := hp
      rw [if_pos hp, hbit]
      simp only [hp', true_and]
      exact hf map[i] (p % 64) hlt
    · have hp' : ¬(p / 64 = i ∧ c (p % 64)) := fun h => hp h.1
      rw [if_neg hp, if_neg hp']

theorem fill_spec {k : ℕ} {w : BitVec 64} (hw : ∀ j < 64, w.getLsbD j = v)
    (hk : i + k ≤ map.length) :
    ∃ map', fill map i k w = some map' ∧ map'.length = map.length ∧
      ∀ p, bit map' p = if i ≤ p / 64 ∧ p / 64 < i + k then v else bit map p := by
  refine ⟨_, if_pos hk, List.length_mapIdx, ?_⟩
  intro p
  have hlt : p % mapbits < 64 := mod_mapbits_lt p
  have hdiv : p / mapbits = p / 64 := rfl
  unfold bit
  rw [List.getD_eq_getElem?_getD, List.getD_eq_getElem?_getD, List.getElem?_mapIdx, hdiv]
  cases hget : map[p / 64]? with
  | none =>
    have hout := List.getElem?_eq_none_iff.mp hget
    have hin : ¬(i ≤ p / 64 ∧ p / 64 < i + k) := by omega
    rw [if_neg hin]
    rfl
  | some u =>
    simp only [Option.map_some, Option.getD_some]
    by_cases hin : i ≤ p / 64 ∧ p / 64 < i + k
    · rw [if_pos hin, if_pos hin]
      exact hw _ hlt
    · rw [if_neg hin, if_neg hin]

/-- The work on the words of a range makes its bits `v`. -/
structure Makes (v : Bool) (one : ℕ → ℕ → BitVec 64 → BitVec 64)
    (first last : ℕ → BitVec 64 → BitVec 64) (full : BitVec 64) : Prop where
  one : ∀ sb eb w j, j < 64 →
    (one sb eb w).getLsbD j = if sb ≤ j ∧ j < eb then v else w.getLsbD j
  first : ∀ sb w j, j < 64 → (first sb w).getLsbD j = if sb ≤ j then v else w.getLsbD j
  last : ∀ eb w j, j < 64 → (last eb w).getLsbD j = if j < eb then v else w.getLsbD j
  full : ∀ j < 64, full.getLsbD j = v

theorem getLsbD_shifted {sb j : ℕ} (hj : j < 64) : (ones <<< sb).getLsbD j = decide (sb ≤ j) := by
  have hsub : j - sb < 64 := by omega
  rw [ones, BitVec.getLsbD_shiftLeft, BitVec.getLsbD_allOnes]
  by_cases hs : sb ≤ j
  · simp [hj, hsub, hs]
  · have hlt : j < sb := by omega
    simp [hlt]

theorem makes_set : Makes true (fun sb eb w => w ||| (ones <<< sb &&& ~~~(ones <<< eb)))
    (fun sb w => w ||| ones <<< sb) (fun eb w => w ||| ~~~(ones <<< eb)) ones where
  one sb eb w j hj := by
    rw [BitVec.getLsbD_or, BitVec.getLsbD_and, BitVec.getLsbD_not, getLsbD_shifted hj,
      getLsbD_shifted hj]
    by_cases hs : sb ≤ j <;> by_cases he : j < eb <;> simp [hs, he, hj]
  first sb w j hj := by
    rw [BitVec.getLsbD_or, getLsbD_shifted hj]
    by_cases hs : sb ≤ j <;> simp [hs]
  last eb w j hj := by
    rw [BitVec.getLsbD_or, BitVec.getLsbD_not, getLsbD_shifted hj]
    by_cases he : j < eb <;> simp [he, hj]
  full j hj := by rw [ones, BitVec.getLsbD_allOnes, decide_eq_true hj]

theorem makes_clr : Makes false (fun sb eb w => w &&& (~~~(ones <<< sb) ||| ones <<< eb))
    (fun sb w => w &&& ~~~(ones <<< sb)) (fun eb w => w &&& ones <<< eb) 0 where
  one sb eb w j hj := by
    rw [BitVec.getLsbD_and, BitVec.getLsbD_or, BitVec.getLsbD_not, getLsbD_shifted hj,
      getLsbD_shifted hj]
    by_cases hs : sb ≤ j <;> by_cases he : eb ≤ j <;> simp [hs, he, hj]
  first sb w j hj := by
    rw [BitVec.getLsbD_and, BitVec.getLsbD_not, getLsbD_shifted hj]
    by_cases hs : sb ≤ j <;> simp [hs, hj]
  last eb w j hj := by
    rw [BitVec.getLsbD_and, getLsbD_shifted hj]
    by_cases he : eb ≤ j <;> simp [he]
  full j _ := by simp

/-- The bits from `s` up to `e` become `v`, and no others change. -/
def SetsBits (r : Option (List (BitVec 64))) (map : List (BitVec 64)) (s e : ℕ) (v : Bool) : Prop :=
  ∃ map', r = some map' ∧ map'.length = map.length ∧
    ∀ p, bit map' p = if s ≤ p ∧ p < e then v else bit map p

variable {one : ℕ → ℕ → BitVec 64 → BitVec 64} {first last : ℕ → BitVec 64 → BitVec 64}
  {full : BitVec 64}

theorem range_one (hm : Makes v one first last full) (hse : s ≤ e) (he : e ≤ map.length * 64)
    (hsp : s / 64 = e / 64) : SetsBits (range one first last full map s e) map s e v := by
  have hmb : mapbits = 64 := rfl
  by_cases heb : e % 64 = 0
  · -- The range is empty.
    refine ⟨map, ?_, rfl, ?_⟩
    · simp only [range, hmb, hsp, heb, if_true, ne_eq, not_true_eq_false, if_false]
    · intro p
      have hout : ¬(s ≤ p ∧ p < e) := by omega
      rw [if_neg hout]
  · have hlt : s / 64 < map.length := by omega
    obtain ⟨map', hwrite, hlen, hbits⟩ := write_spec (hm.one (s % 64) (e % 64)) hlt
    refine ⟨map', ?_, hlen, ?_⟩
    · simp only [range, hmb, hsp, if_true, ne_eq, heb, not_false_eq_true]
      rw [← hsp]
      exact hwrite
    · intro p
      have hiff : (p / 64 = s / 64 ∧ s % 64 ≤ p % 64 ∧ p % 64 < e % 64) ↔ s ≤ p ∧ p < e := by
        omega
      rw [hbits p]
      simp only [hiff]

theorem range_many (hm : Makes v one first last full) (hse : s ≤ e) (he : e ≤ map.length * 64)
    (hsp : s / 64 ≠ e / 64) : SetsBits (range one first last full map s e) map s e v := by
  have hmb : mapbits = 64 := rfl
  have hlt : s / 64 < map.length := by omega
  obtain ⟨map₁, hfirst, hlen₁, hbits₁⟩ := write_spec (hm.first (s % 64)) hlt
  have hlast : ∃ map₂, (if e % 64 ≠ 0 then write map₁ (e / 64) (last (e % 64)) else some map₁) =
      some map₂ ∧ map₂.length = map.length ∧
      ∀ p, bit map₂ p = if p / 64 = e / 64 ∧ p % 64 < e % 64 then v else bit map₁ p := by
    by_cases heb : e % 64 = 0
    · refine ⟨map₁, if_neg (not_not_intro heb), hlen₁, ?_⟩
      intro p
      have hout : ¬(p / 64 = e / 64 ∧ p % 64 < e % 64) := by omega
      rw [if_neg hout]
    · have hlt' : e / 64 < map₁.length := by omega
      obtain ⟨map₂, hwrite, hlen, hbits⟩ := write_spec (hm.last (e % 64)) hlt'
      exact ⟨map₂, (if_pos heb).trans hwrite, hlen.trans hlen₁, hbits⟩
  obtain ⟨map₂, hwrite, hlen₂, hbits₂⟩ := hlast
  have hroom : s / 64 + 1 + (e / 64 - s / 64 - 1) ≤ map₂.length := by omega
  obtain ⟨map₃, hfill, hlen₃, hbits₃⟩ := fill_spec hm.full hroom
  refine ⟨map₃, ?_, hlen₃.trans hlen₂, ?_⟩
  · simp only [range, hmb, if_neg hsp, hfirst, hwrite, Option.bind_eq_bind, Option.bind_some]
    exact hfill
  · intro p
    rw [hbits₃ p, hbits₂ p, hbits₁ p]
    split_ifs with h₁ h₂ h₃ h₄ <;> first | rfl | omega

theorem range_spec (hm : Makes v one first last full) (hse : s ≤ e)
    (he : e ≤ map.length * 64) : SetsBits (range one first last full map s e) map s e v := by
  by_cases hsp : s / 64 = e / 64
  · exact range_one hm hse he hsp
  · exact range_many hm hse he hsp

variable (bv) in
theorem at_of_setsBits {r : Option (List (BitVec 64))} (h : SetsBits r bv.map s e v)
    (he : e ≤ bv.map.length * 64) :
    ∃ map', r = some map' ∧ map'.length = bv.map.length ∧
      ∀ n i, Bitvec.at ⟨map', n⟩ i = if s ≤ i ∧ i < e then some v else bv.at i := by
  obtain ⟨map', hr, hlen, hbits⟩ := h
  refine ⟨map', hr, hlen, ?_⟩
  intro n i
  have hmb : mapbits = 64 := rfl
  simp only [at_eq, hlen, hbits i]
  split_ifs with h₁ h₂ h₃
  · rfl
  · rfl
  · rw [hmb] at h₁
    omega
  · rfl

theorem Wf.setrange (h : bv.Wf) (hse : s ≤ e) (he : e ≤ bv.nbits) (v : Bool) :
    ∃ bv', bv.setrange s e v = some bv' ∧ bv'.nbits = bv.nbits ∧ bv'.Wf ∧
      ∀ i, bv'.at i = if s ≤ i ∧ i < e then some v else bv.at i := by
  have hroom : e ≤ bv.map.length * 64 := by
    have hwords := h.words
    omega
  have hsets : SetsBits (if v then rangeSet bv.map s e else rangeClr bv.map s e) bv.map s e v := by
    cases v with
    | false => exact range_spec makes_clr hse hroom
    | true => exact range_spec makes_set hse hroom
  obtain ⟨map', hr, hlen, hat⟩ := at_of_setsBits _ hsets hroom
  refine ⟨⟨map', bv.nbits⟩, ?_, rfl, ⟨hlen.trans h.words, h.size⟩, hat bv.nbits⟩
  rw [Bitvec.setrange, hr]
  rfl

theorem nwords_eq (hn : n + 63 < 2 ^ 64) : nwords n = (n + 63) / 64 := by
  rw [nwords, mapbits, show n + 64 - 1 = n + 63 by omega, Nat.mod_eq_of_lt hn]

theorem length_datalloc (bv : Bitvec) (hn : n + 63 < 2 ^ 64) (junk : ℕ → BitVec 64) :
    (bv.datalloc n junk).length = (n + 63) / 64 := by
  unfold datalloc
  split_ifs with hzero
  · rw [List.length_map, List.length_range, nwords_eq hn]
  · have hnil : n = 0 := not_not.mp hzero
    rw [hnil]
    rfl

theorem Wf.bit_datalloc (h : bv.Wf) (hn : n + 63 < 2 ^ 64) (junk : ℕ → BitVec 64)
    (hle : bv.nbits ≤ n) (hi : i < bv.nbits) : bit (bv.datalloc n junk) i = bit bv.map i := by
  have hwords := h.words
  have hne : n ≠ 0 := by omega
  have hold : i / 64 < bv.map.length := by omega
  have hnew : i / 64 < (n + 63) / 64 := by omega
  have hget : (bv.datalloc n junk)[i / 64]? = some bv.map[i / 64] := by
    rw [datalloc, if_pos hne, List.getElem?_map, nwords_eq hn, List.getElem?_range hnew,
      Option.map_some, List.getD_eq_getElem?_getD, List.getElem?_eq_getElem hold]
    rfl
  have hget' : bv.map[i / 64]? = some bv.map[i / 64] := List.getElem?_eq_getElem hold
  exact (bit_of_getElem? hget).trans (bit_of_getElem? hget').symm

/-- The old bits stay and the new ones are `v`. -/
def Grows (bv : Bitvec) (n : ℕ) (v : Bool) (r : Option Bitvec) : Prop :=
  ∃ bv', r = some bv' ∧ bv'.nbits = n ∧
    ∀ i < n, bv'.at i = if i < bv.nbits then bv.at i else some v

variable {fresh : List (BitVec 64) → ℕ → ℕ → Option (List (BitVec 64))}

theorem Wf.resize (h : bv.Wf) (hn : n + 63 < 2 ^ 64) (hle : bv.nbits ≤ n) (junk : ℕ → BitVec 64)
    (hfresh : ∀ map s e, s ≤ e → e ≤ map.length * 64 → SetsBits (fresh map s e) map s e v) :
    ∃ bv', resize fresh bv n junk = some bv' ∧ bv'.nbits = n ∧ bv'.Wf ∧
      ∀ i < n, bv'.at i = if i < bv.nbits then bv.at i else some v := by
  have hmb : mapbits = 64 := rfl
  have hwords := h.words
  have hlen := length_datalloc bv hn junk
  have hroom : n ≤ (bv.datalloc n junk).length * 64 := by omega
  have hold (i : ℕ) (hi : i < bv.nbits) : Bitvec.at ⟨bv.datalloc n junk, n⟩ i = bv.at i := by
    have hin : i < (bv.datalloc n junk).length * 64 := by omega
    have hin' : i < bv.map.length * 64 := by omega
    rw [at_eq, at_eq, hmb, if_pos hin, if_pos hin', h.bit_datalloc hn junk hle hi]
  by_cases hlt : bv.nbits < n
  · obtain ⟨map', hr, hlen', hat⟩ :=
      at_of_setsBits ⟨bv.datalloc n junk, n⟩ (hfresh _ _ _ hle hroom) hroom
    refine ⟨⟨map', n⟩, ?_, rfl, ⟨hlen'.trans hlen, hn⟩, ?_⟩
    · simp only [Bitvec.resize, if_pos hlt, hr, Option.bind_eq_bind, Option.bind_some]
      rfl
    · intro i hi
      rw [hat n i]
      by_cases hib : i < bv.nbits
      · have hout : ¬(bv.nbits ≤ i ∧ i < n) := by omega
        rw [if_neg hout, if_pos hib]
        exact hold i hib
      · have hin : bv.nbits ≤ i ∧ i < n := by omega
        rw [if_pos hin, if_neg hib]
  · refine ⟨⟨bv.datalloc n junk, n⟩, ?_, rfl, ⟨hlen, hn⟩, ?_⟩
    · simp only [Bitvec.resize, if_neg hlt, Option.bind_eq_bind, Option.bind_some]
      rfl
    · intro i hi
      have hib : i < bv.nbits := by omega
      rw [if_pos hib]
      exact hold i hib

theorem datalloc_wrapped (bv : Bitvec) (hn : n < 2 ^ 64) (hwrap : 2 ^ 64 ≤ n + 63)
    (junk : ℕ → BitVec 64) : bv.datalloc n junk = [] := by
  have hzero : nwords n = 0 := by
    rw [nwords, mapbits, show n + 64 - 1 = n + 63 by omega]
    omega
  unfold datalloc
  rw [hzero]
  split_ifs <;> rfl

theorem Wf.resize_wrapped (h : bv.Wf) (hn : n < 2 ^ 64) (hwrap : 2 ^ 64 ≤ n + 63)
    (junk : ℕ → BitVec 64) (one : ℕ → ℕ → BitVec 64 → BitVec 64)
    (first last : ℕ → BitVec 64 → BitVec 64) (full : BitVec 64) :
    Bitvec.resize (range one first last full) bv n junk = none := by
  have hsize := h.size
  have hlt : bv.nbits < n := by omega
  have heb : n % 64 ≠ 0 := by omega
  have hmb : mapbits = 64 := rfl
  have hwrite (i : ℕ) (f : BitVec 64 → BitVec 64) : write [] i f = none := rfl
  have hnone : range one first last full [] bv.nbits n = none := by
    by_cases hsp : bv.nbits / 64 = n / 64
    · simp only [range, hmb, if_pos hsp, if_pos heb, hwrite]
    · simp only [range, hmb, if_neg hsp, hwrite]
      rfl
  simp only [Bitvec.resize, datalloc_wrapped bv hn hwrap, if_pos hlt, hnone]
  rfl

theorem Wf.grows_iff (h : bv.Wf) (hm : Makes v one first last full) (hn : n < 2 ^ 64)
    (hle : bv.nbits ≤ n) (junk : ℕ → BitVec 64) :
    Grows bv n v (Bitvec.resize (range one first last full) bv n junk) ↔ n + 63 < 2 ^ 64 := by
  constructor
  · rintro ⟨bv', hr, -, -⟩
    by_contra hwrap
    have hnone := h.resize_wrapped hn (not_lt.mp hwrap) junk one first last full
    rw [hnone] at hr
    cases hr
  · intro hfits
    have hfresh (map : List (BitVec 64)) (s e : ℕ) (hse : s ≤ e) (he : e ≤ map.length * 64) :
        SetsBits (range one first last full map s e) map s e v := range_spec hm hse he
    obtain ⟨bv', hr, hsize, -, hat⟩ := h.resize hfits hle junk hfresh
    exact ⟨bv', hr, hsize, hat⟩

/-- Ranges of a bit vector: `setrange` writes exactly the bits of its range, and growing keeps the
old bits and gives the new ones their value, if and only if the new size can be rounded up to
whole words in a `size_t`. -/
theorem bitvec_ranges {bv : Bitvec} (h : bv.Wf) :
    (∀ s e v, s ≤ e → e ≤ bv.nbits → ∃ bv', bv.setrange s e v = some bv' ∧
      bv'.nbits = bv.nbits ∧ ∀ i, bv'.at i = if s ≤ i ∧ i < e then some v else bv.at i) ∧
    ∀ n < 2 ^ 64, bv.nbits ≤ n → ∀ junk,
      (Grows bv n false (bv.zsetsize n junk) ↔ n + 63 < 2 ^ 64) ∧
      (Grows bv n true (bv.osetsize n junk) ↔ n + 63 < 2 ^ 64) := by
  constructor
  · intro s e v hse he
    obtain ⟨bv', hr, hsize, -, hat⟩ := h.setrange hse he v
    exact ⟨bv', hr, hsize, hat⟩
  · intro n hn hle junk
    exact ⟨h.grows_iff makes_clr hn hle junk, h.grows_iff makes_set hn hle junk⟩

/-- Seventy bits in two words. -/
theorem bitvec_ranges_seventy :
    let bv : Bitvec := ⟨[5, 3], 70⟩
    (∀ s e v, s ≤ e → e ≤ bv.nbits → ∃ bv', bv.setrange s e v = some bv' ∧
      bv'.nbits = bv.nbits ∧ ∀ i, bv'.at i = if s ≤ i ∧ i < e then some v else bv.at i) ∧
    ∀ n < 2 ^ 64, bv.nbits ≤ n → ∀ junk,
      (Grows bv n false (bv.zsetsize n junk) ↔ n + 63 < 2 ^ 64) ∧
      (Grows bv n true (bv.osetsize n junk) ↔ n + 63 < 2 ^ 64) :=
  bitvec_ranges ⟨rfl, by decide⟩

/-- An empty vector that is to grow to the largest size gets no words. -/
theorem zsetsize_largest :
    ¬Grows init (2 ^ 64 - 1) false (init.zsetsize (2 ^ 64 - 1) fun _ => 0) := by
  rintro ⟨bv', hr, -⟩
  have hnone : init.zsetsize (2 ^ 64 - 1) (fun _ => 0) = none := by decide
  rw [hnone] at hr
  cases hr

end Bitvec

end Sfslite.Async
