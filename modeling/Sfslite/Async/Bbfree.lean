import Sfslite.Async.Msb
import Mathlib.Data.Finset.Card

/-!
The free map of one block size in `bbuddy.C`, on top of the words of `bitvec.h`, and the set of
positions it stands for. A failed assertion, a failed `panic` and an access outside the map all
answer `none`.
-/

namespace Sfslite.Async

def mapbits : ℕ := 64

structure Bbfree where
  map : List (BitVec 64)
  nbits : ℕ
  hint : ℕ
  cnt : ℕ
  nmaps : ℕ
  deriving DecidableEq, Repr

/-- `xrealloc`: the words kept stay as they are, new ones hold what `junk` says. -/
def datalloc (map : List (BitVec 64)) (nb : ℕ) (junk : ℕ → BitVec 64) : List (BitVec 64) :=
  (List.range ((nb + mapbits - 1) / mapbits)).map fun i => map.getD i (junk i)

/-- `bitvec::range_clr`: clear the bits from `s` up to `e`. -/
def rangeClr (map : List (BitVec 64)) (s e : ℕ) : List (BitVec 64) :=
  let sp := s / mapbits
  let ep := e / mapbits
  let sb := s % mapbits
  let eb := e % mapbits
  let ones := BitVec.allOnes 64
  if sp = ep then
    if eb ≠ 0 then map.modify sp (· &&& (~~~(ones <<< sb) ||| ones <<< eb)) else map
  else
    let map := map.modify sp (· &&& ~~~(ones <<< sb))
    let map := if eb ≠ 0 then map.modify ep (· &&& ones <<< eb) else map
    map.mapIdx fun i w => if sp + 1 ≤ i ∧ i < ep then 0 else w

namespace Bbfree

def init (bf : Bbfree) (nb : ℕ) (junk : ℕ → BitVec 64) : Option Bbfree :=
  -- assert (nb >= nbits)
  if nb < bf.nbits then none
  else
    let nmaps := (nb + mapbits - 1) / mapbits
    some { bf with
      map := rangeClr (datalloc bf.map nb junk) bf.nbits (nmaps * mapbits)
      nbits := nb
      nmaps := nmaps }

def new : Bbfree := ⟨[], 0, 0, 0, 0⟩

def getbit (bf : Bbfree) (pos : ℕ) : Option Bool := do
  if bf.nbits ≤ pos then none
  let w ← bf.map[pos / mapbits]?
  return w &&& 1#64 <<< (pos % mapbits) ≠ 0

def setbit (bf : Bbfree) (pos : ℕ) : Option Bbfree := do
  let mi := pos / mapbits
  let mask := 1#64 <<< (pos % mapbits)
  if bf.nbits ≤ pos then none
  let w ← bf.map[mi]?
  -- assert (!(map[mi] & mask))
  if w &&& mask ≠ 0 then none
  let map := bf.map.set mi (w ||| mask)
  let h ← map[bf.hint]?
  return { bf with map := map, hint := if h = 0 then mi else bf.hint, cnt := bf.cnt + 1 }

def clrbit (bf : Bbfree) (pos : ℕ) : Option Bbfree := do
  let mi := pos / mapbits
  let mask := 1#64 <<< (pos % mapbits)
  if bf.nbits ≤ pos then none
  let w ← bf.map[mi]?
  -- assert (map[mi] & mask)
  if w &&& mask = 0 then none
  return { bf with map := bf.map.set mi (w &&& ~~~mask), cnt := bf.cnt - 1 }

/-- The loop of `findbit` from word `i` on, `k` words being left: the first word
that is not zero. Where there is none the count was wrong and the code panics. -/
def findbitLoop (map : List (BitVec 64)) : (k i : ℕ) → Option (ℕ × BitVec 64)
  | 0, _ => none
  | k + 1, i => do
      let v ← map[i]?
      if v ≠ 0 then return (i, v) else findbitLoop map k (i + 1)

def findbit (bf : Bbfree) : Option (Bbfree × Option ℕ) := do
  if bf.cnt = 0 ∨ bf.nbits = 0 then return (bf, none)
  let v ← bf.map[bf.hint]?
  if v ≠ 0 then return (bf, some (bf.hint * mapbits + ffs64 v - 1))
  let (i, v) ← findbitLoop bf.map bf.nmaps 0
  return ({ bf with hint := i }, some (i * mapbits + ffs64 v - 1))

end Bbfree

theorem getLsbD_mask {k i : ℕ} (hi : i < 64) : (1#64 <<< k).getLsbD i = decide (i = k) := by
  rw [BitVec.getLsbD_shiftLeft, BitVec.getLsbD_one]
  simp only [hi, decide_true, Bool.true_and]
  by_cases h : i = k
  · simp [h]
  · simp only [h, decide_false]
    by_cases hik : i < k
    · simp [hik]
    · have : i - k ≠ 0 := by omega
      simp [this]

variable {w : BitVec 64}

theorem and_mask_eq_zero {k : ℕ} (hk : k < 64) : w &&& 1#64 <<< k = 0 ↔ w.getLsbD k = false := by
  constructor
  · intro h
    have hbit := congrArg (fun v => v.getLsbD k) h
    simpa [BitVec.getLsbD_and, getLsbD_mask hk] using hbit
  · intro h
    apply BitVec.eq_of_getLsbD_eq
    intro i hi
    rw [BitVec.getLsbD_and, getLsbD_mask hi]
    by_cases hik : i = k
    · simp [hik, h]
    · simp [hik]

/-- The bit at position `pos` of a list of words, clear where there is no word. -/
def bit (map : List (BitVec 64)) (pos : ℕ) : Bool :=
  (map.getD (pos / mapbits) 0).getLsbD (pos % mapbits)

theorem mod_mapbits_lt (pos : ℕ) : pos % mapbits < 64 := Nat.mod_lt _ (by decide)

theorem pos_ext {p q : ℕ} (hdiv : p / mapbits = q / mapbits) (hmod : p % mapbits = q % mapbits) :
    p = q := by
  rw [← Nat.div_add_mod p mapbits, hdiv, hmod, Nat.div_add_mod]

variable {map : List (BitVec 64)}

theorem bit_set {mi : ℕ} (hmi : mi < map.length) (w : BitVec 64)
    (pos : ℕ) : bit (map.set mi w) pos =
      if pos / mapbits = mi then w.getLsbD (pos % mapbits) else bit map pos := by
  unfold bit
  rw [List.getD_eq_getElem?_getD, List.getD_eq_getElem?_getD, List.getElem?_set]
  split_ifs with h h' h'
  · simp
  · exact absurd h.symm h'
  · exact absurd h'.symm h
  · rfl

theorem bit_of_getElem? {pos : ℕ}
    (h : map[pos / mapbits]? = some w) : bit map pos = w.getLsbD (pos % mapbits) := by
  rw [bit, List.getD_eq_getElem?_getD, h, Option.getD_some]

theorem bit_set_word {pos : ℕ} (w' : BitVec 64) (b : Bool) (hw : map[pos / mapbits]? = some w)
    (hw' : ∀ i < 64, w'.getLsbD i = if i = pos % mapbits then b else w.getLsbD i) (p : ℕ) :
    bit (map.set (pos / mapbits) w') p = if p = pos then b else bit map p := by
  rw [bit_set (List.getElem?_eq_some_iff.mp hw).1]
  split_ifs with hdiv hp hp
  · rw [hw' _ (mod_mapbits_lt p), if_pos (by rw [hp])]
  · rw [hw' _ (mod_mapbits_lt p), if_neg (fun hmod => hp (pos_ext hdiv hmod)),
      bit_of_getElem? (by rw [hdiv]; exact hw)]
  · exact absurd (by rw [hp]) hdiv
  · rfl

theorem bit_rangeClr {s : ℕ} (hs : s ≤ map.length * mapbits) (p : ℕ) :
    bit (rangeClr map s (map.length * mapbits)) p = if s ≤ p then false else bit map p := by
  have hmb : mapbits = 64 := rfl
  have hep : map.length * mapbits / mapbits = map.length := Nat.mul_div_cancel _ (by decide)
  have heb : map.length * mapbits % mapbits = 0 := Nat.mul_mod_left ..
  have hout : ∀ q, map.length * mapbits ≤ q → bit map q = false := by
    intro q hq
    have hlen : map.length ≤ q / mapbits := by
      rw [hmb] at hq ⊢
      omega
    rw [bit, List.getD_eq_getElem?_getD, List.getElem?_eq_none hlen]
    simp
  by_cases hsp : s / mapbits = map.length
  · have hse : s = map.length * mapbits := by
      rw [hmb] at hs hsp ⊢
      omega
    simp only [rangeClr, hep, heb, hsp, if_true, ne_eq, not_true_eq_false, if_false]
    split_ifs with hp
    · exact hout p (hse ▸ hp)
    · rfl
  · have hbit : bit (rangeClr map s (map.length * mapbits)) p =
        ((map[p / mapbits]?.map fun w =>
          if s / mapbits + 1 ≤ p / mapbits ∧ p / mapbits < map.length then 0#64
          else if s / mapbits = p / mapbits then w &&& ~~~(BitVec.allOnes 64 <<< (s % mapbits))
          else w).getD 0).getLsbD (p % mapbits) := by
      simp only [bit, rangeClr, hep, heb, hsp, if_false, ne_eq, not_true_eq_false,
        List.getD_eq_getElem?_getD, List.getElem?_mapIdx, List.getElem?_modify]
      cases map[p / mapbits]? with
      | none => simp
      | some w => simp only [Option.map_some]; split_ifs <;> rfl
    have hdm := Nat.div_add_mod p mapbits
    have hdm' := Nat.div_add_mod s mapbits
    have hmod := mod_mapbits_lt p
    have hmod' := mod_mapbits_lt s
    rw [hmb] at hdm hdm' hmod hmod'
    rw [hbit, hmb]
    cases hw : map[p / mapbits]? with
    | none =>
      rw [bit, List.getD_eq_getElem?_getD, hw]
      rw [hmb] at hw
      simp [hw]
    | some w =>
      rw [hmb] at hw
      have hlt := (List.getElem?_eq_some_iff.mp hw).1
      rw [bit_of_getElem? (show map[p / mapbits]? = some w from hw), hmb]
      simp only [hw, Option.map_some, Option.getD_some]
      rcases Nat.lt_trichotomy (s / 64) (p / 64) with hcmp | hcmp | hcmp
      · rw [if_pos ⟨hcmp, hlt⟩, if_pos (by omega)]
        simp
      · rw [if_neg (by omega), if_pos hcmp, BitVec.getLsbD_and, BitVec.getLsbD_not,
          BitVec.getLsbD_shiftLeft, BitVec.getLsbD_allOnes]
        by_cases hsp : s ≤ p
        · have hle : ¬ p % 64 < s % 64 := by omega
          have hlt' : p % 64 - s % 64 < 64 := by omega
          simp [hsp, hmod, hle, hlt']
        · have hle : p % 64 < s % 64 := by omega
          simp [hsp, hmod, hle]
      · rw [if_neg (by omega), if_neg (by omega), if_neg (by omega)]

/-- The map holds the set `S` of positions below `n`. -/
structure Bbfree.Holds (bf : Bbfree) (n : ℕ) (S : Finset ℕ) : Prop where
  nbits : bf.nbits = n
  nmaps : bf.nmaps = (n + mapbits - 1) / mapbits
  length : bf.map.length = bf.nmaps
  bits : ∀ pos, bit bf.map pos = decide (pos ∈ S)
  lt : ∀ pos ∈ S, pos < n
  cnt : bf.cnt = S.card
  hint : bf.hint = 0 ∨ bf.hint < bf.nmaps

namespace Bbfree

variable {bf : Bbfree} {n pos : ℕ} {S : Finset ℕ}

theorem holds_new : Holds new 0 ∅ where
  nbits := rfl
  nmaps := rfl
  length := rfl
  bits pos := by simp [new, bit]
  lt := by simp
  cnt := rfl
  hint := Or.inl rfl

theorem Holds.hint_lt (h : bf.Holds n S) (hn : bf.nmaps ≠ 0) : bf.hint < bf.nmaps := by
  rcases h.hint with h0 | h0
  · omega
  · exact h0

theorem Holds.ext {bf' : Bbfree} (h : bf.Holds n S) (h' : bf'.Holds n S) :
    { bf with hint := 0 } = { bf' with hint := 0 } := by
  have hnmaps : bf.nmaps = bf'.nmaps := h.nmaps.trans h'.nmaps.symm
  have hmap : bf.map = bf'.map := by
    refine List.ext_getElem (by rw [h.length, h'.length, hnmaps]) fun i hi hi' => ?_
    refine BitVec.eq_of_getLsbD_eq fun j hj => ?_
    have hdiv : (i * mapbits + j) / mapbits = i := by unfold mapbits; omega
    have hmod : (i * mapbits + j) % mapbits = j := by unfold mapbits; omega
    have hbit := (h.bits (i * mapbits + j)).trans (h'.bits (i * mapbits + j)).symm
    rwa [bit, bit, hdiv, hmod, List.getD_eq_getElem?_getD, List.getD_eq_getElem?_getD,
      List.getElem?_eq_getElem hi, List.getElem?_eq_getElem hi', Option.getD_some,
      Option.getD_some] at hbit
  rw [mk.injEq]
  exact ⟨hmap, h.nbits.trans h'.nbits.symm, rfl, h.cnt.trans h'.cnt.symm, hnmaps⟩

theorem Holds.getElem? (h : bf.Holds n S) (hpos : pos < n) :
    ∃ w, bf.map[pos / mapbits]? = some w ∧ w.getLsbD (pos % mapbits) = decide (pos ∈ S) := by
  have hlen : pos / mapbits < bf.map.length := by
    rw [h.length, h.nmaps]
    simp only [mapbits]
    omega
  refine ⟨bf.map[pos / mapbits], List.getElem?_eq_getElem hlen, ?_⟩
  rw [← h.bits, bit_of_getElem? (List.getElem?_eq_getElem hlen)]

theorem Holds.getbit (h : bf.Holds n S) (hpos : pos < n) :
    bf.getbit pos = some (decide (pos ∈ S)) := by
  obtain ⟨w, hw, hbit⟩ := h.getElem? hpos
  have hmod := mod_mapbits_lt pos
  have hnb : ¬ bf.nbits ≤ pos := by rw [h.nbits]; omega
  simp only [Bbfree.getbit, if_neg hnb, hw, Option.bind_eq_bind, Option.bind_some, ne_eq,
    and_mask_eq_zero hmod, hbit]
  simp

theorem Holds.init (h : bf.Holds n S) {nb : ℕ} (hnb : n ≤ nb) (junk : ℕ → BitVec 64) :
    ∃ bf', bf.init nb junk = some bf' ∧ bf'.Holds nb S := by
  have hmb : mapbits = 64 := rfl
  have hlen : (datalloc bf.map nb junk).length = (nb + mapbits - 1) / mapbits := by
    simp [datalloc]
  have hold : bf.map.length = (n + mapbits - 1) / mapbits := h.length.trans h.nmaps
  have hword : ∀ i < bf.map.length, (datalloc bf.map nb junk)[i]? = bf.map[i]? := by
    intro i hi
    have hi' : i < (nb + mapbits - 1) / mapbits := by
      rw [hmb] at hold ⊢
      omega
    rw [datalloc, List.getElem?_map, List.getElem?_range hi', Option.map_some,
      List.getD_eq_getElem?_getD, List.getElem?_eq_getElem hi, Option.getD_some]
  have hbits : ∀ p, bit (rangeClr (datalloc bf.map nb junk) n
      ((nb + mapbits - 1) / mapbits * mapbits)) p = decide (p ∈ S) := by
    intro p
    rw [← hlen, bit_rangeClr (by rw [hlen, hmb]; omega)]
    split_ifs with hp
    · exact (decide_eq_false (fun hS => absurd (h.lt p hS) (by omega))).symm
    · have hi : p / mapbits < bf.map.length := by
        rw [hold, hmb]
        omega
      rw [← h.bits p, bit, bit, List.getD_eq_getElem?_getD, hword _ hi,
        List.getD_eq_getElem?_getD]
  refine ⟨⟨rangeClr (datalloc bf.map nb junk) bf.nbits ((nb + mapbits - 1) / mapbits * mapbits),
    nb, bf.hint, bf.cnt, (nb + mapbits - 1) / mapbits⟩, ?_, ?_⟩
  · rw [Bbfree.init, if_neg (by rw [h.nbits]; omega)]
  · refine ⟨rfl, rfl, ?_, fun p => ?_, fun p hp => ?_, h.cnt, ?_⟩
    · rw [← hlen]
      simp [rangeClr, apply_ite]
    · rw [h.nbits]
      exact hbits p
    · exact Nat.lt_of_lt_of_le (h.lt p hp) hnb
    · refine h.hint.imp_right fun hlt => Nat.lt_of_lt_of_le hlt ?_
      rw [h.nmaps, hmb]
      change _ ≤ (nb + 64 - 1) / 64
      omega

theorem Holds.setbit (h : bf.Holds n S) (hpos : pos < n) (hS : pos ∉ S) :
    ∃ bf', bf.setbit pos = some bf' ∧ bf'.Holds n (insert pos S) := by
  obtain ⟨w, hw, hbit⟩ := h.getElem? hpos
  have hmod := mod_mapbits_lt pos
  have hnb : ¬ bf.nbits ≤ pos := by rw [h.nbits]; omega
  have hclear : w &&& 1#64 <<< (pos % mapbits) = 0 := by
    rw [and_mask_eq_zero hmod, hbit, decide_eq_false hS]
  have hmi : pos / mapbits < bf.map.length := (List.getElem?_eq_some_iff.mp hw).1
  have hhint : bf.hint < bf.map.length := by
    rw [h.length] at hmi ⊢
    exact h.hint_lt (Nat.ne_zero_of_lt hmi)
  obtain ⟨v, hv⟩ : ∃ v, (bf.map.set (pos / mapbits) (w ||| 1#64 <<< (pos % mapbits)))[bf.hint]? =
      some v := ⟨_, List.getElem?_eq_getElem (by simpa using hhint)⟩
  have hbits := bit_set_word (w ||| 1#64 <<< (pos % mapbits)) true hw
    (fun i hi => by
      rw [BitVec.getLsbD_or, getLsbD_mask hi]
      by_cases hik : i = pos % mapbits <;> simp [hik])
  refine ⟨⟨bf.map.set (pos / mapbits) (w ||| 1#64 <<< (pos % mapbits)), bf.nbits,
    if v = 0 then pos / mapbits else bf.hint, bf.cnt + 1, bf.nmaps⟩, ?_, ?_⟩
  · simp only [Bbfree.setbit, if_neg hnb, hw, Option.bind_eq_bind, Option.bind_some, hclear, hv]
    rfl
  · refine ⟨h.nbits, h.nmaps, ?_, fun p => ?_, fun p hp => ?_, ?_, ?_⟩
    · simpa using h.length
    · rw [hbits p, h.bits p]
      by_cases hp : p = pos <;> simp [hp]
    · rcases Finset.mem_insert.mp hp with rfl | hp
      · exact hpos
      · exact h.lt p hp
    · rw [Finset.card_insert_of_notMem hS]
      exact congrArg (· + 1) h.cnt
    · rw [h.length] at hmi
      split_ifs
      · exact Or.inr hmi
      · exact h.hint

theorem Holds.clrbit (h : bf.Holds n S) (hS : pos ∈ S) :
    ∃ bf', bf.clrbit pos = some bf' ∧ bf'.Holds n (S.erase pos) := by
  have hpos := h.lt pos hS
  obtain ⟨w, hw, hbit⟩ := h.getElem? hpos
  have hmod := mod_mapbits_lt pos
  have hnb : ¬ bf.nbits ≤ pos := by rw [h.nbits]; omega
  have hset : ¬ w &&& 1#64 <<< (pos % mapbits) = 0 := by
    rw [and_mask_eq_zero hmod, hbit, decide_eq_true hS]
    simp
  have hbits := bit_set_word (w &&& ~~~(1#64 <<< (pos % mapbits))) false hw
    (fun i hi => by
      rw [BitVec.getLsbD_and, BitVec.getLsbD_not, getLsbD_mask hi]
      by_cases hik : i = pos % mapbits <;> simp [hik, hi])
  refine ⟨⟨bf.map.set (pos / mapbits) (w &&& ~~~(1#64 <<< (pos % mapbits))), bf.nbits, bf.hint,
    bf.cnt - 1, bf.nmaps⟩, ?_, ?_⟩
  · simp only [Bbfree.clrbit, if_neg hnb, hw, Option.bind_eq_bind, Option.bind_some, if_neg hset]
    rfl
  · refine ⟨h.nbits, h.nmaps, ?_, fun p => ?_, fun p hp => ?_, ?_, h.hint⟩
    · simpa using h.length
    · rw [hbits p, h.bits p]
      by_cases hp : p = pos <;> simp [hp]
    · exact h.lt p (Finset.mem_of_mem_erase hp)
    · rw [Finset.card_erase_of_mem hS]
      exact congrArg (· - 1) h.cnt

theorem findbitLoop_spec {k i : ℕ} (hlen : i + k = map.length)
    (h : ∃ j, i ≤ j ∧ ∃ w, map[j]? = some w ∧ w ≠ 0) :
    ∃ j w, findbitLoop map k i = some (j, w) ∧ map[j]? = some w ∧ w ≠ 0 := by
  induction k generalizing i with
  | zero =>
    obtain ⟨j, hj, w, hw, -⟩ := h
    have hlt := (List.getElem?_eq_some_iff.mp hw).1
    omega
  | succ k ih =>
    obtain ⟨v, hv⟩ : ∃ v, map[i]? = some v := ⟨_, List.getElem?_eq_getElem (by omega)⟩
    simp only [findbitLoop, hv, Option.bind_eq_bind, Option.bind_some]
    by_cases hv0 : v = 0
    · rw [if_neg (by simpa using hv0)]
      refine ih (by omega) ?_
      obtain ⟨j, hj, w, hw, hw0⟩ := h
      refine ⟨j, ?_, w, hw, hw0⟩
      rcases Nat.lt_or_eq_of_le hj with hlt | rfl
      · exact hlt
      · rw [hw, Option.some.injEq] at hv
        exact absurd (hv ▸ hv0) hw0
    · rw [if_pos hv0]
      exact ⟨i, v, rfl, hv, hv0⟩

theorem Holds.mem_of_word (h : bf.Holds n S) {i : ℕ} (hw : bf.map[i]? = some w)
    (hw0 : w ≠ 0) : i * mapbits + ffs64 w - 1 ∈ S := by
  obtain ⟨hpos, hle, hbit⟩ := getLsbD_ffs64 hw0
  have hmb : mapbits = 64 := rfl
  have hdiv : (i * mapbits + ffs64 w - 1) / mapbits = i := by
    rw [hmb]
    omega
  have hmod : (i * mapbits + ffs64 w - 1) % mapbits = ffs64 w - 1 := by
    rw [hmb]
    omega
  have hbits := h.bits (i * mapbits + ffs64 w - 1)
  rw [bit_of_getElem? (by rw [hdiv]; exact hw), hmod, hbit] at hbits
  simpa using hbits.symm

theorem Holds.findbit (h : bf.Holds n S) :
    (S = ∅ ∧ bf.findbit = some (bf, none)) ∨
      ∃ bf' pos, bf.findbit = some (bf', some pos) ∧ pos ∈ S ∧ bf'.Holds n S := by
  by_cases hS : S = ∅
  · refine Or.inl ⟨hS, ?_⟩
    have hcnt : bf.cnt = 0 := by rw [h.cnt, hS, Finset.card_empty]
    simp [Bbfree.findbit, hcnt]
  · right
    obtain ⟨p, hp⟩ := Finset.nonempty_iff_ne_empty.mpr hS
    have hpn := h.lt p hp
    obtain ⟨w, hw, hbit⟩ := h.getElem? hpn
    have hmi := (List.getElem?_eq_some_iff.mp hw).1
    have hgo : ¬ (bf.cnt = 0 ∨ bf.nbits = 0) := by
      rw [h.cnt, Finset.card_eq_zero, h.nbits]
      rintro (h0 | h0)
      · exact hS h0
      · omega
    obtain ⟨v, hv⟩ : ∃ v, bf.map[bf.hint]? = some v := by
      refine ⟨_, List.getElem?_eq_getElem ?_⟩
      rw [h.length] at hmi ⊢
      exact h.hint_lt (Nat.ne_zero_of_lt hmi)
    by_cases hv0 : v = 0
    · have hw0 : w ≠ 0 := by
        rintro rfl
        simp [hp] at hbit
      obtain ⟨j, u, hloop, hu, hu0⟩ := findbitLoop_spec (k := bf.nmaps) (i := 0)
        (by rw [h.length, Nat.zero_add]) ⟨_, Nat.zero_le _, w, hw, hw0⟩
      refine ⟨{ bf with hint := j }, _, ?_, h.mem_of_word hu hu0, ?_⟩
      · simp only [Bbfree.findbit, if_neg hgo, hv, Option.bind_eq_bind, Option.bind_some, hv0,
          hloop]
        rfl
      · refine { h with hint := Or.inr ?_ }
        rw [← h.length]
        exact (List.getElem?_eq_some_iff.mp hu).1
    · refine ⟨bf, _, ?_, h.mem_of_word hv hv0, h⟩
      simp only [Bbfree.findbit, if_neg hgo, hv, Option.bind_eq_bind, Option.bind_some,
        ne_eq, hv0, not_false_eq_true, if_true]
      rfl

end Bbfree

end Sfslite.Async
