import Mathlib.Algebra.BigOperators.Intervals
import Sfslite.Async.ItreeLookup
import Sfslite.Lib.Run

/-!
`freemap_t`: free indices in words of 64 bits that hang in a tree. The masks are shifts of an
`int`, and the model has what the machine makes of them as a parameter.
-/

namespace Sfslite.Safeptr

open Sfslite.Lib (Run)
open Sfslite.Lib.RedBlack
open Sfslite.Async
open Sfslite.Async.Itree (traverse)

/-- The nodes by address, with `_id` and `_bits`, and the tree they are in. -/
structure Freemap where
  segs : Itree
  id : ℕ → ℕ
  bits : ℕ → BitVec 64

namespace Freemap

section

-- `1 << i`, converted to `u_int64_t`; C++ says what it is for `i < 31` only
variable (shl : ℕ → BitVec 64)

def getbit (bits : BitVec 64) (i : ℕ) : Bool := bits &&& shl i ≠ 0

def setbit (bits : BitVec 64) (i : ℕ) (b : Bool) : BitVec 64 :=
  if b then bits ||| shl i else bits &&& ~~~shl i

/-- `n->setbit (i, b)` -/
def put (m : Freemap) (n i : ℕ) (b : Bool) : Freemap :=
  { m with bits := Function.update m.bits n (setbit shl (m.bits n) i b) }

/-- The loop of `topbit` below `i`; `none` is -1. -/
def topbitLoop (bits : BitVec 64) : ℕ → Option ℕ
  | 0 => none
  | i + 1 => if getbit shl bits i then some i else topbitLoop bits i

def topbit (bits : BitVec 64) : Option ℕ := if bits ≠ 0 then topbitLoop shl bits 64 else none

/-- `global_id`, an `int`. -/
def globalId (id i : ℕ) : ℤ := (BitVec.ofNat 32 (id * 64 + i)).toInt

/-- The loop of `nfree` over a word. -/
def nfreeLoop (b : BitVec 64) : ℕ → ℕ
  | 0 => 0
  | k + 1 => (b &&& 1).toNat + nfreeLoop (b >>> 1) k

/-- `cmp`: the difference of two `u_int32_t` as an `int`. -/
def cmp (m : Freemap) (segid n : ℕ) : ℤ :=
  (BitVec.ofNat 32 segid - BitVec.ofNat 32 (m.id n)).toInt

def find (fuel : ℕ) (m : Freemap) (segid : ℕ) : Option ℕ := m.segs.itreeSearch (m.cmp segid) fuel

/-- The loop of `findmax`. -/
def findmaxLoop (s : Itree) : ℕ → ℕ → Option ℕ
  | 0, _ => none
  | fuel + 1, n =>
    if n = 0 then some 0
    else
      let nn := if s.child .right n ≠ 0 then s.child .right n else s.child .left n
      if nn ≠ 0 then findmaxLoop s fuel nn else some n

def findmax (fuel : ℕ) (m : Freemap) : Option ℕ := findmaxLoop m.segs fuel m.segs.rbRoot

/-- `dealloc`, where `New` gives `z`; `none` where the assertion fails. -/
def dealloc (fuel : ℕ) (m : Freemap) (i z : ℕ) : Option Freemap := do
  let segid := i / 64
  let bitid := i % 64
  let found ← m.find fuel segid
  let (m, n) ←
    if found ≠ 0 then some (m, found)
    else do
      let id := Function.update m.id z segid
      let segs ← m.segs.itreeInsert (fun a b => Itree.compare (id a) (id b)) fuel z
      some (⟨segs, id, Function.update m.bits z 0⟩, z)
  if getbit shl (m.bits n) bitid then none
  else some (m.put shl n bitid true)

def alloc (fuel : ℕ) (m : Freemap) : Option (Freemap × ℤ) := do
  let n ← m.findmax fuel
  if n = 0 then some (m, -1)
  else do
    let b ← topbit shl (m.bits n)
    let m := m.put shl n b false
    let ret := globalId (m.id n) b
    if m.bits n = 0 then do
      let segs ← m.segs.itreeDelete fuel n
      some ({ m with segs := segs }, ret)
    else some (m, ret)

def nfree (fuel : ℕ) (m : Freemap) : Option ℕ := do
  let nodes ← traverse fuel m.segs
  some (nodes.map fun n => nfreeLoop (m.bits n) 64).sum

/-- A map and the indices that were deallocated and not handed out since. -/
structure World where
  map : Freemap
  free : Finset ℕ

inductive Op where
  | dealloc (i z : ℕ)
  | alloc

def World.step (fuel : ℕ) (w : World) : Op → Option World
  | .dealloc i z => (w.map.dealloc shl fuel i z).map (⟨·, insert i w.free⟩)
  | .alloc => (w.map.alloc shl fuel).map fun (m, r) =>
    ⟨m, if r = -1 then w.free else w.free.erase r.toNat⟩

def World.start (id : ℕ → ℕ) (bits : ℕ → BitVec 64) (s : Itree) : World := ⟨⟨s.clear, id, bits⟩, ∅⟩

/-- The index is not free, and `New` gives memory that no node has. -/
def Legal (fuel : ℕ) (w : World) : Op → Prop
  | .dealloc i z => i < 2 ^ 32 ∧ i ∉ w.free ∧ z ≠ 0 ∧
      ∀ nodes, traverse fuel w.map.segs = some nodes → z ∉ nodes
  | .alloc => True

/-- `1 << b` is bit `b` alone, and no other shift gives that bit. -/
def Mask (b : ℕ) : Prop :=
  shl b = BitVec.twoPow 64 b ∧ ∀ c < 64, (shl c).getLsbD b = true → c = b

def Masked : Op → Prop
  | .dealloc i _ => Mask shl (i % 64) ∧ i < 2 ^ 31
  | .alloc => True

/-- What the map says is what was deallocated and not handed out. -/
structure Exact (fuel : ℕ) (w : World) : Prop where
  isFree : ∀ i < 2 ^ 32, i ∈ w.free ↔ ∃ n, w.map.find fuel (i / 64) = some n ∧ n ≠ 0 ∧
    getbit shl (w.map.bits n) (i % 64) = true
  nodes : ∃ nodes, traverse fuel w.map.segs = some nodes ∧
    ∀ n ∈ nodes, ∃ b < 64, getbit shl (w.map.bits n) b = true
  nfree : w.map.nfree fuel = some w.free.card
  alloc : ∃ m r, w.map.alloc shl fuel = some (m, r) ∧ (r = -1 ↔ w.free = ∅) ∧
    (r ≠ -1 → ∃ i ∈ w.free, r = i)
  dealloc : ∀ i z, Legal fuel w (.dealloc i z) → Masked shl (.dealloc i z) →
    (w.map.dealloc shl fuel i z).isSome = true

end

section

variable {shl : ℕ → BitVec 64} {m : Freemap} {F : Finset ℕ} {t : RbTree ℕ} {fuel : ℕ}
  {p : ℕ → Prop} {w : BitVec 64} {k n : ℕ}

theorem getbit_iff (hw : ∀ k < 64, w.getLsbD k = true → Mask shl k) (hk : k < 64) :
    getbit shl w k = true ↔ w.getLsbD k = true := by
  rw [getbit, decide_eq_true_eq]
  constructor
  · intro hne
    by_contra hclear
    refine hne (BitVec.eq_of_getLsbD_eq fun j hj => ?_)
    rw [BitVec.getLsbD_and, BitVec.ofNat_eq_ofNat, BitVec.getLsbD_zero, Bool.and_eq_false_iff]
    by_contra hboth
    simp only [not_or, Bool.not_eq_false] at hboth
    obtain rfl := (hw j hj hboth.1).2 k hk hboth.2
    exact hclear hboth.1
  · intro hset hzero
    have hbit := congrArg (BitVec.getLsbD · k) hzero
    simp only [BitVec.getLsbD_and, hset, (hw k hk hset).1, BitVec.getLsbD_twoPow, hk] at hbit
    simp at hbit

theorem topbitLoop_spec (hw : ∀ k < 64, w.getLsbD k = true → Mask shl k) {i : ℕ} (hi : i ≤ 64)
    (hk : k < i) (hset : w.getLsbD k = true) :
    ∃ b < 64, topbitLoop shl w i = some b ∧ w.getLsbD b = true := by
  induction i with
  | zero => omega
  | succ i ih =>
    rw [topbitLoop]
    split_ifs with hget
    · exact ⟨i, hi, rfl, (getbit_iff hw hi).mp hget⟩
    · refine ih (by omega) (Nat.lt_of_le_of_ne (by omega) ?_)
      rintro rfl
      exact hget ((getbit_iff hw hi).mpr hset)

theorem exists_bit (hw : w ≠ 0) : ∃ k < 64, w.getLsbD k = true := by
  by_contra hnone
  push Not at hnone
  exact hw (BitVec.eq_of_getLsbD_eq fun j hj => by simpa using hnone j hj)

theorem getLsbD_setbit {b : Bool} {j : ℕ} (hmask : Mask shl k) (hk : k < 64) (hj : j < 64) :
    (setbit shl w k b).getLsbD j = true ↔ if j = k then b = true else w.getLsbD j = true := by
  rw [setbit, hmask.1]
  cases b
  all_goals
    simp only [BitVec.getLsbD_or, BitVec.getLsbD_and, BitVec.getLsbD_not, BitVec.getLsbD_twoPow,
      hk, hj, if_true, Bool.false_eq_true, if_false]
    by_cases hjk : j = k
    · simp [hjk]
    · simp [hjk, Ne.symm hjk]

theorem nfreeLoop_eq (w : BitVec 64) (k : ℕ) :
    nfreeLoop w k = ((Finset.range k).filter fun j => w.getLsbD j = true).card := by
  induction k generalizing w with
  | zero => rfl
  | succ k ih =>
    rw [nfreeLoop, ih, Finset.card_filter, Finset.card_filter, Finset.sum_range_succ', add_comm]
    congr 1
    · simp [BitVec.getLsbD_ushiftRight, add_comm]
    · rw [BitVec.ofNat_eq_ofNat, BitVec.and_one_eq_setWidth_ofBool_getLsbD]
      cases w.getLsbD 0 <;> rfl

theorem findmaxLoop_spec {s : Itree} {u : ℕ} (h : TreeAt s.mem u t) (ht : t ≠ .nil)
    (hfuel : t.toList.length < fuel) : ∃ n ∈ t.toList, findmaxLoop s fuel (addr t) = some n := by
  induction t generalizing u fuel with
  | nil => exact absurd rfl ht
  | node c l x r ihl ihr =>
    simp only [RbTree.toList, List.length_append, List.length_cons] at hfuel
    obtain ⟨fuel, rfl⟩ : ∃ k, fuel = k + 1 := ⟨fuel - 1, by omega⟩
    obtain ⟨hx, hm, hl, hr⟩ := h
    have hleft : s.child .left x = addr l := by rw [Itree.child, hm]; rfl
    have hright : s.child .right x = addr r := by rw [Itree.child, hm]; rfl
    have hx' : addr (.node c l x r) = x := rfl
    rw [hx', findmaxLoop, if_neg hx, hleft, hright]
    by_cases hr0 : addr r = 0
    · by_cases hl0 : addr l = 0
      · exact ⟨x, by simp [RbTree.toList], by simp [hr0, hl0]⟩
      · have hfits : l.toList.length < fuel := by omega
        obtain ⟨n, hn, hfind⟩ := ihl hl (fun h => hl0 (by rw [h]; rfl)) hfits
        exact ⟨n, by simp [RbTree.toList, hn], by simpa [hr0, hl0] using hfind⟩
    · have hfits : r.toList.length < fuel := by omega
      obtain ⟨n, hn, hfind⟩ := ihr hr (fun h => hr0 (by rw [h]; rfl)) hfits
      exact ⟨n, by simp [RbTree.toList, hn], by simpa [hr0] using hfind⟩

/-- A word is the free indices of its segment, and only the nodes with `p` may be empty. -/
structure Inv (shl : ℕ → BitVec 64) (m : Freemap) (F : Finset ℕ) (t : RbTree ℕ)
    (p : ℕ → Prop) : Prop where
  rep : Rep m.segs [] t
  rb : RB t
  ids : t.toList.Pairwise fun a b => m.id a < m.id b
  small : ∀ n ∈ t.toList, m.id n < 2 ^ 26
  bits : ∀ n ∈ t.toList, ∀ k < 64, (m.bits n).getLsbD k = true ↔ m.id n * 64 + k ∈ F
  seg : ∀ i ∈ F, ∃ n ∈ t.toList, m.id n = i / 64
  empty : ∀ n ∈ t.toList, m.bits n = 0 → p n
  masked : ∀ i ∈ F, Mask shl (i % 64) ∧ i < 2 ^ 31

theorem Inv.mask (h : Inv shl m F t p) (hn : n ∈ t.toList) :
    ∀ k < 64, (m.bits n).getLsbD k = true → Mask shl k := by
  intro k hk hset
  have hmask := (h.masked _ ((h.bits n hn k hk).mp hset)).1
  rwa [show (m.id n * 64 + k) % 64 = k by omega] at hmask

theorem Inv.eq_of_id (h : Inv shl m F t p) {n' : ℕ} (hn : n ∈ t.toList) (hn' : n' ∈ t.toList)
    (hid : m.id n = m.id n') : n = n' :=
  List.inj_on_of_nodup_map (List.pairwise_map.mpr (h.ids.imp Nat.ne_of_lt)) hn hn' hid

theorem Inv.find (h : Inv shl m F t p) (hfuel : t.toList.length < fuel) {s : ℕ}
    (hs : s < 2 ^ 26) : ∃ n, m.find fuel s = some n ∧ (n ≠ 0 → n ∈ t.toList ∧ m.id n = s) ∧
      (n = 0 → ∀ n' ∈ t.toList, m.id n' ≠ s) := by
  have hcmp : ∀ n ∈ t.toList, m.cmp s n = s - m.id n := by
    intro n hn
    have := h.small n hn
    rw [cmp, BitVec.toInt_eq_toNat_cond, BitVec.toNat_sub, BitVec.toNat_ofNat, BitVec.toNat_ofNat]
    split_ifs <;> omega
  have hfalling : Itree.Falling (m.cmp s) t.toList := by
    refine h.ids.imp_of_mem fun {a b} ha hb hab => ?_
    rw [hcmp a ha, hcmp b hb]
    omega
  refine ⟨_, Itree.itreeSearch_spec h.rep hfalling hfuel, ?_⟩
  cases hfind : t.toList.find? fun a => m.cmp s a = 0 with
  | none =>
    refine ⟨fun hne => absurd rfl hne, fun _ n' hn' hid => ?_⟩
    have hcmp' := List.find?_eq_none.mp hfind n' hn'
    rw [hcmp n' hn', hid] at hcmp'
    simp at hcmp'
  | some n =>
    have hn := List.mem_of_find?_eq_some hfind
    have heq := List.find?_some hfind
    rw [decide_eq_true_eq, hcmp n hn] at heq
    exact ⟨fun _ => ⟨hn, by simpa using by omega⟩, fun h0 => absurd h0 (h.rep.2.1.ne_zero n hn)⟩

theorem Inv.nodes_le (h : Inv shl m F t fun _ => False) : t.toList.length ≤ F.card := by
  have hids : (t.toList.map m.id).toFinset ⊆ F.image (· / 64) := by
    intro s hs
    obtain ⟨n, hn, rfl⟩ := List.mem_map.mp (List.mem_toFinset.mp hs)
    obtain ⟨k, hk, hset⟩ := exists_bit fun h0 => h.empty n hn h0
    exact Finset.mem_image.mpr ⟨_, (h.bits n hn k hk).mp hset, by omega⟩
  have hcard := (Finset.card_le_card hids).trans Finset.card_image_le
  rwa [List.toFinset_card_of_nodup (List.pairwise_map.mpr (h.ids.imp Nat.ne_of_lt)),
    List.length_map] at hcard

theorem Inv.nfree (h : Inv shl m F t p) (hfuel : t.toList.length < fuel) :
    m.nfree fuel = some F.card := by
  have hword : ∀ n ∈ t.toList,
      nfreeLoop (m.bits n) 64 = (F.filter fun i => i / 64 = m.id n).card := by
    intro n hn
    rw [nfreeLoop_eq]
    have himage : (F.filter fun i => i / 64 = m.id n) = ((Finset.range 64).filter fun k =>
        (m.bits n).getLsbD k = true).image fun k => m.id n * 64 + k := by
      ext i
      simp only [Finset.mem_filter, Finset.mem_image, Finset.mem_range]
      constructor
      · rintro ⟨hi, hid⟩
        have heq : m.id n * 64 + i % 64 = i := by omega
        exact ⟨i % 64, ⟨by omega, (h.bits n hn _ (by omega)).mpr (by rwa [heq])⟩, heq⟩
      · rintro ⟨k, ⟨hk, hset⟩, rfl⟩
        exact ⟨(h.bits n hn k hk).mp hset, by omega⟩
    rw [himage, Finset.card_image_of_injective]
    exact fun a b hab => Nat.add_left_cancel hab
  have hmaps : (F : Set ℕ).MapsTo (· / 64) (t.toList.map m.id).toFinset := by
    intro i hi
    obtain ⟨n, hn, hid⟩ := h.seg i hi
    exact List.mem_toFinset.mpr (List.mem_map.mpr ⟨n, hn, hid⟩)
  rw [Freemap.nfree, Itree.traverse_spec h.rep hfuel, Finset.card_eq_sum_card_fiberwise hmaps,
    List.sum_toFinset _ (List.pairwise_map.mpr (h.ids.imp Nat.ne_of_lt)), List.map_map]
  exact congrArg (fun l => some (List.sum l)) (List.map_congr_left hword)

theorem Inv.set (h : Inv shl m F t p) (hp : ∀ n', p n' → n' = n) (hn : n ∈ t.toList)
    (hk : k < 64) (hmask : Mask shl k) (hlt : m.id n * 64 + k < 2 ^ 31) :
    Inv shl (m.put shl n k true) (insert (m.id n * 64 + k) F) t fun _ => False where
  rep := h.rep
  rb := h.rb
  ids := h.ids
  small := h.small
  bits := by
    intro n' hn' j hj
    dsimp only [put]
    rw [Finset.mem_insert, ← h.bits n' hn' j hj]
    by_cases hne : n' = n
    · rw [hne, Function.update_self, getLsbD_setbit hmask hk hj]
      by_cases hjk : j = k
      · simp [hjk]
      · simp [hjk]
    · have hid : m.id n' ≠ m.id n := fun hid => hne (h.eq_of_id hn' hn hid)
      rw [Function.update_of_ne hne]
      exact ⟨.inr, fun hor => hor.resolve_left (by omega)⟩
  seg := by
    intro i hi
    rcases Finset.mem_insert.mp hi with rfl | hi
    · exact ⟨n, hn, by dsimp only [put]; omega⟩
    · exact h.seg i hi
  empty := by
    intro n' hn' h0
    dsimp only [put] at h0
    by_cases hne : n' = n
    · rw [hne, Function.update_self] at h0
      have hbit := (getLsbD_setbit (w := m.bits n) (b := true) hmask hk hk).mpr (by simp)
      simp [h0] at hbit
    · rw [Function.update_of_ne hne] at h0
      exact hne (hp n' (h.empty n' hn' h0))
  masked := by
    intro i hi
    rcases Finset.mem_insert.mp hi with rfl | hi
    · rw [show (m.id n * 64 + k) % 64 = k by omega]
      exact ⟨hmask, hlt⟩
    · exact h.masked i hi

theorem Inv.clear (h : Inv shl m F t fun _ => False) (hn : n ∈ t.toList) (hk : k < 64)
    (hset : (m.bits n).getLsbD k = true) :
    Inv shl (m.put shl n k false) (F.erase (m.id n * 64 + k)) t fun n' =>
      n' = n ∧ (m.put shl n k false).bits n = 0 where
  rep := h.rep
  rb := h.rb
  ids := h.ids
  small := h.small
  bits := by
    intro n' hn' j hj
    dsimp only [put]
    rw [Finset.mem_erase, ← h.bits n' hn' j hj]
    by_cases hne : n' = n
    · rw [hne, Function.update_self, getLsbD_setbit (h.mask hn k hk hset) hk hj]
      by_cases hjk : j = k
      · simp [hjk]
      · simp [hjk]
    · have hid : m.id n' ≠ m.id n := fun hid => hne (h.eq_of_id hn' hn hid)
      rw [Function.update_of_ne hne]
      exact ⟨fun hbit => ⟨by omega, hbit⟩, And.right⟩
  seg := fun i hi => h.seg i (Finset.mem_of_mem_erase hi)
  empty := by
    intro n' hn' h0
    dsimp only [put] at h0
    by_cases hne : n' = n
    · rw [hne, Function.update_self] at h0
      exact ⟨hne, (Function.update_self ..).trans h0⟩
    · rw [Function.update_of_ne hne] at h0
      exact (h.empty n' hn' h0).elim
  masked := fun i hi => h.masked i (Finset.mem_of_mem_erase hi)

theorem Inv.addNode (h : Inv shl m F t fun _ => False) (hfuel : t.toList.length < fuel) {s z : ℕ}
    (hs : s < 2 ^ 26) (hnew : ∀ n ∈ t.toList, m.id n ≠ s) (hz : z ≠ 0) (hzt : z ∉ t.toList) :
    ∃ segs t', m.segs.itreeInsert (fun a b => Itree.compare (Function.update m.id z s a)
        (Function.update m.id z s b)) fuel z = some segs ∧ z ∈ t'.toList ∧
      Inv shl ⟨segs, Function.update m.id z s, Function.update m.bits z 0⟩ F t' (· = z) := by
  obtain ⟨segs, t', hins, hrep, hrb, ⟨before, after, hlist, hlist'⟩, hsorted⟩ :=
    Itree.itreeInsert_spec (fun a b => Itree.compare (Function.update m.id z s a)
      (Function.update m.id z s b)) h.rep h.rb hz hzt hfuel
  have hmem : ∀ n ∈ t'.toList, n = z ∨ n ≠ z ∧ n ∈ t.toList := by
    intro n hn
    rw [hlist'] at hn
    by_cases hnz : n = z
    · exact .inl hnz
    · rw [hlist]
      exact .inr ⟨hnz, by simpa [hnz] using hn⟩
  have hold : ∀ n ∈ t.toList, Function.update m.id z s n = m.id n ∧
      Function.update m.bits z 0 n = m.bits n := fun n hn =>
    have hne : n ≠ z := fun h0 => hzt (h0 ▸ hn)
    ⟨Function.update_of_ne hne .., Function.update_of_ne hne ..⟩
  have hle : ∀ a b : ℕ, Itree.compare a b ≤ 0 ↔ a ≤ b := by
    intro a b
    unfold Itree.compare
    split_ifs <;> omega
  refine ⟨segs, t', hins, by simp [hlist'], hrep, hrb, ?_, ?_, ?_, ?_, ?_, h.masked⟩
  · have hne : t'.toList.Pairwise fun a b =>
        Function.update m.id z s a ≠ Function.update m.id z s b := by
      rw [hlist', List.pairwise_middle Ne.symm, ← hlist, List.pairwise_cons]
      refine ⟨fun n hn => ?_, h.ids.imp_of_mem fun {a b} ha hb hab => ?_⟩
      · rw [Function.update_self, (hold n hn).1]
        exact (hnew n hn).symm
      · rw [(hold a ha).1, (hold b hb).1]
        exact hab.ne
    have hcmp := hsorted (keyOrder_compare.cmpOrder _) (h.ids.imp_of_mem fun {a b} ha hb hab => by
      dsimp only
      rw [(hold a ha).1, (hold b hb).1, hle]
      exact hab.le)
    exact hcmp.imp₂ (fun {a b} hab hne => Nat.lt_of_le_of_ne ((hle _ _).mp hab) hne) hne
  · intro n hn
    rcases hmem n hn with rfl | ⟨-, hn⟩
    · simpa using hs
    · dsimp only
      rw [(hold n hn).1]
      exact h.small n hn
  · intro n hn k hk
    dsimp only
    rcases hmem n hn with rfl | ⟨-, hn⟩
    · rw [Function.update_self, Function.update_self]
      refine iff_of_false (by simp) fun hF => ?_
      obtain ⟨n', hn', hid⟩ := h.seg _ hF
      exact hnew n' hn' (by omega)
    · rw [(hold n hn).1, (hold n hn).2]
      exact h.bits n hn k hk
  · intro i hi
    obtain ⟨n, hn, hid⟩ := h.seg i hi
    refine ⟨n, ?_, (hold n hn).1.trans hid⟩
    rw [hlist] at hn
    rw [hlist']
    simp only [List.mem_append, List.mem_cons] at hn ⊢
    tauto
  · intro n hn h0
    rcases hmem n hn with hnz | ⟨-, hn⟩
    · exact hnz
    · dsimp only at h0
      rw [(hold n hn).2] at h0
      exact (h.empty n hn h0).elim

theorem Inv.delete (h : Inv shl m F t (· = n)) (hfuel : t.toList.length < fuel)
    (hn : n ∈ t.toList) (h0 : m.bits n = 0) : ∃ segs t', m.segs.itreeDelete fuel n = some segs ∧
      Inv shl { m with segs := segs } F t' fun _ => False := by
  obtain ⟨segs, t', hdel, hrep, hrb, before, after, hlist, hlist'⟩ :=
    Itree.itreeDelete_spec h.rep h.rb hn hfuel
  have hsub : t'.toList.Sublist t.toList := by
    rw [hlist, hlist']
    exact (List.Sublist.refl _).append (List.sublist_cons_self ..)
  have hne : ∀ n' ∈ t'.toList, n' ≠ n := by
    have hnodup : t.toList.Nodup := (h.ids.imp fun hlt heq => absurd (heq ▸ hlt) (Nat.lt_irrefl _))
    rw [hlist, List.nodup_middle, List.nodup_cons] at hnodup
    rintro n' hn' rfl
    exact hnodup.1 (hlist' ▸ hn')
  refine ⟨segs, t', hdel, hrep, hrb, h.ids.sublist hsub, fun n' hn' => h.small n' (hsub.subset hn'),
    fun n' hn' => h.bits n' (hsub.subset hn'), ?_, ?_, h.masked⟩
  · intro i hi
    obtain ⟨n', hn', hid⟩ := h.seg i hi
    refine ⟨n', ?_, hid⟩
    have hbit := (h.bits n' hn' (i % 64) (by omega)).mpr
      (by rwa [show m.id n' * 64 + i % 64 = i by omega])
    have hne' : n' ≠ n := by
      rintro rfl
      simp [h0] at hbit
    rw [hlist] at hn'
    rw [hlist']
    simpa [hne'] using hn'
  · exact fun n' hn' h0' => absurd (h.empty n' (hsub.subset hn') h0') (hne n' hn')

theorem Inv.dealloc (h : Inv shl m F t fun _ => False) (hfuel : t.toList.length < fuel) {i z : ℕ}
    (hi : i < 2 ^ 31) (hmask : Mask shl (i % 64)) (hF : i ∉ F) (hz : z ≠ 0) (hzt : z ∉ t.toList) :
    ∃ m' t', m.dealloc shl fuel i z = some m' ∧ Inv shl m' (insert i F) t' fun _ => False := by
  have hk : i % 64 < 64 := Nat.mod_lt _ (by decide)
  have hput : ∀ {m' : Freemap} {t' : RbTree ℕ} {p : ℕ → Prop} {n : ℕ}, Inv shl m' F t' p →
      (∀ n', p n' → n' = n) → n ∈ t'.toList → m'.id n = i / 64 →
      getbit shl (m'.bits n) (i % 64) = false ∧
        Inv shl (m'.put shl n (i % 64) true) (insert i F) t' fun _ => False := by
    intro m' t' p n h' hp hn hid
    have heq : m'.id n * 64 + i % 64 = i := by omega
    have hset := h'.set hp hn hk hmask (by rwa [heq])
    rw [heq] at hset
    refine ⟨?_, hset⟩
    rw [← Bool.not_eq_true, getbit_iff (h'.mask hn) hk, h'.bits n hn _ hk, heq]
    exact hF
  obtain ⟨n, hfind, hfound, hnone⟩ := h.find hfuel (s := i / 64) (by omega)
  rw [Freemap.dealloc, hfind]
  by_cases hn : n = 0
  · obtain ⟨segs, t', hins, hz', h'⟩ := h.addNode hfuel (by omega) (hnone hn) hz hzt
    obtain ⟨hclear, hinv⟩ := hput h' (fun _ h0 => h0) hz' (Function.update_self ..)
    refine ⟨_, t', ?_, hinv⟩
    simp only [Option.bind_eq_bind, Option.bind_some, hn, ne_eq, not_true, if_false, hins]
    exact if_neg (by rw [hclear]; exact Bool.false_ne_true)
  · obtain ⟨hmem, hid⟩ := hfound hn
    obtain ⟨hclear, hinv⟩ := hput h (fun _ h0 => h0.elim) hmem hid
    refine ⟨_, t, ?_, hinv⟩
    simp only [Option.bind_eq_bind, Option.bind_some, ne_eq, hn, not_false_eq_true, if_true]
    exact if_neg (by rw [hclear]; exact Bool.false_ne_true)

theorem Inv.alloc (h : Inv shl m F t fun _ => False) (hfuel : t.toList.length < fuel) :
    (F = ∅ ∧ m.alloc shl fuel = some (m, -1)) ∨ ∃ i ∈ F, ∃ m' t',
      m.alloc shl fuel = some (m', (i : ℤ)) ∧ Inv shl m' (F.erase i) t' fun _ => False := by
  have hroot : m.segs.rbRoot = addr t := h.rep.1
  by_cases ht : t = .nil
  · subst ht
    have hF : F = ∅ := by
      refine Finset.eq_empty_of_forall_notMem fun i hi => ?_
      obtain ⟨n, hn, -⟩ := h.seg i hi
      exact absurd hn List.not_mem_nil
    obtain ⟨fuel, rfl⟩ : ∃ k, fuel = k + 1 := ⟨fuel - 1, by omega⟩
    refine .inl ⟨hF, ?_⟩
    rw [Freemap.alloc, findmax, hroot]
    rfl
  · obtain ⟨n, hn, hmax⟩ := findmaxLoop_spec h.rep.2.1 ht hfuel
    obtain ⟨k₀, hk₀, hset₀⟩ := exists_bit fun h0 => h.empty n hn h0
    obtain ⟨k, hk, htop, hset⟩ := topbitLoop_spec (h.mask hn) (Nat.le_refl 64) hk₀ hset₀
    have hF := (h.bits n hn k hk).mp hset
    have hlt := (h.masked _ hF).2
    have hglobal : globalId (m.id n) k = (m.id n * 64 + k : ℕ) := by
      rw [globalId, BitVec.toInt_eq_toNat_cond, BitVec.toNat_ofNat]
      split_ifs <;> omega
    have hclear := h.clear hn hk hset
    refine .inr ⟨_, hF, ?_⟩
    rw [Freemap.alloc, findmax, hroot, hmax, Option.bind_eq_bind, Option.bind_some,
      if_neg (h.rep.2.1.ne_zero n hn), topbit, if_pos fun h0 => h.empty n hn h0, htop,
      Option.bind_eq_bind, Option.bind_some]
    dsimp only
    by_cases h0 : (m.put shl n k false).bits n = 0
    · have hhole : Inv shl (m.put shl n k false) (F.erase (m.id n * 64 + k)) t (· = n) :=
        { hclear with empty := fun n' hn' h0' => (hclear.empty n' hn' h0').1 }
      obtain ⟨segs, t', hdel, hinv⟩ := hhole.delete hfuel hn h0
      refine ⟨_, t', ?_, hinv⟩
      rw [if_pos h0, hdel]
      exact congrArg (fun r => some (_, r)) hglobal
    · refine ⟨_, t, ?_, { hclear with empty := fun n' hn' h0' => h0 (hclear.empty n' hn' h0').2 }⟩
      rw [if_neg h0]
      exact congrArg (fun r => some (_, r)) hglobal

theorem Inv.exact (h : Inv shl m F t fun _ => False) (hfuel : t.toList.length < fuel) :
    Exact shl fuel ⟨m, F⟩ where
  isFree := by
    intro i hi
    obtain ⟨n, hfind, hfound, hnone⟩ := h.find hfuel (s := i / 64) (by omega)
    have hk : i % 64 < 64 := Nat.mod_lt _ (by decide)
    have hat : ∀ n ∈ t.toList, m.id n = i / 64 →
        (getbit shl (m.bits n) (i % 64) = true ↔ i ∈ F) := by
      intro n hn hid
      rw [getbit_iff (h.mask hn) hk, h.bits n hn _ hk, hid]
      rw [show i / 64 * 64 + i % 64 = i by omega]
    constructor
    · intro hF
      have hn : n ≠ 0 := by
        intro h0
        obtain ⟨n', hn', hid⟩ := h.seg i hF
        exact hnone h0 n' hn' hid
      obtain ⟨hmem, hid⟩ := hfound hn
      exact ⟨n, hfind, hn, (hat n hmem hid).mpr hF⟩
    · rintro ⟨n', hfind', hn', hget⟩
      obtain rfl : n = n' := Option.some.inj (hfind.symm.trans hfind')
      obtain ⟨hmem, hid⟩ := hfound hn'
      exact (hat n hmem hid).mp hget
  nodes := by
    refine ⟨_, Itree.traverse_spec h.rep hfuel, fun n hn => ?_⟩
    obtain ⟨k, hk, hset⟩ := exists_bit fun h0 => h.empty n hn h0
    exact ⟨k, hk, (getbit_iff (h.mask hn) hk).mpr hset⟩
  nfree := h.nfree hfuel
  alloc := by
    rcases h.alloc hfuel with ⟨hF, halloc⟩ | ⟨i, hi, m', t', halloc, -⟩
    · exact ⟨m, -1, halloc, by simp [hF], fun hne => absurd rfl hne⟩
    · refine ⟨m', i, halloc, iff_of_false (by omega) (Finset.ne_empty_of_mem hi), fun _ => ⟨i, hi, rfl⟩⟩
  dealloc := by
    rintro i z ⟨-, hF, hz, hzt⟩ ⟨hmask, hi⟩
    obtain ⟨m', -, hdealloc, -⟩ :=
      h.dealloc hfuel hi hmask hF hz (hzt _ (Itree.traverse_spec h.rep hfuel))
    exact Option.isSome_iff_exists.mpr ⟨m', hdealloc⟩

/-- Runs of legal calls whose masks are the bits that they stand for. -/
theorem freemap_exact {id : ℕ → ℕ} {bits : ℕ → BitVec 64} {s : Itree} {es : List Op} {v : World}
    (hrun : Run (World.step shl fuel) (fun w op => Legal fuel w op ∧ Masked shl op)
      (World.start id bits s) es v) (hfuel : es.length < fuel) : Exact shl fuel v := by
  have hinv : ∃ t, Inv shl v.map v.free t (fun _ => False) ∧ v.free.card ≤ es.length := by
    induction hrun with
    | nil =>
        refine ⟨.nil, ⟨⟨rfl, trivial, List.nodup_nil⟩, ⟨rfl, 0, rfl⟩, List.Pairwise.nil, ?_, ?_, ?_, ?_, ?_⟩, ?_⟩
        all_goals simp [World.start, RbTree.toList]
    | @snoc w v es op _ hcond hstep ih =>
        rw [List.length_append, List.length_singleton] at hfuel ⊢
        obtain ⟨t, hw, hcard⟩ := ih (by omega)
        have hlen := Nat.lt_of_le_of_lt (hw.nodes_le.trans hcard) (by omega : es.length < fuel)
        cases op with
        | dealloc i z =>
            obtain ⟨⟨-, hF, hz, hzt⟩, hmask, hi⟩ := hcond
            obtain ⟨m', t', hdealloc, hinv⟩ :=
              hw.dealloc hlen hi hmask hF hz (hzt _ (Itree.traverse_spec hw.rep hlen))
            rw [World.step, hdealloc, Option.map_some, Option.some.injEq] at hstep
            subst hstep
            exact ⟨t', hinv, (Finset.card_insert_le ..).trans (Nat.succ_le_succ hcard)⟩
        | alloc =>
            rcases hw.alloc hlen with ⟨-, halloc⟩ | ⟨i, hi, m', t', halloc, hinv⟩
            · rw [World.step, halloc, Option.map_some, Option.some.injEq] at hstep
              subst hstep
              exact ⟨t, hw, hcard.trans (Nat.le_succ _)⟩
            · rw [World.step, halloc, Option.map_some, Option.some.injEq] at hstep
              subst hstep
              dsimp only
              rw [if_neg (by omega), Int.toNat_natCast]
              exact ⟨t', hinv, (Finset.card_erase_le).trans (hcard.trans (Nat.le_succ _))⟩
  obtain ⟨t, hv, hcard⟩ := hinv
  exact hv.exact (Nat.lt_of_le_of_lt (hv.nodes_le.trans hcard) hfuel)

/-- A machine whose shifts by the width and above give 0. -/
def shlWide (i : ℕ) : BitVec 64 := (1#32 <<< i).signExtend 64

/-- A machine that takes the count modulo 32. -/
def shlMod (i : ℕ) : BitVec 64 := (1#32 <<< (i % 32)).signExtend 64

/-- Indices of two segments go in, and the one above comes back. -/
theorem freemap_exact_two : ∃ v : World, v.free = {8} ∧ Exact shlWide 4 v := by
  let start := World.start (fun _ => 0) (fun _ => 0) ⟨0, fun _ => ⟨0, 0, 0, .black⟩⟩
  have hsteps : ((start.step shlWide 4 (.dealloc 8 1)).bind fun a =>
      (a.step shlWide 4 (.dealloc 72 2)).bind fun b => (b.step shlWide 4 .alloc).map fun c =>
        decide ((a.free = {8} ∧ traverse 4 a.map.segs = some [1]) ∧ c.free = {8})) = some true := by
    decide +kernel
  obtain ⟨a, h₁, hs⟩ := Option.bind_eq_some_iff.mp hsteps
  obtain ⟨b, h₂, hs⟩ := Option.bind_eq_some_iff.mp hs
  obtain ⟨c, h₃, hs⟩ := Option.map_eq_some_iff.mp hs
  obtain ⟨⟨hfirst, hnodes⟩, hfree⟩ := of_decide_eq_true hs
  have hlegal : Legal 4 start (.dealloc 8 1) := by
    refine ⟨by decide, by decide, by decide, ?_⟩
    rintro nodes ⟨⟩
    exact List.not_mem_nil
  have hlegal' : Legal 4 a (.dealloc 72 2) := by
    refine ⟨by decide, ?_, by decide, ?_⟩
    · rw [hfirst]
      decide
    · intro nodes h
      rw [hnodes, Option.some.injEq] at h
      rw [← h]
      decide
  have hmask : Mask shlWide 8 := by
    unfold Mask
    decide +kernel
  have hrun : Run (World.step shlWide 4) (fun w op => Legal 4 w op ∧ Masked shlWide op) start
      [.dealloc 8 1, .dealloc 72 2, .alloc] c :=
    .cons ⟨hlegal, hmask, by decide⟩ h₁
      (.cons ⟨hlegal', hmask, by decide⟩ h₂ (.cons ⟨trivial, trivial⟩ h₃ (.nil _)))
  exact ⟨c, hfree, freemap_exact hrun (by decide)⟩

/-- Index 8 comes back as index 40. -/
theorem freemap_shlMod : ¬ ∀ (fuel : ℕ) (id : ℕ → ℕ) (bits : ℕ → BitVec 64) (s : Itree)
    (es : List Op) (v : World),
    Run (World.step shlMod fuel) (Legal fuel) (World.start id bits s) es v → es.length < fuel →
      Exact shlMod fuel v := by
  intro h
  let start := World.start (fun _ => 0) (fun _ => 0) ⟨0, fun _ => ⟨0, 0, 0, .black⟩⟩
  have hstep : (start.step shlMod 3 (.dealloc 8 1)).any fun w =>
      w.free = {8} ∧ (w.map.alloc shlMod 3).map Prod.snd = some 40 := by
    decide +kernel
  obtain ⟨v, hv, hv'⟩ := (Option.any_eq_true ..).mp hstep
  obtain ⟨hfree, halloc⟩ := of_decide_eq_true hv'
  have hlegal : Legal 3 start (.dealloc 8 1) := by
    refine ⟨by decide, by decide, by decide, ?_⟩
    rintro nodes ⟨⟩
    exact List.not_mem_nil
  obtain ⟨m, r, hr, -, hmem⟩ :=
    (h 3 _ _ _ _ v (.cons hlegal hv (.nil _)) (by decide)).alloc
  rw [hr, Option.map_some, Option.some.injEq] at halloc
  obtain ⟨i, hi, hri⟩ := hmem (by dsimp only at halloc; omega)
  rw [hfree, Finset.mem_singleton] at hi
  dsimp only at halloc
  omega

end

end Freemap

end Sfslite.Safeptr
