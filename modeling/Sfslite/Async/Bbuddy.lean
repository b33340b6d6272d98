import Sfslite.Async.Bbfree
import Sfslite.Lib.Buddy
import Mathlib.Data.Nat.Bitwise

/-!
The binary buddy allocator of `bbuddy.C`: one free map for each block size, given as a logarithm. A
failed assertion, a `panic` and a shift out of the range of an `int` answer `none`.

The bits of the free maps and the blocks handed out tile the space, and no two buddies below the
largest size are free.
-/

namespace Sfslite.Async

structure Bbuddy where
  totsize : ℕ
  log2minalloc : ℕ
  log2maxalloc : ℕ
  freemaps : List Bbfree
  spaceleft : Int
  deriving DecidableEq, Repr

namespace Bbuddy

def fm (bb : Bbuddy) (sn : ℕ) : Option Bbfree :=
  -- assert (sn >= log2minalloc && sn <= log2maxalloc)
  if bb.log2minalloc ≤ sn ∧ sn ≤ bb.log2maxalloc then bb.freemaps[sn - bb.log2minalloc]?
  else none

/-- Write back the map that `fm` gives a reference to. -/
def setFm (bb : Bbuddy) (sn : ℕ) (bf : Bbfree) : Bbuddy :=
  { bb with freemaps := bb.freemaps.set (sn - bb.log2minalloc) bf }

/-- The level of a request of `n` bytes, as `alloc` and `dealloc` compute it. -/
def sizeLog (bb : Bbuddy) (n : BitVec 64) : ℕ :=
  let sn := uint (log2c64 n)
  if sn < bb.log2minalloc then bb.log2minalloc else sn

/-- The loop of `dealloc` from level `sni` on, `k` levels below the largest. -/
def deallocLoop : (k sni pos : ℕ) → Bbuddy → Option Bbuddy
  | 0, sni, pos, bb => do
      let bf ← (← bb.fm sni).setbit pos
      return bb.setFm sni bf
  | k + 1, sni, pos, bb => do
      let bf ← bb.fm sni
      if ← bf.getbit (pos ^^^ 1) then
        let bf ← bf.clrbit (pos ^^^ 1)
        deallocLoop k (sni + 1) (pos >>> 1) (bb.setFm sni bf)
      else
        let bf ← bf.setbit pos
        return bb.setFm sni bf

def dealloc (bb : Bbuddy) (off : ℕ) (len : BitVec 64) : Option Bbuddy := do
  let sn := bb.sizeLog len
  -- panic ("bbuddy::dealloc: invalid len")
  if bb.log2maxalloc < sn then none
  let pos := off >>> sn
  -- assert (off == (off_t) (pos) << sn)
  if off ≠ pos <<< sn then none
  let inc ← intShl sn
  deallocLoop (bb.log2maxalloc - sn) sn pos { bb with spaceleft := bb.spaceleft + inc }

/-- The first loop of `settotsize`: every map grows to its share of `o`. -/
def initLevels (junk : ℕ → ℕ → BitVec 64) : (k sn o : ℕ) → Bbuddy → Option Bbuddy
  | 0, _, _, bb => some bb
  | k + 1, sn, o, bb => do
      let bf ← (← bb.fm sn).init o (junk sn)
      initLevels junk k (sn + 1) (o >>> 1) (bb.setFm sn bf)

/-- The loop that is to free blocks smaller than the largest at the old end. -/
def alignLoop : (fuel o : ℕ) → Bbuddy → Option (Bbuddy × ℕ)
  | 0, _, _ => none
  | fuel + 1, o, bb => do
      let n := uint ((ffs64 (BitVec.ofNat 64 o) : Int) - 1)
      if bb.log2maxalloc ≤ n then return (bb, o)
      let inc ← intShl n
      let bb ← bb.dealloc o (BitVec.ofNat 64 inc)
      alignLoop fuel (o + inc) bb

/-- The loop that frees the new blocks of the largest size. -/
def growLoop (ts maxinc : ℕ) : (fuel o : ℕ) → Bbuddy → Option Bbuddy
  | 0, _, _ => none
  | fuel + 1, o, bb =>
    if o < ts then do
      let bb ← bb.dealloc o (BitVec.ofNat 64 maxinc)
      growLoop ts maxinc fuel (o + maxinc) bb
    else some bb

def settotsize (bb : Bbuddy) (ts : BitVec 64) (junk : ℕ → ℕ → BitVec 64) : Option Bbuddy := do
  let maxinc ← intShl bb.log2maxalloc
  let ts := ts &&& ~~~(BitVec.ofNat 64 maxinc - 1)
  -- assert (ts >= totsize)
  if ts.toInt < bb.totsize then none
  let ts := ts.toNat
  let bb ← initLevels junk (bb.log2maxalloc + 1 - bb.log2minalloc) bb.log2minalloc
    (ts >>> bb.log2minalloc) bb
  let bb ←
    if bb.totsize < ts then do
      let (bb, o) ← alignLoop (ts + 1) bb.totsize bb
      growLoop ts maxinc (ts + 1) o bb
    else some bb
  return { bb with totsize := ts }

def new (ts minalloc maxalloc : BitVec 64) (junk : ℕ → ℕ → BitVec 64) : Option Bbuddy := do
  let lo := uint (log2c64 minalloc)
  let hi := uint (log2c64 maxalloc)
  -- assert (log2maxalloc >= log2minalloc)
  if hi < lo then none
  settotsize ⟨0, lo, hi, List.replicate (1 + hi - lo) Bbfree.new, 0⟩ ts junk

/-- The search of `alloc` above level `sni`, `k` levels below the largest. -/
def allocUp : (k sni : ℕ) → Bbuddy → Option (Bbuddy × Option (ℕ × ℕ))
  | 0, _, bb => some (bb, none)
  | k + 1, sni, bb => do
      let (bf, r) ← (← bb.fm (sni + 1)).findbit
      let bb := bb.setFm (sni + 1) bf
      match r with
      | some pos => return (bb, some (sni + 1, pos))
      | none => allocUp k (sni + 1) bb

/-- The loop that cuts a block of level `sni` down to level `sn`. At level 0 the
unsigned `--sni` wraps around to a number that is no level. -/
def allocSplit (sn : ℕ) : (sni pos : ℕ) → Bbuddy → Option (Bbuddy × ℕ)
  | 0, _, bb => do
      let _ ← bb.fm (uint (-1))
      none
  | sni + 1, pos, bb =>
    if sn ≤ sni then do
      let pos := pos <<< 1
      let bf ← (← bb.fm sni).setbit (pos + 1)
      allocSplit sn sni pos (bb.setFm sni bf)
    else some (bb, pos)

def alloc (bb : Bbuddy) (n : BitVec 64) : Option (Bbuddy × Int) := do
  let sn := bb.sizeLog n
  if bb.log2maxalloc < sn then return (bb, -1)
  let (bf, r) ← (← bb.fm sn).findbit
  let bb := bb.setFm sn bf
  match r with
  | some pos =>
    let bf ← (← bb.fm sn).clrbit pos
    let inc ← intShl sn
    return ({ bb.setFm sn bf with spaceleft := bb.spaceleft - inc }, (pos <<< sn : ℕ))
  | none =>
    match ← allocUp (bb.log2maxalloc - sn) sn bb with
    | (bb, none) => return (bb, -1)
    | (bb, some (sni, pos)) =>
      let bf ← (← bb.fm sni).clrbit pos
      let (bb, pos) ← allocSplit sn sni pos (bb.setFm sni bf)
      let inc ← intShl sn
      return ({ bb with spaceleft := bb.spaceleft - inc }, (pos <<< sn : ℕ))

end Bbuddy

open Sfslite.Lib.Buddy

/-- The free blocks, as pairs of level and position. -/
def freeSet (F : ℕ → Finset ℕ) : Set (ℕ × ℕ) := {b | b.2 ∈ F b.1}

theorem mem_freeSet {F : ℕ → Finset ℕ} {k p : ℕ} : (k, p) ∈ freeSet F ↔ p ∈ F k := Iff.rfl

theorem freeSet_insert (F : ℕ → Finset ℕ) (k p : ℕ) :
    freeSet (Function.update F k (insert p (F k))) = insert (k, p) (freeSet F) := by
  ext ⟨j, q⟩
  rw [Set.mem_insert_iff, mem_freeSet, mem_freeSet, Prod.mk.injEq]
  by_cases hj : j = k
  · subst hj
    simp
  · simp [hj]

theorem freeSet_erase (F : ℕ → Finset ℕ) (k p : ℕ) :
    freeSet (Function.update F k ((F k).erase p)) = freeSet F \ {(k, p)} := by
  ext ⟨j, q⟩
  rw [Set.mem_sdiff, Set.mem_singleton_iff, mem_freeSet, mem_freeSet, Prod.mk.injEq]
  by_cases hj : j = k
  · subst hj
    simp [and_comm]
  · simp [hj]

namespace Bbuddy

variable {bb : Bbuddy} {nb total k p : ℕ} {F : ℕ → Finset ℕ} {L : Set (ℕ × ℕ)}

/-- The maps hold the free blocks; the map of level `k` has `sz k` bits. -/
structure Maps (bb : Bbuddy) (sz : ℕ → ℕ) (F : ℕ → Finset ℕ) : Prop where
  length : bb.freemaps.length = 1 + bb.log2maxalloc - bb.log2minalloc
  level : ∀ b ∈ freeSet F, bb.log2minalloc ≤ b.1 ∧ b.1 ≤ bb.log2maxalloc
  holds : ∀ k bf, bb.fm k = some bf → bf.Holds (sz k) (F k)

/-- The free blocks and the blocks `L` that are handed out tile the space below
`total`, and no two buddies below the largest size are free. The maps are made for
`nb` bytes. -/
structure Inv (bb : Bbuddy) (nb total : ℕ) (F : ℕ → Finset ℕ) (L : Set (ℕ × ℕ)) : Prop where
  maps : bb.Maps (fun k => nb / 2 ^ k) F
  tiles : Tiles (freeSet F ∪ L) total
  excl : ∀ b ∈ freeSet F, b ∉ L
  buddy : ∀ k p, k < bb.log2maxalloc → (k, 2 * p) ∈ freeSet F → (k, 2 * p + 1) ∉ freeSet F
  level : ∀ b ∈ L, bb.log2minalloc ≤ b.1 ∧ b.1 ≤ bb.log2maxalloc
  dvd : 2 ^ bb.log2maxalloc ∣ total
  le : total ≤ nb

/-- An allocation at level `a` turns the free blocks `F` into `F'`: it takes the block `q` of the
least level `j` that has one, and leaves a half of it at each level on the way down. -/
structure Taken (F F' : ℕ → Finset ℕ) (a j q : ℕ) : Prop where
  le : a ≤ j
  mem : q ∈ F j
  least : ∀ i, a ≤ i → i < j → F i = ∅
  source : F' j = (F j).erase q
  halves : ∀ i, a ≤ i → i < j → F' i ≠ ∅
  others : ∀ i, i < a ∨ j < i → F' i = F i

variable {sz : ℕ → ℕ}

theorem Maps.fm_some (h : bb.Maps sz F) (hlo : bb.log2minalloc ≤ k)
    (hhi : k ≤ bb.log2maxalloc) : ∃ bf, bb.fm k = some bf ∧ bf.Holds (sz k) (F k) := by
  have hlen : k - bb.log2minalloc < bb.freemaps.length := by
    rw [h.length]
    omega
  have hfm : bb.fm k = some bb.freemaps[k - bb.log2minalloc] := by
    rw [fm, if_pos ⟨hlo, hhi⟩, List.getElem?_eq_getElem hlen]
  exact ⟨_, hfm, h.holds k _ hfm⟩

theorem fm_setFm (hlo : bb.log2minalloc ≤ k) (hhi : k ≤ bb.log2maxalloc)
    (hlen : bb.freemaps.length = 1 + bb.log2maxalloc - bb.log2minalloc) (bf : Bbfree) (j : ℕ) :
    (bb.setFm k bf).fm j = if j = k then some bf else bb.fm j := by
  have hk : k - bb.log2minalloc < bb.freemaps.length := by
    rw [hlen]
    omega
  simp only [fm, setFm, List.getElem?_set]
  by_cases hj : j = k
  · subst hj
    simp [hlo, hhi, hk]
  · rw [if_neg hj]
    split_ifs with hrange heq
    · omega
    · rfl
    · rfl

theorem Maps.setFm (h : bb.Maps sz F) (hlo : bb.log2minalloc ≤ k)
    (hhi : k ≤ bb.log2maxalloc) {bf : Bbfree} {n : ℕ} {S : Finset ℕ} (hbf : bf.Holds n S) :
    (bb.setFm k bf).Maps (Function.update sz k n) (Function.update F k S) where
  length := by simpa [Bbuddy.setFm] using h.length
  level := by
    rintro ⟨j, q⟩ hb
    rw [mem_freeSet] at hb
    by_cases hj : j = k
    · subst hj
      exact ⟨hlo, hhi⟩
    · rw [Function.update_of_ne hj] at hb
      exact h.level (j, q) hb
  holds := by
    intro j bf' hfm
    rw [fm_setFm hlo hhi h.length] at hfm
    by_cases hj : j = k
    · subst hj
      rw [if_pos rfl, Option.some.injEq] at hfm
      rw [Function.update_self, Function.update_self, ← hfm]
      exact hbf
    · rw [if_neg hj] at hfm
      rw [Function.update_of_ne hj, Function.update_of_ne hj]
      exact h.holds j bf' hfm

theorem Maps.setFm_same (h : bb.Maps sz F) (hlo : bb.log2minalloc ≤ k)
    (hhi : k ≤ bb.log2maxalloc) {bf : Bbfree} {S : Finset ℕ} (hbf : bf.Holds (sz k) S) :
    (bb.setFm k bf).Maps sz (Function.update F k S) := by
  have hmaps := h.setFm hlo hhi hbf
  rwa [Function.update_eq_self] at hmaps

theorem Maps.ext {bb' : Bbuddy} (h : bb.Maps sz F) (h' : bb'.Maps sz F)
    (hlo : bb.log2minalloc = bb'.log2minalloc) (hhi : bb.log2maxalloc = bb'.log2maxalloc) :
    bb.freemaps.map ({ · with hint := 0 }) = bb'.freemaps.map ({ · with hint := 0 }) := by
  have hlen := h.length
  have hlen' := h'.length
  refine List.ext_getElem (by simp only [List.length_map]; omega) fun i hi hi' => ?_
  simp only [List.length_map] at hi hi'
  have hget : bb.fm (bb.log2minalloc + i) = some bb.freemaps[i] := by
    rw [fm, if_pos (by omega), Nat.add_sub_cancel_left, List.getElem?_eq_getElem hi]
  have hget' : bb'.fm (bb.log2minalloc + i) = some bb'.freemaps[i] := by
    rw [fm, if_pos (by omega), hlo, Nat.add_sub_cancel_left, List.getElem?_eq_getElem hi']
  rw [List.getElem_map, List.getElem_map]
  exact (h.holds _ _ hget).ext (h'.holds _ _ hget')

theorem Inv.take (h : bb.Inv nb total F L) (hp : p ∈ F k) :
    ∃ bf bf', bb.fm k = some bf ∧ bf.clrbit p = some bf' ∧
      (bb.setFm k bf').Inv nb total (Function.update F k ((F k).erase p)) (insert (k, p) L) ∧
      (k, p) ∉ L := by
  obtain ⟨hlo, hhi⟩ := h.maps.level (k, p) hp
  obtain ⟨bf, hfm, hbf⟩ := h.maps.fm_some hlo hhi
  obtain ⟨bf', hclr, hbf'⟩ := hbf.clrbit hp
  have hfree : (k, p) ∈ freeSet F := hp
  have hset := freeSet_erase F k p
  refine ⟨bf, bf', hfm, hclr, ⟨h.maps.setFm_same hlo hhi hbf', ?_, ?_, ?_, ?_, h.dvd, h.le⟩,
    h.excl _ hfree⟩
  · rw [hset]
    have heq : freeSet F \ {(k, p)} ∪ insert (k, p) L = freeSet F ∪ L := by
      ext b
      by_cases hb : b = (k, p)
      · simp [hb, hfree]
      · simp [hb]
    rw [heq]
    exact h.tiles
  · rw [hset]
    rintro b ⟨hb, hne⟩ (rfl | hbL)
    · exact hne rfl
    · exact h.excl b hb hbL
  · rw [hset]
    exact fun j q hj hl hr => h.buddy j q hj hl.1 hr.1
  · rintro b (rfl | hb)
    · exact ⟨hlo, hhi⟩
    · exact h.level b hb

/-- A map is searched. Where it is empty nothing changes; otherwise some free block is
found, and only the hint of the map may have changed. -/
theorem Inv.search (h : bb.Inv nb total F L) (hlo : bb.log2minalloc ≤ k)
    (hhi : k ≤ bb.log2maxalloc) :
    ∃ bf bf' r, bb.fm k = some bf ∧ bf.findbit = some (bf', r) ∧
      (bb.setFm k bf').Inv nb total F L ∧
      ((r = none ∧ F k = ∅) ∨ ∃ pos, r = some pos ∧ pos ∈ F k) := by
  obtain ⟨bf, hfm, hbf⟩ := h.maps.fm_some hlo hhi
  have hkeep : ∀ bf' : Bbfree, bf'.Holds (nb / 2 ^ k) (F k) →
      (bb.setFm k bf').Inv nb total F L := by
    intro bf' hbf'
    have hmaps := h.maps.setFm_same hlo hhi hbf'
    rw [Function.update_eq_self] at hmaps
    exact { h with maps := hmaps }
  rcases hbf.findbit with ⟨hempty, hfind⟩ | ⟨bf', pos, hfind, hpos, hbf'⟩
  · exact ⟨bf, bf, none, hfm, hfind, hkeep bf hbf, Or.inl ⟨rfl, hempty⟩⟩
  · exact ⟨bf, bf', some pos, hfm, hfind, hkeep bf' hbf', Or.inr ⟨pos, rfl, hpos⟩⟩

theorem Inv.cut (h : bb.Inv nb total F (insert (k + 1, p) L)) (hp : (k + 1, p) ∉ L)
    (hlo : bb.log2minalloc ≤ k) :
    ∃ bf bf', bb.fm k = some bf ∧ bf.setbit (2 * p + 1) = some bf' ∧
      (bb.setFm k bf').Inv nb total (Function.update F k (insert (2 * p + 1) (F k)))
        (insert (k, 2 * p) L) ∧ (k, 2 * p) ∉ L := by
  have hhi : k + 1 ≤ bb.log2maxalloc := (h.level _ (Set.mem_insert ..)).2
  obtain ⟨bf, hfm, hbf⟩ := h.maps.fm_some hlo (Nat.le_of_succ_le hhi)
  have hpF : (k + 1, p) ∉ freeSet F := fun hF => h.excl _ hF (Set.mem_insert ..)
  have htiles := h.tiles
  rw [Set.union_insert] at htiles
  obtain ⟨htiles', hl, hr⟩ := htiles.split (fun hB => hB.elim hpF hp)
  have hdvd : 2 ^ k ∣ total := (Nat.pow_dvd_pow 2 (Nat.le_of_succ_le hhi)).trans h.dvd
  have hlt : 2 * p + 1 < nb / 2 ^ k :=
    Nat.lt_of_lt_of_le
      (htiles'.lt_of_mem (Set.mem_insert_of_mem _ (Set.mem_insert ..)) hdvd)
      (Nat.div_le_div_right h.le)
  have hrF : 2 * p + 1 ∉ F k := fun hF => hr (Or.inl hF)
  obtain ⟨bf', hset, hbf'⟩ := hbf.setbit hlt hrF
  refine ⟨bf, bf', hfm, hset,
    ⟨h.maps.setFm_same hlo (Nat.le_of_succ_le hhi) hbf', ?_, ?_, ?_, ?_, h.dvd, h.le⟩,
    fun hL => hl (Or.inr hL)⟩
  · rw [freeSet_insert, Set.insert_union, Set.union_insert, Set.insert_comm]
    exact htiles'
  · rw [freeSet_insert]
    rintro b (rfl | hb) (hb' | hb')
    · simp at hb'
    · exact hr (Or.inr hb')
    · exact hl (Or.inl (hb' ▸ hb))
    · exact h.excl b hb (Set.mem_insert_of_mem _ hb')
  · rw [freeSet_insert]
    rintro j q hj (hq | hq) (hq' | hq')
    · simp only [Prod.mk.injEq] at hq
      omega
    · simp only [Prod.mk.injEq] at hq
      omega
    · simp only [Prod.mk.injEq] at hq'
      obtain ⟨rfl, hq'⟩ := hq'
      obtain rfl : q = p := by omega
      exact hl (Or.inl hq)
    · exact h.buddy j q hj hq hq'
  · rintro b (rfl | hb)
    · exact ⟨hlo, Nat.le_of_succ_le hhi⟩
    · exact h.level b (Set.mem_insert_of_mem _ hb)

theorem xor_one (p : ℕ) :
    (p = 2 * (p / 2) ∧ p ^^^ 1 = 2 * (p / 2) + 1) ∨ (p = 2 * (p / 2) + 1 ∧ p ^^^ 1 = 2 * (p / 2)) := by
  have hdiv : (p ^^^ 1) / 2 = p / 2 := by
    rw [Nat.xor_div_two]
    simp
  have hmod : (p ^^^ 1) % 2 = (p + 1) % 2 := Nat.xor_mod_two_eq
  omega

theorem Inv.join (h : bb.Inv nb total F (insert (k, p) L)) (hp : (k, p) ∉ L)
    (hk : k < bb.log2maxalloc) (hbuddy : p ^^^ 1 ∈ F k) :
    ∃ bf bf' F', bb.fm k = some bf ∧ bf.clrbit (p ^^^ 1) = some bf' ∧
      (bb.setFm k bf').Inv nb total F' (insert (k + 1, p / 2) L) ∧ (k + 1, p / 2) ∉ L := by
  have hlo : bb.log2minalloc ≤ k := (h.level _ (Set.mem_insert ..)).1
  obtain ⟨bf, hfm, hbf⟩ := h.maps.fm_some hlo (Nat.le_of_lt hk)
  obtain ⟨bf', hclr, hbf'⟩ := hbf.clrbit hbuddy
  have hfree : (k, p ^^^ 1) ∈ freeSet F := hbuddy
  have hpF : (k, p) ∉ freeSet F := fun hF => h.excl _ hF (Set.mem_insert ..)
  let X : Set (ℕ × ℕ) := freeSet F \ {(k, p ^^^ 1)} ∪ L
  have hpX : (k, p) ∉ X := by
    rintro (hX | hX)
    · exact hpF hX.1
    · exact hp hX
  have hbX : (k, p ^^^ 1) ∉ X := by
    rintro (hX | hX)
    · exact hX.2 rfl
    · exact h.excl _ hfree (Set.mem_insert_of_mem _ hX)
  have hall : freeSet F ∪ insert (k, p) L = insert (k, p) (insert (k, p ^^^ 1) X) := by
    ext b
    by_cases hb : b = (k, p ^^^ 1)
    · simp [hb, hfree]
    · simp only [X, Set.mem_union, Set.mem_insert_iff, Set.mem_sdiff, Set.mem_singleton_iff, hb,
        not_false_eq_true, and_true, false_or]
      tauto
  have hmerge : Tiles (insert (k + 1, p / 2) X) total ∧ (k + 1, p / 2) ∉ X := by
    have htiles := h.tiles
    rw [hall] at htiles
    exact htiles.merge_halves hpX hbX (xor_one p)
  refine ⟨bf, bf', _, hfm, hclr,
    ⟨h.maps.setFm_same hlo (Nat.le_of_lt hk) hbf', ?_, ?_, ?_, ?_, h.dvd, h.le⟩,
    fun hL => hmerge.2 (Or.inr hL)⟩
  · rw [freeSet_erase, Set.union_insert]
    exact hmerge.1
  · rw [freeSet_erase]
    rintro b ⟨hb, hne⟩ (rfl | hL)
    · exact hmerge.2 (Or.inl ⟨hb, hne⟩)
    · exact h.excl b hb (Set.mem_insert_of_mem _ hL)
  · rw [freeSet_erase]
    exact fun j q hj hl hr => h.buddy j q hj hl.1 hr.1
  · rintro b (rfl | hb)
    · exact ⟨Nat.le_succ_of_le hlo, hk⟩
    · exact h.level b (Set.mem_insert_of_mem _ hb)

theorem Inv.release (h : bb.Inv nb total F (insert (k, p) L)) (hp : (k, p) ∉ L)
    (hbuddy : k < bb.log2maxalloc → p ^^^ 1 ∉ F k) :
    ∃ bf bf' F', bb.fm k = some bf ∧ bf.setbit p = some bf' ∧
      (bb.setFm k bf').Inv nb total F' L := by
  obtain ⟨hlo, hhi⟩ := h.level _ (Set.mem_insert (k, p) L)
  obtain ⟨bf, hfm, hbf⟩ := h.maps.fm_some hlo hhi
  have hpF : (k, p) ∉ freeSet F := fun hF => h.excl _ hF (Set.mem_insert ..)
  have hdvd : 2 ^ k ∣ total := (Nat.pow_dvd_pow 2 hhi).trans h.dvd
  have hlt : p < nb / 2 ^ k :=
    Nat.lt_of_lt_of_le (h.tiles.lt_of_mem (Or.inr (Set.mem_insert ..)) hdvd)
      (Nat.div_le_div_right h.le)
  obtain ⟨bf', hset, hbf'⟩ := hbf.setbit hlt hpF
  refine ⟨bf, bf', _, hfm, hset, ⟨h.maps.setFm_same hlo hhi hbf', ?_, ?_, ?_, ?_, h.dvd, h.le⟩⟩
  · rw [freeSet_insert, Set.insert_union, ← Set.union_insert]
    exact h.tiles
  · rw [freeSet_insert]
    rintro b (rfl | hb) hL
    · exact hp hL
    · exact h.excl b hb (Set.mem_insert_of_mem _ hL)
  · rw [freeSet_insert]
    rintro j q hj (hq | hq) (hq' | hq')
    · simp only [Prod.mk.injEq] at hq hq'
      omega
    · obtain ⟨rfl, rfl⟩ := Prod.mk.inj hq
      refine hbuddy hj ?_
      rcases xor_one (2 * q) with ⟨-, hx⟩ | ⟨hx, -⟩
      · rw [hx, show 2 * q / 2 = q by omega]
        exact hq'
      · omega
    · obtain ⟨rfl, rfl⟩ := Prod.mk.inj hq'
      refine hbuddy hj ?_
      rcases xor_one (2 * q + 1) with ⟨hx, -⟩ | ⟨-, hx⟩
      · omega
      · rw [hx, show (2 * q + 1) / 2 = q by omega]
        exact hq
    · exact h.buddy j q hj hq hq'
  · exact fun b hb => h.level b (Set.mem_insert_of_mem _ hb)

end Bbuddy

end Sfslite.Async
