import Sfslite.Async.BbuddyOps
import Sfslite.Lib.Run
import Mathlib.Data.Nat.Log
import Mathlib.Algebra.BigOperators.Group.List.Basic

/-!
Runs of the buddy allocator: the caller allocates, gives back live blocks with their
own length and lets the space grow. The blocks the caller holds are part of the state.
-/

namespace Sfslite.Async

open Sfslite.Lib Sfslite.Lib.Buddy

inductive BbuddyOp where
  | alloc (n : BitVec 64)
  | dealloc (off : ℕ) (len : BitVec 64)
  | settotsize (ts : BitVec 64) (junk : ℕ → ℕ → BitVec 64)

/-- An allocator and the live blocks, each with the length it was asked for. -/
structure BbuddyWorld where
  bb : Bbuddy
  live : List (ℕ × BitVec 64)

namespace BbuddyWorld

def step (w : BbuddyWorld) : BbuddyOp → Option BbuddyWorld
  | .alloc n => do
      let (bb, r) ← w.bb.alloc n
      return ⟨bb, if r < 0 then w.live else (r.toNat, n) :: w.live⟩
  | .dealloc off len => do
      let bb ← w.bb.dealloc off len
      return ⟨bb, w.live.erase (off, len)⟩
  | .settotsize ts junk => do
      let bb ← w.bb.settotsize ts junk
      return ⟨bb, w.live⟩

def Legal (w : BbuddyWorld) : BbuddyOp → Prop
  | .alloc _ => True
  | .dealloc off len => (off, len) ∈ w.live
  | .settotsize ts _ => (w.bb.totsize : Int) ≤ ts.toInt

/-- The logarithm of a length rounded up to a block size. -/
def roundLog (w : BbuddyWorld) (n : BitVec 64) : ℕ :=
  max w.bb.log2minalloc (Nat.clog 2 n.toNat)

def size (w : BbuddyWorld) (e : ℕ × BitVec 64) : ℕ := 2 ^ w.roundLog e.2

def IsFree (w : BbuddyWorld) (sn pos : ℕ) : Prop :=
  ∃ bf, w.bb.fm sn = some bf ∧ bf.getbit pos = some true

/-- What holds between two operations. The free maps are compared with those of a
freshly sized allocator up to the search hint. -/
structure Sound (w : BbuddyWorld) : Prop where
  aligned : ∀ e ∈ w.live, w.size e ∣ e.1
  inside : ∀ e ∈ w.live, e.1 + w.size e ≤ w.bb.totsize
  disjoint : w.live.Pairwise fun e e' => e.1 + w.size e ≤ e'.1 ∨ e'.1 + w.size e' ≤ e.1
  space : w.bb.spaceleft = w.bb.totsize - ((w.live.map w.size).sum : ℕ)
  buddies : ∀ sn pos, sn < w.bb.log2maxalloc → ¬ (w.IsFree sn pos ∧ w.IsFree sn (pos ^^^ 1))
  fresh : w.live = [] → ∀ junk, ∃ bb,
    Bbuddy.new (BitVec.ofNat 64 w.bb.totsize) (BitVec.ofNat 64 (2 ^ w.bb.log2minalloc))
      (BitVec.ofNat 64 (2 ^ w.bb.log2maxalloc)) junk = some bb ∧
    w.bb.freemaps.map ({ · with hint := 0 }) = bb.freemaps.map ({ · with hint := 0 })

/-- An operation does what it should: it does not abort, and an allocation fails only
where every aligned region that is large enough meets a live block. -/
def OpOk (w : BbuddyWorld) : BbuddyOp → Prop
  | .alloc n => ∃ bb r, w.bb.alloc n = some (bb, r) ∧
      (r < 0 → ∀ k p, w.roundLog n ≤ k → k ≤ w.bb.log2maxalloc → (p + 1) * 2 ^ k ≤ w.bb.totsize →
        ∃ e ∈ w.live, e.1 < (p + 1) * 2 ^ k ∧ p * 2 ^ k < e.1 + w.size e)
  | op => ∃ w', w.step op = some w'

def Full (w : BbuddyWorld) : Prop := ∀ sn pos, ¬ w.IsFree sn pos

/-- The operation does not reach a defect: nothing of length zero is asked for while
a block is free, and no block of one byte has to be cut from a larger one. -/
def Works (w : BbuddyWorld) : BbuddyOp → Prop
  | .alloc n => (n = 0 → w.Full) ∧ (w.roundLog n = 0 → w.Full ∨ ∃ pos, w.IsFree 0 pos)
  | _ => True

variable {w : BbuddyWorld}

def block (w : BbuddyWorld) (e : ℕ × BitVec 64) : ℕ × ℕ := (w.roundLog e.2, e.1 / w.size e)

/-- The invariant: the free maps and the live blocks tile the space. -/
structure Ok (w : BbuddyWorld) : Prop where
  inv : ∃ F, w.bb.Inv w.bb.totsize w.bb.totsize F {b | ∃ e ∈ w.live, w.block e = b}
  nodup : (w.live.map w.block).Nodup
  aligned : ∀ e ∈ w.live, w.size e ∣ e.1
  nonzero : ∀ e ∈ w.live, e.2 ≠ 0
  space : w.bb.spaceleft = w.bb.totsize - ((w.live.map w.size).sum : ℕ)
  levels : w.bb.log2minalloc ≤ w.bb.log2maxalloc ∧ w.bb.log2maxalloc ≤ 30
  totsize : w.bb.totsize < 2 ^ 63

/-- Two allocators of the same space and block sizes. -/
structure SameSpace (w w' : BbuddyWorld) : Prop where
  log2minalloc : w.bb.log2minalloc = w'.bb.log2minalloc
  log2maxalloc : w.bb.log2maxalloc = w'.bb.log2maxalloc
  totsize : w.bb.totsize = w'.bb.totsize

variable {F : ℕ → Finset ℕ}

theorem isFree_of_mem {nb total : ℕ} {L : Set (ℕ × ℕ)}
    (h : w.bb.Inv nb total F L) {sn pos : ℕ} (hF : pos ∈ F sn) : w.IsFree sn pos := by
  obtain ⟨hlo, hhi⟩ := h.maps.level (sn, pos) hF
  obtain ⟨bf, hfm, hbf⟩ := h.maps.fm_some hlo hhi
  exact ⟨bf, hfm, by rw [hbf.getbit (hbf.lt pos hF), decide_eq_true hF]⟩

theorem mem_of_isFree {nb total : ℕ} {L : Set (ℕ × ℕ)}
    (h : w.bb.Inv nb total F L) {sn pos : ℕ} (hfree : w.IsFree sn pos) : pos ∈ F sn := by
  obtain ⟨bf, hfm, hget⟩ := hfree
  have hbf := h.maps.holds sn bf hfm
  have hpos : pos < nb / 2 ^ sn := by
    by_contra hge
    have hnb : bf.nbits ≤ pos := by rw [hbf.nbits]; omega
    simp [Bbfree.getbit, hnb] at hget
  rw [hbf.getbit hpos, Option.some.injEq] at hget
  exact of_decide_eq_true hget

theorem log2c64_eq_clog {n : BitVec 64} (hn : n ≠ 0) : log2c64 n = Nat.clog 2 n.toNat := by
  obtain ⟨j, hj⟩ := Int.eq_ofNat_of_zero_le (log2c64_nonneg hn)
  have hiff : ∀ k, j ≤ k ↔ Nat.clog 2 n.toNat ≤ k := by
    intro k
    have hk := log2c64_le_iff hn k
    rw [hj, Int.ofNat_le] at hk
    rw [hk, Nat.clog_le_iff_le_pow (by decide)]
  have hclog : Nat.clog 2 n.toNat = j :=
    Nat.le_antisymm ((hiff j).mp (Nat.le_refl j)) ((hiff _).mpr (Nat.le_refl _))
  rw [hj, hclog]

theorem sizeLog_eq_roundLog {n : BitVec 64} (hn : n ≠ 0) : w.bb.sizeLog n = w.roundLog n := by
  have hle : Nat.clog 2 n.toNat ≤ 64 := by
    rw [Nat.clog_le_iff_le_pow (by decide)]
    exact Nat.le_of_lt n.isLt
  simp only [Bbuddy.sizeLog, roundLog, log2c64_eq_clog hn,
    uint_natCast (show Nat.clog 2 n.toNat < 2 ^ 32 by omega)]
  rw [Nat.max_def]
  split_ifs <;> omega

theorem div_eq_iff_mem {x k p : ℕ} : x / 2 ^ k = p ↔ p * 2 ^ k ≤ x ∧ x < (p + 1) * 2 ^ k := by
  have hpos := Nat.two_pow_pos k
  rw [← Nat.le_div_iff_mul_le hpos, ← Nat.div_lt_iff_lt_mul hpos]
  omega

theorem Ok.mem_block (h : w.Ok) {e : ℕ × BitVec 64} (he : e ∈ w.live) (x : ℕ) :
    blockOf x (w.roundLog e.2) = w.block e ↔ e.1 ≤ x ∧ x < e.1 + w.size e := by
  have hdiv : e.1 / w.size e * w.size e = e.1 := Nat.div_mul_cancel (h.aligned e he)
  have hspan : (e.1 / w.size e + 1) * w.size e = e.1 + w.size e := by
    rw [Nat.succ_mul, hdiv]
  have hmem : x / w.size e = e.1 / w.size e ↔
      e.1 / w.size e * w.size e ≤ x ∧ x < (e.1 / w.size e + 1) * w.size e := div_eq_iff_mem
  rw [hdiv, hspan] at hmem
  simp only [blockOf, block, Prod.mk.injEq, true_and]
  exact hmem

theorem free_of_empty {bb : Bbuddy} {total : ℕ} (h : bb.Inv total total F ∅)
    (hlohi : bb.log2minalloc ≤ bb.log2maxalloc) (k : ℕ) :
    F k = if k = bb.log2maxalloc then Finset.range (total / 2 ^ k) else ∅ := by
  have htiles := h.tiles
  rw [Set.union_empty] at htiles
  have htop : ∀ p < total / 2 ^ bb.log2maxalloc, p ∈ F bb.log2maxalloc := by
    intro p hp
    have hfits : (p + 1) * 2 ^ bb.log2maxalloc ≤ total :=
      (Nat.mul_le_mul_right _ hp).trans (Nat.div_mul_le_self ..)
    obtain ⟨j, hj, hmem⟩ := exists_free_block (k := bb.log2maxalloc) (p := p)
      (fun b hb => (h.maps.level b hb).1) h.buddy hlohi (Nat.le_refl _)
      (fun x hx => htiles.cover x (Nat.lt_of_lt_of_le (div_eq_iff_mem.mp hx).2 hfits))
    have hjhi : j ≤ bb.log2maxalloc := (h.maps.level _ hmem).2
    obtain rfl : j = bb.log2maxalloc := by omega
    rw [blockOf_start] at hmem
    exact hmem
  ext p
  split_ifs with hk
  · subst hk
    rw [Finset.mem_range]
    exact ⟨fun hp => htiles.lt_of_mem hp h.dvd, htop p⟩
  · refine ⟨fun hp => ?_, fun hp => absurd hp (Finset.notMem_empty p)⟩
    have hkhi := (h.maps.level (k, p) hp).2
    have hmem : blockOf (p * 2 ^ k) k ∈ freeSet F := by rw [blockOf_start]; exact hp
    have hlt := htiles.inside _ _ hmem
    have htopmem : blockOf (p * 2 ^ k) bb.log2maxalloc ∈ freeSet F := by
      refine htop _ ?_
      obtain ⟨m, hm⟩ := h.dvd
      rw [hm, Nat.mul_div_cancel_left _ (Nat.two_pow_pos _)]
      rw [hm, Nat.mul_comm (2 ^ _) m] at hlt
      exact (Nat.div_lt_iff_lt_mul (Nat.two_pow_pos _)).mpr hlt
    exact absurd (htiles.unique _ _ _ hmem htopmem) hk

theorem size_pos (e : ℕ × BitVec 64) : 0 < w.size e := Nat.two_pow_pos _

theorem Ok.block_eq (h : w.Ok) {e e' : ℕ × BitVec 64} (he : e ∈ w.live) (he' : e' ∈ w.live)
    {x : ℕ} (hx : e.1 ≤ x ∧ x < e.1 + w.size e) (hx' : e'.1 ≤ x ∧ x < e'.1 + w.size e') :
    w.block e = w.block e' := by
  obtain ⟨F, hinv⟩ := h.inv
  have hblock := (h.mem_block he x).mpr hx
  have hblock' := (h.mem_block he' x).mpr hx'
  have hk : w.roundLog e.2 = w.roundLog e'.2 := by
    refine hinv.tiles.unique x _ _ (Or.inr ?_) (Or.inr ?_)
    · exact ⟨e, he, hblock.symm⟩
    · exact ⟨e', he', hblock'.symm⟩
  rw [← hblock, ← hblock', hk]

theorem Ok.sound (h : w.Ok) : w.Sound := by
  obtain ⟨F, hinv⟩ := h.inv
  refine ⟨h.aligned, fun e he => ?_, ?_, h.space, ?_, ?_⟩
  · have hlast : w.block e = blockOf (e.1 + w.size e - 1) (w.roundLog e.2) := by
      have hpos := size_pos (w := w) e
      exact ((h.mem_block he _).mpr (by omega)).symm
    have hlt := hinv.tiles.inside (e.1 + w.size e - 1) (w.roundLog e.2) (Or.inr ⟨e, he, hlast⟩)
    omega
  · refine (List.pairwise_map.mp h.nodup).imp_of_mem fun {e e'} he he' hne => ?_
    by_contra hmeet
    have hpos := size_pos (w := w) e
    have hpos' := size_pos (w := w) e'
    exact hne (h.block_eq he he' (x := max e.1 e'.1) (by omega) (by omega))
  · rintro sn pos hsn ⟨hfree, hfree'⟩
    have hF := mem_of_isFree hinv hfree
    have hF' := mem_of_isFree hinv hfree'
    rcases Bbuddy.xor_one pos with ⟨hl, hr⟩ | ⟨hr, hl⟩
    · rw [hr] at hF'
      rw [hl] at hF
      exact hinv.buddy sn _ hsn hF hF'
    · rw [hl] at hF'
      rw [hr] at hF
      exact hinv.buddy sn _ hsn hF' hF
  · intro hlive junk
    have hts : (BitVec.ofNat 64 w.bb.totsize).toNat = w.bb.totsize := by
      have hlt := h.totsize
      rw [BitVec.toNat_ofNat, Nat.mod_eq_of_lt (by omega)]
    have hnonneg : 0 ≤ (BitVec.ofNat 64 w.bb.totsize).toInt := by
      have hlt := h.totsize
      rw [BitVec.toInt_eq_toNat_cond, hts, if_pos (by omega)]
      omega
    obtain ⟨bb, F', hnew, hinv', hlo, hhi, -, -, htot⟩ :=
      Bbuddy.new_spec h.levels.1 h.levels.2 hnonneg junk
    refine ⟨bb, hnew, ?_⟩
    have hempty : {b | ∃ e ∈ w.live, w.block e = b} = ∅ := by
      ext b
      simp [hlive]
    rw [hempty] at hinv
    rw [hts, Nat.div_mul_cancel hinv.dvd] at htot
    have hF : F' = F := by
      funext k
      rw [free_of_empty hinv h.levels.1, free_of_empty hinv' (by rw [hlo, hhi]; exact h.levels.1),
        hhi, htot]
    rw [hF, htot] at hinv'
    exact hinv.maps.ext hinv'.maps hlo.symm hhi.symm

theorem Ok.of_new {a b : ℕ} (hab : a ≤ b) (hb : b ≤ 30) {ts : BitVec 64} (hts : 0 ≤ ts.toInt)
    (junk : ℕ → ℕ → BitVec 64) :
    ∃ bb, Bbuddy.new ts (BitVec.ofNat 64 (2 ^ a)) (BitVec.ofNat 64 (2 ^ b)) junk = some bb ∧
      Ok ⟨bb, []⟩ ∧ bb.log2minalloc = a ∧ bb.totsize = ts.toNat / 2 ^ b * 2 ^ b := by
  obtain ⟨bb, F, hnew, hinv, hlo, hhi, hspace, hT, hround⟩ := Bbuddy.new_spec hab hb hts junk
  refine ⟨bb, hnew, ⟨⟨F, ?_⟩, List.nodup_nil, ?_, ?_, ?_, ?_, hT⟩, hlo, hround⟩
  · simpa using hinv
  · simp
  · simp
  · simpa using hspace
  · exact ⟨by rw [hlo, hhi]; exact hab, by rw [hhi]; exact hb⟩

theorem Ok.meets (h : w.Ok)
    (hinv : w.bb.Inv w.bb.totsize w.bb.totsize F {b | ∃ e ∈ w.live, w.block e = b})
    {k p : ℕ} (hlo : w.bb.log2minalloc ≤ k) (hhi : k ≤ w.bb.log2maxalloc)
    (hempty : ∀ j, k ≤ j → F j = ∅) (hfits : (p + 1) * 2 ^ k ≤ w.bb.totsize) :
    ∃ e ∈ w.live, e.1 < (p + 1) * 2 ^ k ∧ p * 2 ^ k < e.1 + w.size e := by
  by_contra hnone
  have hfree : ∀ x, x / 2 ^ k = p → ∃ j, blockOf x j ∈ freeSet F := by
    intro x hx
    obtain ⟨hge, hlt⟩ := div_eq_iff_mem.mp hx
    obtain ⟨j, hj⟩ := hinv.tiles.cover x (Nat.lt_of_lt_of_le hlt hfits)
    rcases hj with hj | ⟨e, he, hblock⟩
    · exact ⟨j, hj⟩
    · have hlevel : w.roundLog e.2 = j := congrArg Prod.fst hblock
      have hspan := (h.mem_block he x).mp (by rw [hlevel]; exact hblock.symm)
      exact absurd ⟨e, he, by omega, by omega⟩ hnone
  obtain ⟨j, hj, hmem⟩ :=
    exists_free_block (fun b hb => (hinv.maps.level b hb).1) hinv.buddy hlo hhi hfree
  rw [blockOf, mem_freeSet, hempty j hj] at hmem
  exact Finset.notMem_empty _ hmem

theorem Ok.withMaps (h : w.Ok) {fms : List Bbfree}
    (hinv : ({ w.bb with freemaps := fms } : Bbuddy).Inv w.bb.totsize w.bb.totsize F
      {b | ∃ e ∈ w.live, w.block e = b}) : Ok ⟨{ w.bb with freemaps := fms }, w.live⟩ :=
  { h with inv := ⟨F, hinv⟩ }

theorem Ok.alloc (h : w.Ok) {n : BitVec 64} (hworks : w.Works (.alloc n)) :
    w.OpOk (.alloc n) ∧ ∀ w', w.step (.alloc n) = some w' → w'.Ok := by
  obtain ⟨F, hinv⟩ := h.inv
  have hzero : w.bb.sizeLog n = 0 → F 0 ≠ ∅ ∨ ∀ j, F j = ∅ := by
    intro hlog
    have hn : n ≠ 0 := by
      rintro rfl
      have hmax : uint (log2c64 0) = 2 ^ 32 - 1 := by decide
      simp only [Bbuddy.sizeLog, hmax] at hlog
      split at hlog <;> omega
    rw [sizeLog_eq_roundLog hn] at hlog
    rcases hworks.2 hlog with hfull | ⟨pos, hfree⟩
    · refine Or.inr fun j => Finset.eq_empty_iff_forall_notMem.mpr fun q hq => ?_
      exact hfull j q (isFree_of_mem hinv hq)
    · exact Or.inl (Finset.ne_empty_of_mem (mem_of_isFree hinv hfree))
  obtain ⟨fms, F', hcase⟩ := Bbuddy.alloc_spec hinv h.levels.2 n hzero
  rcases hcase with ⟨halloc, hinv', hempty⟩ | ⟨pos, halloc, hinv', hnot, -⟩
  · refine ⟨⟨_, _, halloc, fun _ k p hk hkhi hfits => ?_⟩, fun w' hstep => ?_⟩
    · have hlo : w.bb.log2minalloc ≤ k := Nat.le_trans (Nat.le_max_left ..) hk
      refine h.meets hinv hlo hkhi (fun j hj => ?_) hfits
      by_cases hn : n = 0
      · exact Finset.eq_empty_iff_forall_notMem.mpr fun q hq =>
          hworks.1 hn j q (isFree_of_mem hinv hq)
      · exact hempty j (by rw [sizeLog_eq_roundLog hn]; omega)
    · simp only [step, halloc, Option.bind_eq_bind, Option.bind_some] at hstep
      cases hstep
      exact h.withMaps hinv'
  · have hn : n ≠ 0 := by
      rintro rfl
      have hmax : uint (log2c64 0) = 2 ^ 32 - 1 := by decide
      have hle := (hinv'.level _ (Set.mem_insert ..)).2
      have hhi := h.levels.2
      simp only [Bbuddy.sizeLog, hmax] at hle
      split at hle <;> omega
    rw [sizeLog_eq_roundLog hn] at halloc hinv' hnot
    have hr : ¬ ((pos * 2 ^ w.roundLog n : ℕ) : Int) < 0 := by omega
    refine ⟨⟨_, _, halloc, fun hneg => absurd hneg hr⟩, fun w' hstep => ?_⟩
    simp only [step, halloc, Option.bind_eq_bind, Option.bind_some, if_neg hr,
      Int.toNat_natCast] at hstep
    cases hstep
    have hblock : w.block (pos * 2 ^ w.roundLog n, n) = (w.roundLog n, pos) := by
      simp only [block, size, Nat.mul_div_cancel _ (Nat.two_pow_pos _)]
    refine ⟨⟨F', ?_⟩, ?_, ?_, ?_, ?_, h.levels, h.totsize⟩
    · have hlive : {b | ∃ e ∈ (pos * 2 ^ w.roundLog n, n) :: w.live, w.block e = b} =
          insert (w.roundLog n, pos) {b | ∃ e ∈ w.live, w.block e = b} := by
        ext b
        simp only [List.mem_cons, exists_eq_or_imp, hblock, Set.mem_ofPred_eq, Set.mem_insert_iff,
          eq_comm (a := b)]
      rw [← hlive] at hinv'
      exact hinv'.withCounts w.bb.totsize _
    · refine List.nodup_cons.mpr ⟨fun hmem => hnot ?_, h.nodup⟩
      obtain ⟨e, he, heq⟩ := List.mem_map.mp hmem
      exact ⟨e, he, heq.trans hblock⟩
    · rintro e (_ | ⟨_, he⟩)
      · exact Nat.dvd_mul_left ..
      · exact h.aligned e he
    · rintro e (_ | ⟨_, he⟩)
      · exact hn
      · exact h.nonzero e he
    · have hspace := h.space
      have hsum : (((pos * 2 ^ w.roundLog n, n) :: w.live).map w.size).sum =
          2 ^ w.roundLog n + (w.live.map w.size).sum := by
        rw [List.map_cons, List.sum_cons]
        rfl
      show w.bb.spaceleft - (2 ^ w.roundLog n : ℕ) = w.bb.totsize -
        ((((pos * 2 ^ w.roundLog n, n) :: w.live).map w.size).sum : ℕ)
      rw [hsum, hspace]
      omega

theorem Ok.dealloc (h : w.Ok) {off : ℕ} {len : BitVec 64} (hlegal : (off, len) ∈ w.live) :
    ∃ w', w.step (.dealloc off len) = some w' ∧ w'.Ok ∧ w'.SameSpace w ∧
      w'.live = w.live.erase (off, len) := by
  obtain ⟨F, hinv⟩ := h.inv
  have hperm := List.perm_cons_erase hlegal
  have hlog := sizeLog_eq_roundLog (w := w) (h.nonzero _ hlegal)
  let p := off / 2 ^ w.roundLog len
  have hoff : p * 2 ^ w.roundLog len = off := Nat.div_mul_cancel (h.aligned _ hlegal)
  have hnodup := (hperm.map w.block).nodup_iff.mp h.nodup
  rw [List.map_cons, List.nodup_cons] at hnodup
  have hlive : {b | ∃ e ∈ w.live, w.block e = b} =
      insert (w.roundLog len, p) {b | ∃ e ∈ w.live.erase (off, len), w.block e = b} := by
    ext b
    simp only [Set.mem_ofPred_eq, hperm.mem_iff, List.mem_cons, exists_eq_or_imp,
      Set.mem_insert_iff, eq_comm (a := b)]
    rfl
  rw [hlive, ← hlog] at hinv
  have hnot : (w.bb.sizeLog len, p) ∉ {b | ∃ e ∈ w.live.erase (off, len), w.block e = b} := by
    rintro ⟨e, he, heq⟩
    rw [hlog] at heq
    exact hnodup.1 (List.mem_map.mpr ⟨e, he, heq⟩)
  obtain ⟨fms, F', hdealloc, hinv'⟩ := Bbuddy.dealloc_spec len hinv hnot h.levels.2
  rw [hlog, hoff] at hdealloc
  refine ⟨⟨{ w.bb with freemaps := fms, spaceleft := w.bb.spaceleft + (2 ^ w.roundLog len : ℕ) },
    w.live.erase (off, len)⟩, ?_, ⟨⟨F', hinv'.withCounts w.bb.totsize _⟩, hnodup.2,
    ?_, ?_, ?_, h.levels, h.totsize⟩, ⟨rfl, rfl, rfl⟩, rfl⟩
  · simp only [step, hdealloc, Option.bind_eq_bind, Option.bind_some]
    rfl
  · exact fun e he => h.aligned e (List.mem_of_mem_erase he)
  · exact fun e he => h.nonzero e (List.mem_of_mem_erase he)
  · have hspace := h.space
    have hsum : (w.live.map w.size).sum =
        2 ^ w.roundLog len + ((w.live.erase (off, len)).map w.size).sum := by
      rw [(hperm.map w.size).sum_eq, List.map_cons, List.sum_cons]
      rfl
    show w.bb.spaceleft + (2 ^ w.roundLog len : ℕ) = w.bb.totsize -
      (((w.live.erase (off, len)).map w.size).sum : ℕ)
    rw [hspace, hsum]
    omega

theorem Ok.settotsize (h : w.Ok) {ts : BitVec 64} (hlegal : (w.bb.totsize : Int) ≤ ts.toInt)
    (junk : ℕ → ℕ → BitVec 64) : ∃ w', w.step (.settotsize ts junk) = some w' ∧ w'.Ok ∧
      w'.bb.log2minalloc = w.bb.log2minalloc ∧ w'.bb.log2maxalloc = w.bb.log2maxalloc ∧
      w'.live = w.live ∧ w'.bb.totsize = ts.toNat / 2 ^ w.bb.log2maxalloc * 2 ^ w.bb.log2maxalloc := by
  obtain ⟨F, hinv⟩ := h.inv
  obtain ⟨fms, F', T, hset, hinv', hle, hT, hTeq⟩ :=
    Bbuddy.settotsize_spec hinv h.levels.2 h.levels.1 hlegal junk
  refine ⟨⟨{ w.bb with
    freemaps := fms, totsize := T, spaceleft := w.bb.spaceleft + (T - w.bb.totsize : ℕ) }, w.live⟩,
    ?_, ⟨⟨F', hinv'.withCounts T _⟩, h.nodup, h.aligned, h.nonzero, ?_, h.levels, hT⟩,
    rfl, rfl, rfl, hTeq⟩
  · simp only [step, hset, Option.bind_eq_bind, Option.bind_some]
    rfl
  · have hspace := h.space
    show w.bb.spaceleft + (T - w.bb.totsize : ℕ) = T - ((w.live.map w.size).sum : ℕ)
    omega

theorem Ok.step (h : w.Ok) {op : BbuddyOp} (hlegal : w.Legal op) (hworks : w.Works op) :
    w.OpOk op ∧ ∀ w', w.step op = some w' → w'.Ok := by
  cases op with
  | alloc n => exact h.alloc hworks
  | dealloc off len =>
    obtain ⟨w', hstep, hok, -⟩ := h.dealloc hlegal
    refine ⟨⟨w', hstep⟩, fun w'' hstep' => ?_⟩
    rwa [← Option.some.inj (hstep.symm.trans hstep')]
  | settotsize ts junk =>
    obtain ⟨w', hstep, hok, -⟩ := h.settotsize hlegal junk
    refine ⟨⟨w', hstep⟩, fun w'' hstep' => ?_⟩
    rwa [← Option.some.inj (hstep.symm.trans hstep')]

end BbuddyWorld

/-- Where the block sizes are powers of two up to `2 ^ 30` and no operation reaches a defect, every
run keeps the blocks aligned, inside the space and apart, the count of free bytes right and buddies
joined, and every operation does what it should. -/
theorem bbuddy_run_sound (a b : ℕ) (hab : a ≤ b) (hb : b ≤ 30) (ts : BitVec 64)
    (hts : 0 ≤ ts.toInt) (junk : ℕ → ℕ → BitVec 64) :
    ∃ bb, Bbuddy.new ts (BitVec.ofNat 64 (2 ^ a)) (BitVec.ofNat 64 (2 ^ b)) junk = some bb ∧
      ∀ ops w, Run BbuddyWorld.step (fun w op => w.Legal op ∧ w.Works op) ⟨bb, []⟩ ops w →
        w.Sound ∧ ∀ op, w.Legal op → w.Works op → w.OpOk op := by
  obtain ⟨bb, hnew, hinit, -⟩ := BbuddyWorld.Ok.of_new hab hb hts junk
  refine ⟨bb, hnew, fun ops w hrun => ?_⟩
  have hok : w.Ok := hrun.invariant hinit
    fun _ _ _ hok hcond hstep => (hok.step hcond.1 hcond.2).2 _ hstep
  exact ⟨hok.sound, fun op hlegal hworks => (hok.step hlegal hworks).1⟩

/-- Blocks of 2 to 32 bytes in a space of 100, which is cut to 96. Two are allocated, and the first
is given back. -/
theorem bbuddy_run_sound_small :
    ∃ bb w, Bbuddy.new 100 (BitVec.ofNat 64 (2 ^ 1)) (BitVec.ofNat 64 (2 ^ 5)) (fun _ _ => 7) =
        some bb ∧
      Run BbuddyWorld.step (fun w op => w.Legal op ∧ w.Works op) ⟨bb, []⟩
        [.alloc 5, .alloc 32, .dealloc 64 5] w ∧
      w.live = [(32, 32)] ∧ w.Sound := by
  obtain ⟨bb, hnew, hsound⟩ :=
    bbuddy_run_sound 1 5 (by decide) (by decide) 100 (by decide) fun _ _ => 7
  have hsteps : ((Bbuddy.new 100 (BitVec.ofNat 64 (2 ^ 1)) (BitVec.ofNat 64 (2 ^ 5))
      fun _ _ => 7).bind fun bb => (BbuddyWorld.step ⟨bb, []⟩ (.alloc 5)).bind fun w =>
        (w.step (.alloc 32)).bind fun w' => (w'.step (.dealloc 64 5)).map fun w'' =>
          (w'.live, w''.live)) = some ([(32, 32), (64, 5)], [(32, 32)]) := by
    decide +kernel
  rw [hnew, Option.bind_some] at hsteps
  obtain ⟨w₁, h₁, hs⟩ := Option.bind_eq_some_iff.mp hsteps
  obtain ⟨w₂, h₂, hs⟩ := Option.bind_eq_some_iff.mp hs
  obtain ⟨w₃, h₃, hs⟩ := Option.map_eq_some_iff.mp hs
  obtain ⟨hlive, hleft⟩ := Prod.mk.inj hs
  have hworks : ∀ (w : BbuddyWorld) (n : BitVec 64), 1 < n.toNat → w.Works (.alloc n) := by
    intro w n hn
    have hlog : 0 < w.roundLog n := lt_max_of_lt_right (Nat.clog_pos (by decide) hn)
    exact ⟨fun hzero => by simp [hzero] at hn, fun hzero => absurd hzero hlog.ne'⟩
  have hlegal : w₂.Legal (.dealloc 64 5) := by
    rw [BbuddyWorld.Legal, hlive]
    decide
  have hrun : Run BbuddyWorld.step (fun w op => w.Legal op ∧ w.Works op) ⟨bb, []⟩
      [.alloc 5, .alloc 32, .dealloc 64 5] w₃ :=
    .cons ⟨trivial, hworks _ 5 (by decide)⟩ h₁ (.cons ⟨trivial, hworks _ 32 (by decide)⟩ h₂
      (.cons ⟨hlegal, trivial⟩ h₃ (.nil _)))
  exact ⟨bb, w₃, hnew, hrun, hleft, (hsound _ _ hrun).1⟩

/-- The defects. With a smallest block of one byte the first request for one byte aborts:
the loop that cuts the only free block down runs past level 0. A request for no bytes
fails although the whole space is free. -/
theorem bbuddy_alloc_fails :
    (∃ bb, Bbuddy.new 2 1 2 (fun _ _ => 0) = some bb ∧
      BbuddyWorld.Legal ⟨bb, []⟩ (.alloc 1) ∧ bb.alloc 1 = none ∧
      ¬ BbuddyWorld.OpOk ⟨bb, []⟩ (.alloc 1)) ∧
    ∃ bb, Bbuddy.new 2 2 2 (fun _ _ => 0) = some bb ∧
      BbuddyWorld.Legal ⟨bb, []⟩ (.alloc 0) ∧ bb.alloc 0 = some (bb, -1) ∧
      ¬ BbuddyWorld.OpOk ⟨bb, []⟩ (.alloc 0) := by
  constructor
  · have habort : Bbuddy.alloc ⟨2, 0, 1, [⟨[0], 2, 0, 0, 1⟩, ⟨[1], 1, 0, 1, 1⟩], 2⟩ 1 = none := by
      decide
    refine ⟨_, by decide, trivial, habort, ?_⟩
    rintro ⟨bb', r, halloc, -⟩
    cases habort.symm.trans halloc
  · have hfail : Bbuddy.alloc ⟨2, 1, 1, [⟨[1], 1, 0, 1, 1⟩], 2⟩ 0 =
        some (⟨2, 1, 1, [⟨[1], 1, 0, 1, 1⟩], 2⟩, -1) := by decide
    refine ⟨_, by decide, trivial, hfail, ?_⟩
    rintro ⟨bb', r, halloc, hmeets⟩
    cases hfail.symm.trans halloc
    obtain ⟨e, he, -⟩ := hmeets (by decide) 1 0 (by decide) (by decide) (by decide)
    cases he

end Sfslite.Async
