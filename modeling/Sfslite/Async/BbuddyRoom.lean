import Sfslite.Async.BbuddyRun

/-!
Which requests the buddy allocator can meet, also two in a row: it depends on the blocks that are
handed out only, not on the hints of the free maps.
-/

namespace Sfslite.Async

open Sfslite.Lib.Buddy

namespace Bbuddy

variable {bb bb' : Bbuddy} {nb nb' total : ℕ} {F F' : ℕ → Finset ℕ} {L : Set (ℕ × ℕ)}

def hands (bb : Bbuddy) (n : BitVec 64) : Bool :=
  match bb.alloc n with
  | some (_, r) => 0 ≤ r
  | none => false

def handsBoth (bb : Bbuddy) (n m : BitVec 64) : Bool :=
  match bb.alloc n with
  | some (bb', r) => 0 ≤ r && bb'.hands m
  | none => false

theorem Inv.joined (h : bb.Inv nb total F L) :
    Joined (freeSet F) L total bb.log2minalloc bb.log2maxalloc :=
  { h with level := h.maps.level }

theorem Inv.free_unique (h : bb.Inv nb total F L) (h' : bb'.Inv nb' total F' L)
    (hlo : bb.log2minalloc = bb'.log2minalloc) (hhi : bb.log2maxalloc = bb'.log2maxalloc) :
    F = F' := by
  have hset : freeSet F = freeSet F' := by
    refine h.joined.eq ?_
    rw [hlo, hhi]
    exact h'.joined
  funext k
  ext p
  rw [← mem_freeSet, hset, mem_freeSet]

theorem sizeLog_pos (hpos : 0 < bb.log2minalloc) (n : BitVec 64) : bb.sizeLog n ≠ 0 := by
  have hle := log2minalloc_le_sizeLog bb n
  omega

theorem hands_iff (h : bb.Inv nb total F L) (hpos : 0 < bb.log2minalloc)
    (hhi : bb.log2maxalloc ≤ 30) (n : BitVec 64) :
    bb.hands n = true ↔ ∃ i, bb.sizeLog n ≤ i ∧ F i ≠ ∅ := by
  obtain ⟨fms, F', hcase⟩ := alloc_spec h hhi n (fun hz => absurd hz (sizeLog_pos hpos n))
  rcases hcase with ⟨halloc, -, hempty⟩ | ⟨pos, halloc, -, -, j, q, htaken⟩
  · have hno : bb.hands n = false := by
      rw [hands, halloc]
      rfl
    rw [hno]
    refine ⟨fun hfalse => (by cases hfalse), ?_⟩
    rintro ⟨i, hi, hne⟩
    exact absurd (hempty i hi) hne
  · have hyes : bb.hands n = true := by
      rw [hands, halloc]
      exact decide_eq_true (Int.natCast_nonneg _)
    exact ⟨fun _ => ⟨j, htaken.le, Finset.ne_empty_of_mem htaken.mem⟩, fun _ => hyes⟩

/-- What is left from level `b` on after a request at level `a`. -/
def Left (F : ℕ → Finset ℕ) (a b : ℕ) : Prop :=
  ∃ j, a ≤ j ∧ F j ≠ ∅ ∧ (∀ i, a ≤ i → i < j → F i = ∅) ∧
    ((a < j ∧ b < j) ∨ (∃ i, b ≤ i ∧ i ≠ j ∧ F i ≠ ∅) ∨ (b ≤ j ∧ 1 < (F j).card))

theorem Taken.left_iff {a j q : ℕ} (h : Taken F F' a j q) (b : ℕ) :
    (∃ i, b ≤ i ∧ F' i ≠ ∅) ↔ Left F a b := by
  constructor
  · rintro ⟨i, hi, hne⟩
    refine ⟨j, h.le, Finset.ne_empty_of_mem h.mem, h.least, ?_⟩
    rcases Nat.lt_trichotomy i j with hlt | rfl | hgt
    · by_cases hai : a ≤ i
      · exact .inl ⟨by omega, by omega⟩
      · rw [h.others i (.inl (by omega))] at hne
        exact .inr (.inl ⟨i, hi, by omega, hne⟩)
    · rw [h.source] at hne
      refine .inr (.inr ⟨hi, ?_⟩)
      have hcard := Finset.card_pos.mpr (Finset.nonempty_iff_ne_empty.mpr hne)
      rw [Finset.card_erase_of_mem h.mem] at hcard
      omega
    · rw [h.others i (.inr hgt)] at hne
      exact .inr (.inl ⟨i, hi, by omega, hne⟩)
  · rintro ⟨j', haj, hne, hleast, hcase⟩
    obtain rfl : j = j' := by
      rcases Nat.lt_trichotomy j j' with hlt | heq | hgt
      · exact absurd (hleast j h.le hlt) (Finset.ne_empty_of_mem h.mem)
      · exact heq
      · exact absurd (h.least j' haj hgt) hne
    rcases hcase with ⟨haj, hbj⟩ | ⟨i, hi, hij, hne'⟩ | ⟨hbj, hcard⟩
    · exact ⟨j - 1, by omega, h.halves _ (by omega) (by omega)⟩
    · refine ⟨i, hi, ?_⟩
      rcases Nat.lt_or_ge i a with hia | hai
      · rwa [h.others i (.inl hia)]
      · rcases Nat.lt_trichotomy i j with hlt | heq | hgt
        · exact absurd (h.least i hai hlt) hne'
        · exact absurd heq hij
        · rwa [h.others i (.inr hgt)]
    · refine ⟨j, hbj, ?_⟩
      rw [h.source, ← Finset.nonempty_iff_ne_empty, ← Finset.card_pos,
        Finset.card_erase_of_mem h.mem]
      omega

theorem handsBoth_iff (h : bb.Inv nb total F L) (hpos : 0 < bb.log2minalloc)
    (hhi : bb.log2maxalloc ≤ 30) (n m : BitVec 64) :
    bb.handsBoth n m = true ↔ Left F (bb.sizeLog n) (bb.sizeLog m) := by
  obtain ⟨fms, F', hcase⟩ := alloc_spec h hhi n (fun hz => absurd hz (sizeLog_pos hpos n))
  rcases hcase with ⟨halloc, -, hempty⟩ | ⟨pos, halloc, hinv, -, j, q, htaken⟩
  · have hno : bb.handsBoth n m = false := by
      rw [handsBoth, halloc]
      rfl
    rw [hno]
    refine ⟨fun hfalse => (by cases hfalse), ?_⟩
    rintro ⟨j, haj, hne, -⟩
    exact absurd (hempty j haj) hne
  · have hsecond := hands_iff (hinv.withCounts bb.totsize
      (bb.spaceleft - (2 ^ bb.sizeLog n : ℕ))) hpos hhi m
    have hboth : bb.handsBoth n m = ({ bb with
        freemaps := fms, spaceleft := bb.spaceleft - (2 ^ bb.sizeLog n : ℕ) } : Bbuddy).hands m := by
      rw [handsBoth, halloc]
      have hr : decide (0 ≤ ((pos * 2 ^ bb.sizeLog n : ℕ) : Int)) = true :=
        decide_eq_true (Int.natCast_nonneg _)
      simp only [hr, Bool.true_and]
    rw [hboth]
    exact hsecond.trans (htaken.left_iff _)

end Bbuddy

namespace BbuddyWorld

variable {w w' : BbuddyWorld}

/-- Two allocators with the same blocks handed out. -/
structure Like (w w' : BbuddyWorld) : Prop extends SameSpace w w' where
  live : w.live = w'.live

variable {w'' : BbuddyWorld}

theorem SameSpace.trans (h : w.SameSpace w') (h' : w'.SameSpace w'') : w.SameSpace w'' :=
  ⟨h.log2minalloc.trans h'.log2minalloc, h.log2maxalloc.trans h'.log2maxalloc,
    h.totsize.trans h'.totsize⟩

namespace Like

theorem refl (w : BbuddyWorld) : w.Like w := ⟨⟨rfl, rfl, rfl⟩, rfl⟩

theorem trans (h : w.Like w') (h' : w'.Like w'') : w.Like w'' :=
  ⟨h.toSameSpace.trans h'.toSameSpace, h.live.trans h'.live⟩

theorem block (h : w.Like w') : w.block = w'.block := by
  funext e
  simp only [BbuddyWorld.block, size, roundLog, h.log2minalloc]

theorem sizeLog (h : w.Like w') (n : BitVec 64) : w.bb.sizeLog n = w'.bb.sizeLog n := by
  simp only [Bbuddy.sizeLog, h.log2minalloc]

theorem exists_free (h : w.Like w') (hok : w.Ok) (hok' : w'.Ok) : ∃ F L,
    w.bb.Inv w.bb.totsize w.bb.totsize F L ∧ w'.bb.Inv w.bb.totsize w.bb.totsize F L := by
  obtain ⟨F, hinv⟩ := hok.inv
  obtain ⟨F', hinv'⟩ := hok'.inv
  rw [← h.totsize, ← h.live, ← h.block] at hinv'
  obtain rfl := hinv.free_unique hinv' h.log2minalloc h.log2maxalloc
  exact ⟨F, _, hinv, hinv'⟩

theorem hands_eq (h : w.Like w') (hok : w.Ok) (hok' : w'.Ok) (hpos : 0 < w.bb.log2minalloc)
    (n : BitVec 64) : w.bb.hands n = w'.bb.hands n := by
  obtain ⟨F, L, hinv, hinv'⟩ := h.exists_free hok hok'
  rw [Bool.eq_iff_iff, Bbuddy.hands_iff hinv hpos hok.levels.2,
    Bbuddy.hands_iff hinv' (h.log2minalloc ▸ hpos) hok'.levels.2, h.sizeLog]

theorem handsBoth_eq (h : w.Like w') (hok : w.Ok) (hok' : w'.Ok) (hpos : 0 < w.bb.log2minalloc)
    (n m : BitVec 64) : w.bb.handsBoth n m = w'.bb.handsBoth n m := by
  obtain ⟨F, L, hinv, hinv'⟩ := h.exists_free hok hok'
  rw [Bool.eq_iff_iff, Bbuddy.handsBoth_iff hinv hpos hok.levels.2,
    Bbuddy.handsBoth_iff hinv' (h.log2minalloc ▸ hpos) hok'.levels.2, h.sizeLog, h.sizeLog]

end Like

/-- What may be asked for: at least one byte, and no more than the largest block. -/
def Askable (w : BbuddyWorld) (n : BitVec 64) : Prop :=
  n ≠ 0 ∧ n.toNat ≤ 2 ^ w.bb.log2maxalloc

theorem Askable.works {n : BitVec 64} (h : w.Askable n) (hpos : 0 < w.bb.log2minalloc) :
    w.Works (.alloc n) := by
  refine ⟨fun h0 => absurd h0 h.1, fun h0 => ?_⟩
  have hle : w.bb.log2minalloc ≤ w.roundLog n := Nat.le_max_left ..
  omega

theorem Ok.hands_of_empty (hok : w.Ok) (hpos : 0 < w.bb.log2minalloc) (hlive : w.live = [])
    (hspace : 0 < w.bb.totsize) {n : BitVec 64} (hn : w.Askable n) : w.bb.hands n = true := by
  obtain ⟨⟨bb, r, halloc, hmeets⟩, -⟩ := hok.alloc (hn.works hpos)
  rw [Bbuddy.hands, halloc]
  refine decide_eq_true (le_of_not_gt fun hneg => ?_)
  obtain ⟨F, hinv⟩ := hok.inv
  have hround : w.roundLog n ≤ w.bb.log2maxalloc :=
    Nat.max_le.mpr ⟨hok.levels.1, (Nat.clog_le_iff_le_pow (by decide)).mpr hn.2⟩
  have hfits : (0 + 1) * 2 ^ w.bb.log2maxalloc ≤ w.bb.totsize := by
    rw [Nat.zero_add, Nat.one_mul]
    exact Nat.le_of_dvd hspace hinv.dvd
  obtain ⟨e, he, -⟩ := hmeets hneg _ 0 hround le_rfl hfits
  rw [hlive] at he
  cases he

theorem Ok.alloc_cases (hok : w.Ok) (hpos : 0 < w.bb.log2minalloc) {n : BitVec 64}
    (hn : w.Askable n) :
    (∃ bb, w.bb.alloc n = some (bb, -1) ∧ w.bb.hands n = false ∧
      Like ⟨bb, w.live⟩ w ∧ Ok ⟨bb, w.live⟩) ∨
    ∃ (bb : Bbuddy) (pos : ℕ), w.bb.alloc n = some (bb, (pos : Int)) ∧ w.bb.hands n = true ∧
      (∀ m, w.bb.handsBoth n m = bb.hands m) ∧ SameSpace ⟨bb, (pos, n) :: w.live⟩ w ∧
      Ok ⟨bb, (pos, n) :: w.live⟩ := by
  obtain ⟨F, hinv⟩ := hok.inv
  have hkeep := (hok.alloc (hn.works hpos)).2
  obtain ⟨fms, F', hcase⟩ := Bbuddy.alloc_spec hinv hok.levels.2 n
    (fun hz => absurd hz (Bbuddy.sizeLog_pos hpos n))
  rcases hcase with ⟨halloc, -⟩ | ⟨pos, halloc, -⟩
  · refine .inl ⟨_, halloc, ?_, ⟨⟨rfl, rfl, rfl⟩, rfl⟩, hkeep _ ?_⟩
    · rw [Bbuddy.hands, halloc]
      rfl
    · rw [BbuddyWorld.step, halloc]
      rfl
  · have hr : decide (0 ≤ ((pos * 2 ^ w.bb.sizeLog n : ℕ) : Int)) = true :=
      decide_eq_true (Int.natCast_nonneg _)
    refine .inr ⟨_, _, halloc, ?_, fun m => ?_, ⟨rfl, rfl, rfl⟩, hkeep _ ?_⟩
    · rw [Bbuddy.hands, halloc]
      exact hr
    · rw [Bbuddy.handsBoth, halloc]
      simp only [hr, Bool.true_and]
    · simp only [BbuddyWorld.step, halloc, Option.bind_eq_bind, Option.bind_some,
        if_neg (show ¬ ((pos * 2 ^ w.bb.sizeLog n : ℕ) : Int) < 0 by omega), Int.toNat_natCast]
      rfl

theorem Like.of_dealloc {b : ℕ × BitVec 64} (hlive : w.live = b :: w'.live)
    (hspace : w.SameSpace w') (hspace' : w''.SameSpace w)
    (hlive' : w''.live = w.live.erase b) : w''.Like w' := by
  refine ⟨hspace'.trans hspace, ?_⟩
  rw [hlive', hlive, List.erase_cons_head]

end BbuddyWorld

end Sfslite.Async
