import Sfslite.Async.Bbuddy

/-!
What `alloc`, `dealloc` and `settotsize` do to the blocks handed out. Each keeps
the invariant; only the free maps, the total size and the count of free bytes change.
-/

namespace Sfslite.Async

open Sfslite.Lib.Buddy

namespace Bbuddy

variable {bb : Bbuddy} {nb total k p : ℕ} {F : ℕ → Finset ℕ} {L : Set (ℕ × ℕ)}

theorem log2minalloc_le_sizeLog (bb : Bbuddy) (n : BitVec 64) : bb.log2minalloc ≤ bb.sizeLog n := by
  simp only [sizeLog]
  split <;> omega

theorem Inv.withCounts (h : bb.Inv nb total F L) (ts : ℕ) (space : Int) :
    ({ bb with totsize := ts, spaceleft := space } : Bbuddy).Inv nb total F L :=
  { h with maps := { h.maps with } }

theorem allocSplit_spec {sn sni : ℕ} (h : bb.Inv nb total F (insert (sni, p) L))
    (hp : (sni, p) ∉ L) (hlo : bb.log2minalloc ≤ sn) (hsn : 0 < sn) (hle : sn ≤ sni) :
    ∃ fms F' pos, allocSplit sn sni p bb = some ({ bb with freemaps := fms }, pos) ∧
      ({ bb with freemaps := fms } : Bbuddy).Inv nb total F' (insert (sn, pos) L) ∧
      (sn, pos) ∉ L ∧ (∀ i, sn ≤ i → i < sni → F' i ≠ ∅) ∧
      ∀ i, i < sn ∨ sni ≤ i → F' i = F i := by
  induction sni generalizing p bb F with
  | zero => omega
  | succ sni ih =>
    by_cases hcut : sn ≤ sni
    · obtain ⟨bf, bf', hfm, hset, hinv, hnot⟩ := h.cut hp (Nat.le_trans hlo hcut)
      obtain ⟨fms, F'', pos, hloop, hinv', hnot', hhalves, hothers⟩ := ih hinv hnot hlo hcut
      refine ⟨fms, F'', pos, ?_, hinv', hnot', fun i hi hlt => ?_, fun i hi => ?_⟩
      · simp only [allocSplit, if_pos hcut, Nat.shiftLeft_eq, pow_one, Nat.mul_comm p 2, hfm,
          Option.bind_eq_bind, Option.bind_some, hset]
        exact hloop
      · rcases Nat.lt_succ_iff_lt_or_eq.mp hlt with hlt | rfl
        · exact hhalves i hi hlt
        · rw [hothers i (.inr le_rfl), Function.update_self]
          exact Finset.insert_ne_empty _ _
      · rw [hothers i (by omega), Function.update_of_ne (by omega)]
    · obtain rfl : sn = sni + 1 := by omega
      exact ⟨bb.freemaps, F, p, by simp [allocSplit], h, hp, fun i hi hlt => by omega,
        fun _ _ => rfl⟩

theorem allocUp_spec {k sni : ℕ} (h : bb.Inv nb total F L) (hlo : bb.log2minalloc ≤ sni)
    (hk : sni + k = bb.log2maxalloc) :
    ∃ fms r, allocUp k sni bb = some ({ bb with freemaps := fms }, r) ∧
      ({ bb with freemaps := fms } : Bbuddy).Inv nb total F L ∧
      ((r = none ∧ ∀ j, sni < j → F j = ∅) ∨ ∃ j pos, r = some (j, pos) ∧ sni < j ∧ pos ∈ F j ∧
        ∀ i, sni < i → i < j → F i = ∅) := by
  induction k generalizing sni bb with
  | zero =>
    refine ⟨bb.freemaps, none, rfl, h, Or.inl ⟨rfl, fun j hj => ?_⟩⟩
    rw [Finset.eq_empty_iff_forall_notMem]
    intro q hq
    have hlevel := (h.maps.level (j, q) hq).2
    simp only at hlevel
    omega
  | succ k ih =>
    obtain ⟨bf, bf', r, hfm, hfind, hinv, hr⟩ :=
      h.search (k := sni + 1) (by omega) (by omega)
    rcases hr with ⟨rfl, hempty⟩ | ⟨pos, rfl, hpos⟩
    · obtain ⟨fms, r, hloop, hinv', hr⟩ :=
        ih hinv (show bb.log2minalloc ≤ sni + 1 by omega)
          (show sni + 1 + k = bb.log2maxalloc by omega)
      refine ⟨fms, r, ?_, hinv', ?_⟩
      · simp only [allocUp, hfm, Option.bind_eq_bind, Option.bind_some, hfind]
        exact hloop
      · rcases hr with ⟨hnone, hall⟩ | ⟨j, pos, hsome, hj, hpos, hleast⟩
        · refine Or.inl ⟨hnone, fun j hj => ?_⟩
          rcases Nat.lt_or_eq_of_le (Nat.succ_le_of_lt hj) with hlt | heq
          · exact hall j hlt
          · exact heq ▸ hempty
        · refine Or.inr ⟨j, pos, hsome, by omega, hpos, fun i hi hij => ?_⟩
          rcases Nat.lt_or_eq_of_le (Nat.succ_le_of_lt hi) with hlt | heq
          · exact hleast i hlt hij
          · exact heq ▸ hempty
    · refine ⟨_, some (sni + 1, pos), ?_, hinv,
        Or.inr ⟨sni + 1, pos, rfl, Nat.lt_succ_self _, hpos, fun i hi hlt => by omega⟩⟩
      simp only [allocUp, hfm, Option.bind_eq_bind, Option.bind_some, hfind]
      rfl

/-- An allocation fails only where no map from the level of the request on has a bit;
otherwise it hands out one block of that level. Level 0 must not have to be cut from a
larger block. -/
theorem alloc_spec (h : bb.Inv nb total F L) (hhi : bb.log2maxalloc ≤ 30) (n : BitVec 64)
    (hzero : bb.sizeLog n = 0 → F 0 ≠ ∅ ∨ ∀ j, F j = ∅) :
    ∃ fms F', (bb.alloc n = some ({ bb with freemaps := fms }, -1) ∧
        ({ bb with freemaps := fms } : Bbuddy).Inv nb total F' L ∧
        ∀ j, bb.sizeLog n ≤ j → F j = ∅) ∨
      ∃ pos, bb.alloc n = some ({ bb with
          freemaps := fms, spaceleft := bb.spaceleft - (2 ^ bb.sizeLog n : ℕ) },
            ((pos * 2 ^ bb.sizeLog n : ℕ) : Int)) ∧
        ({ bb with freemaps := fms } : Bbuddy).Inv nb total F' (insert (bb.sizeLog n, pos) L) ∧
        (bb.sizeLog n, pos) ∉ L ∧ ∃ j q, Taken F F' (bb.sizeLog n) j q := by
  have hlo := log2minalloc_le_sizeLog bb n
  by_cases hbig : bb.log2maxalloc < bb.sizeLog n
  · refine ⟨bb.freemaps, F, Or.inl ⟨?_, h, fun j hj => ?_⟩⟩
    · simp only [alloc, if_pos hbig]
      rfl
    · rw [Finset.eq_empty_iff_forall_notMem]
      intro q hq
      have hlevel := (h.maps.level (j, q) hq).2
      simp only at hlevel
      omega
  · have hle : bb.sizeLog n ≤ 30 := by omega
    obtain ⟨bf, bf₁, r, hfm, hfind, hinv₁, hr⟩ := h.search hlo (Nat.le_of_not_lt hbig)
    rcases hr with ⟨rfl, hempty⟩ | ⟨pos, rfl, hpos⟩
    · obtain ⟨fms, r, hup, hinv₂, hr⟩ := allocUp_spec
        (k := (bb.setFm (bb.sizeLog n) bf₁).log2maxalloc - bb.sizeLog n) hinv₁ hlo
        (Nat.add_sub_cancel' (Nat.le_of_not_lt hbig))
      rcases hr with ⟨rfl, hall⟩ | ⟨j, pos, rfl, hj, hpos, hleast⟩
      · refine ⟨fms, F, Or.inl ⟨?_, hinv₂, fun j hj => ?_⟩⟩
        · simp only [alloc, if_neg hbig, hfm, hfind, Option.bind_eq_bind, Option.bind_some, hup]
          rfl
        · rcases Nat.lt_or_eq_of_le hj with hlt | rfl
          · exact hall j hlt
          · exact hempty
      · -- a larger block is cut
        have hpos0 : 0 < bb.sizeLog n := by
          rcases Nat.eq_zero_or_pos (bb.sizeLog n) with h0 | h0
          · rcases hzero h0 with hne | hno
            · exact absurd (h0 ▸ hempty) hne
            · simp [hno j] at hpos
          · exact h0
        obtain ⟨bf₂, bf₃, hfm₂, hclr, hinv₃, hnot⟩ := hinv₂.take hpos
        obtain ⟨fms', F'', pos', hsplit, hinv₄, hnot', hhalves, hothers⟩ :=
          allocSplit_spec hinv₃ hnot hlo hpos0 (Nat.le_of_lt hj)
        have htaken : Taken F F'' (bb.sizeLog n) j pos := by
          refine ⟨Nat.le_of_lt hj, hpos, fun i hi hij => ?_, ?_, hhalves, fun i hi => ?_⟩
          · rcases Nat.lt_or_eq_of_le hi with hlt | rfl
            · exact hleast i hlt hij
            · exact hempty
          · rw [hothers j (.inr le_rfl), Function.update_self]
          · rw [hothers i (by omega), Function.update_of_ne (by omega)]
        refine ⟨fms', F'', Or.inr ⟨pos', ?_, hinv₄, hnot', j, pos, htaken⟩⟩
        simp only [alloc, if_neg hbig, hfm, hfind, Option.bind_eq_bind, Option.bind_some,
          hup, hfm₂, hclr, hsplit, intShl_eq hle, Nat.shiftLeft_eq]
        rfl
    · obtain ⟨bf₂, bf₃, hfm₂, hclr, hinv₂, hnot⟩ := hinv₁.take hpos
      have htaken : Taken F (Function.update F (bb.sizeLog n) ((F (bb.sizeLog n)).erase pos))
          (bb.sizeLog n) (bb.sizeLog n) pos :=
        ⟨le_rfl, hpos, fun i hi hlt => by omega, Function.update_self .., fun i hi hlt => by omega,
          fun i hi => Function.update_of_ne (by omega) ..⟩
      refine ⟨_, _, Or.inr ⟨pos, ?_, hinv₂, hnot, _, pos, htaken⟩⟩
      simp only [alloc, if_neg hbig, hfm, hfind, hfm₂, hclr, intShl_eq hle, Option.bind_eq_bind,
        Option.bind_some, Nat.shiftLeft_eq]
      rfl

theorem Inv.buddy_lt (h : bb.Inv nb total F (insert (k, p) L)) (hk : k < bb.log2maxalloc) :
    p ^^^ 1 < nb / 2 ^ k := by
  have hdvd : 2 ^ (k + 1) ∣ total := (Nat.pow_dvd_pow 2 hk).trans h.dvd
  have hlt := h.tiles.lt_of_mem (Or.inr (Set.mem_insert ..))
    ((Nat.pow_dvd_pow 2 (Nat.le_of_lt hk)).trans h.dvd)
  have heven : total / 2 ^ k = 2 * (total / 2 ^ (k + 1)) := by
    obtain ⟨m, rfl⟩ := hdvd
    rw [Nat.mul_div_cancel_left _ (Nat.two_pow_pos _), pow_succ, Nat.mul_assoc,
      Nat.mul_div_cancel_left _ (Nat.two_pow_pos _)]
  refine Nat.lt_of_lt_of_le ?_ (Nat.div_le_div_right h.le)
  have hx := xor_one p
  omega

theorem deallocLoop_spec {k sni : ℕ} (h : bb.Inv nb total F (insert (sni, p) L))
    (hp : (sni, p) ∉ L) (hk : sni + k = bb.log2maxalloc) :
    ∃ fms F', deallocLoop k sni p bb = some { bb with freemaps := fms } ∧
      ({ bb with freemaps := fms } : Bbuddy).Inv nb total F' L := by
  induction k generalizing sni p bb F with
  | zero =>
    obtain ⟨bf, bf', F', hfm, hset, hinv⟩ := h.release hp (fun hlt => by omega)
    refine ⟨_, F', ?_, hinv⟩
    simp only [deallocLoop, hfm, Option.bind_eq_bind, Option.bind_some, hset]
    rfl
  | succ k ih =>
    obtain ⟨hlo, hhi⟩ := h.level _ (Set.mem_insert (sni, p) L)
    obtain ⟨bf, hfm, hbf⟩ := h.maps.fm_some hlo hhi
    have hget := hbf.getbit (h.buddy_lt (by omega))
    by_cases hbuddy : p ^^^ 1 ∈ F sni
    · obtain ⟨bf₁, bf', F', hfm₁, hclr, hinv, hnot⟩ := h.join hp (by omega) hbuddy
      rw [hfm, Option.some.injEq] at hfm₁
      subst hfm₁
      obtain ⟨fms, F'', hloop, hinv'⟩ :=
        ih hinv hnot (show sni + 1 + k = bb.log2maxalloc by omega)
      refine ⟨fms, F'', ?_, hinv'⟩
      simp only [deallocLoop, hfm, Option.bind_eq_bind, Option.bind_some, hget, hclr,
        decide_eq_true hbuddy, if_true, Nat.shiftRight_eq_div_pow, pow_one]
      exact hloop
    · obtain ⟨bf₁, bf', F', hfm₁, hset, hinv⟩ := h.release hp (fun _ => hbuddy)
      rw [hfm, Option.some.injEq] at hfm₁
      subst hfm₁
      refine ⟨_, F', ?_, hinv⟩
      simp only [deallocLoop, hfm, Option.bind_eq_bind, Option.bind_some, hget, hset,
        decide_eq_false hbuddy]
      rfl

theorem dealloc_spec (len : BitVec 64) (h : bb.Inv nb total F (insert (bb.sizeLog len, p) L))
    (hp : (bb.sizeLog len, p) ∉ L) (hhi : bb.log2maxalloc ≤ 30) :
    ∃ fms F', bb.dealloc (p * 2 ^ bb.sizeLog len) len = some { bb with
          freemaps := fms, spaceleft := bb.spaceleft + (2 ^ bb.sizeLog len : ℕ) } ∧
      ({ bb with freemaps := fms } : Bbuddy).Inv nb total F' L := by
  have hle := (h.level _ (Set.mem_insert (bb.sizeLog len, p) L)).2
  obtain ⟨fms, F', hloop, hinv⟩ := deallocLoop_spec
    (h.withCounts bb.totsize (bb.spaceleft + (2 ^ bb.sizeLog len : ℕ))) hp
    (Nat.add_sub_cancel' hle)
  refine ⟨fms, F', ?_, hinv.withCounts bb.totsize bb.spaceleft⟩
  have hpos : (p * 2 ^ bb.sizeLog len) >>> bb.sizeLog len = p := by
    rw [Nat.shiftRight_eq_div_pow, Nat.mul_div_cancel _ (Nat.two_pow_pos _)]
  have hshl : intShl (bb.sizeLog len) = some (2 ^ bb.sizeLog len) :=
    intShl_eq (Nat.le_trans hle hhi)
  simp only [dealloc, if_neg (Nat.not_lt_of_le hle), hpos, Nat.shiftLeft_eq, ne_eq,
    not_true_eq_false, if_false, hshl, Option.bind_eq_bind, Option.bind_some]
  exact hloop

theorem initLevels_spec (junk : ℕ → ℕ → BitVec 64) {T k sn : ℕ}
    (h : bb.Maps (fun j => if j < sn then T / 2 ^ j else nb / 2 ^ j) F) (hT : nb ≤ T)
    (hlo : bb.log2minalloc ≤ sn) (hk : sn + k = bb.log2maxalloc + 1) :
    ∃ fms, initLevels junk k sn (T / 2 ^ sn) bb = some { bb with freemaps := fms } ∧
      ({ bb with freemaps := fms } : Bbuddy).Maps (fun j => T / 2 ^ j) F := by
  induction k generalizing sn bb with
  | zero =>
    refine ⟨bb.freemaps, rfl, h.length, h.level, fun j bf hfm => ?_⟩
    have hj : j ≤ bb.log2maxalloc := by
      by_contra hgt
      simp [fm, hgt] at hfm
    have hbf := h.holds j bf hfm
    rwa [if_pos (by omega)] at hbf
  | succ k ih =>
    obtain ⟨bf, hfm, hbf⟩ := h.fm_some hlo (by omega)
    rw [if_neg (Nat.lt_irrefl sn)] at hbf
    obtain ⟨bf', hinit, hbf'⟩ := hbf.init (Nat.div_le_div_right hT) (junk sn)
    have hmaps := h.setFm hlo (by omega) hbf'
    rw [Function.update_eq_self] at hmaps
    have hsz : Function.update (fun j => if j < sn then T / 2 ^ j else nb / 2 ^ j) sn
        (T / 2 ^ sn) = fun j => if j < sn + 1 then T / 2 ^ j else nb / 2 ^ j := by
      funext j
      by_cases hj : j = sn
      · subst hj
        simp
      · rw [Function.update_of_ne hj]
        by_cases hlt : j < sn
        · rw [if_pos hlt, if_pos (by omega)]
        · rw [if_neg hlt, if_neg (by omega)]
    rw [hsz] at hmaps
    obtain ⟨fms, hloop, hrest⟩ := ih hmaps (show bb.log2minalloc ≤ sn + 1 by omega)
      (show sn + 1 + k = bb.log2maxalloc + 1 by omega)
    refine ⟨fms, ?_, hrest⟩
    have hshift : (T / 2 ^ sn) >>> 1 = T / 2 ^ (sn + 1) := by
      rw [Nat.shiftRight_eq_div_pow, pow_one, div_pow_succ]
    simp only [initLevels, hfm, Option.bind_eq_bind, Option.bind_some, hinit, hshift]
    exact hloop

theorem sizeLog_two_pow {k : ℕ} (hk : k < 64) (hlo : bb.log2minalloc ≤ k) :
    bb.sizeLog (BitVec.ofNat 64 (2 ^ k)) = k := by
  have huint : uint (log2c64 (BitVec.ofNat 64 (2 ^ k))) = k := by
    rw [log2c64_two_pow hk, uint_natCast (by omega)]
  simp only [sizeLog, huint]
  split <;> omega

/-- The loop that would free small blocks at the old end stops at once: the old size is
a multiple of the largest block. -/
theorem alignLoop_eq {o : ℕ} (ho : o < 2 ^ 64) (hdvd : 2 ^ bb.log2maxalloc ∣ o)
    (hhi : bb.log2maxalloc ≤ 30) : alignLoop (k + 1) o bb = some (bb, o) := by
  have hbreak : bb.log2maxalloc ≤ uint ((ffs64 (BitVec.ofNat 64 o) : Int) - 1) := by
    by_cases h0 : o = 0
    · subst h0
      have hmax : uint ((ffs64 (BitVec.ofNat 64 0) : Int) - 1) = 2 ^ 32 - 1 := by decide
      omega
    · have hnat : (BitVec.ofNat 64 o).toNat = o := by
        rw [BitVec.toNat_ofNat, Nat.mod_eq_of_lt ho]
      have hv : BitVec.ofNat 64 o ≠ 0 := by
        intro h
        rw [h] at hnat
        simp only [BitVec.ofNat_eq_ofNat, BitVec.toNat_ofNat] at hnat
        omega
      obtain ⟨hpos, hle, hbit⟩ := getLsbD_ffs64 hv
      have huint : uint ((ffs64 (BitVec.ofNat 64 o) : Int) - 1) =
          ffs64 (BitVec.ofNat 64 o) - 1 := by
        rw [show (ffs64 (BitVec.ofNat 64 o) : Int) - 1 =
          ((ffs64 (BitVec.ofNat 64 o) - 1 : ℕ) : Int) by omega, uint_natCast (by omega)]
      rw [huint]
      by_contra hlt
      obtain ⟨m, hm⟩ := hdvd
      rw [← BitVec.testBit_toNat, hnat] at hbit
      generalize ffs64 (BitVec.ofNat 64 o) - 1 = q at hbit hlt
      rw [hm, Nat.mul_comm, Nat.testBit_mul_two_pow] at hbit
      simp only [Bool.and_eq_true, decide_eq_true_eq] at hbit
      exact hlt hbit.1
  simp only [alignLoop, if_pos hbreak]
  rfl

theorem growLoop_spec {m fuel : ℕ} (h : bb.Inv (total + m * 2 ^ bb.log2maxalloc) total F L)
    (hhi : bb.log2maxalloc ≤ 30) (hlohi : bb.log2minalloc ≤ bb.log2maxalloc) (hm : m < fuel) :
    ∃ fms F', growLoop (total + m * 2 ^ bb.log2maxalloc) (2 ^ bb.log2maxalloc) fuel total bb =
        some { bb with
          freemaps := fms, spaceleft := bb.spaceleft + (m * 2 ^ bb.log2maxalloc : ℕ) } ∧
      ({ bb with freemaps := fms } : Bbuddy).Inv (total + m * 2 ^ bb.log2maxalloc)
        (total + m * 2 ^ bb.log2maxalloc) F' L := by
  obtain ⟨fuel, rfl⟩ : ∃ n, fuel = n + 1 := ⟨fuel - 1, by omega⟩
  induction m generalizing total bb F fuel with
  | zero =>
    refine ⟨bb.freemaps, F, ?_, by simpa using h⟩
    simp [growLoop]
  | succ m ih =>
    have hpos := Nat.two_pow_pos bb.log2maxalloc
    obtain ⟨n, hn⟩ := h.dvd
    rw [Nat.mul_comm] at hn
    have hsum : total + (m + 1) * 2 ^ bb.log2maxalloc =
        total + 2 ^ bb.log2maxalloc + m * 2 ^ bb.log2maxalloc := by
      rw [Nat.succ_mul]
      omega
    have hgrow : bb.Inv (total + (m + 1) * 2 ^ bb.log2maxalloc) (total + 2 ^ bb.log2maxalloc) F
        (insert (bb.log2maxalloc, n) L) ∧ (bb.log2maxalloc, n) ∉ L := by
      have htiles := h.tiles
      rw [hn] at htiles
      obtain ⟨htiles', hnot⟩ := htiles.grow
      refine ⟨⟨h.maps, ?_, ?_, h.buddy, ?_, ?_, ?_⟩, fun hL => hnot (Or.inr hL)⟩
      · rw [Set.union_insert, hn, ← Nat.succ_mul]
        exact htiles'
      · rintro b hb (rfl | hbL)
        · exact hnot (Or.inl hb)
        · exact h.excl b hb hbL
      · rintro b (rfl | hb)
        · exact ⟨hlohi, Nat.le_refl _⟩
        · exact h.level b hb
      · exact (Nat.dvd_add_right h.dvd).mpr (Nat.dvd_refl _)
      · rw [hsum]
        exact Nat.le_add_right ..
    obtain ⟨hinv, hnot⟩ := hgrow
    have hlevel : bb.sizeLog (BitVec.ofNat 64 (2 ^ bb.log2maxalloc)) = bb.log2maxalloc :=
      sizeLog_two_pow (by omega) hlohi
    obtain ⟨fms, F', hdealloc, hinv'⟩ := dealloc_spec (p := n)
      (BitVec.ofNat 64 (2 ^ bb.log2maxalloc)) (by rw [hlevel]; exact hinv)
      (by rw [hlevel]; exact hnot) hhi
    rw [hlevel, ← hn] at hdealloc
    have hinv₂ := hinv'.withCounts bb.totsize (bb.spaceleft + (2 ^ bb.log2maxalloc : ℕ))
    rw [hsum] at hinv₂ ⊢
    obtain ⟨fms', F'', hloop, hinv₃⟩ := ih hinv₂ hhi hlohi (fuel - 1) (by omega)
    refine ⟨fms', F'', ?_, hinv₃.withCounts bb.totsize bb.spaceleft⟩
    have hlt : total < total + 2 ^ bb.log2maxalloc + m * 2 ^ bb.log2maxalloc := by omega
    rw [Nat.sub_add_cancel (by omega)] at hloop
    simp only [growLoop, if_pos hlt, hdealloc, Option.bind_eq_bind, Option.bind_some]
    refine hloop.trans ?_
    rw [Option.some.injEq, Bbuddy.mk.injEq]
    refine ⟨rfl, rfl, rfl, rfl, ?_⟩
    simp only [Nat.succ_mul]
    omega

theorem toNat_and_not {ts : BitVec 64} {k : ℕ} (hk : k ≤ 30) :
    (ts &&& ~~~(BitVec.ofNat 64 (2 ^ k) - 1)).toNat = ts.toNat / 2 ^ k * 2 ^ k := by
  have hpos := Nat.two_pow_pos k
  have hlt : 2 ^ k < 2 ^ 64 := Nat.pow_lt_pow_right (by decide) (by omega)
  have hones : (BitVec.ofNat 64 (2 ^ k) - 1).toNat = 2 ^ k - 1 := by
    simp only [BitVec.toNat_sub, BitVec.ofNat_eq_ofNat, BitVec.toNat_ofNat]
    omega
  apply Nat.eq_of_testBit_eq
  intro i
  rw [BitVec.testBit_toNat, BitVec.getLsbD_and, BitVec.getLsbD_not,
    ← BitVec.testBit_toNat (BitVec.ofNat 64 (2 ^ k) - 1), hones, Nat.testBit_two_pow_sub_one,
    Nat.testBit_mul_two_pow, Nat.testBit_div_two_pow]
  by_cases hik : k ≤ i
  · rw [Nat.sub_add_cancel hik, BitVec.testBit_toNat]
    by_cases hi : i < 64
    · simp [hik, hi]
    · have hout : ts.getLsbD i = false := BitVec.getLsbD_of_ge ts i (by omega)
      simp [hout]
  · have hi : i < k := by omega
    simp [hi]

theorem settotsize_spec (h : bb.Inv bb.totsize bb.totsize F L) (hhi : bb.log2maxalloc ≤ 30)
    (hlohi : bb.log2minalloc ≤ bb.log2maxalloc) {ts : BitVec 64}
    (hts : (bb.totsize : Int) ≤ ts.toInt) (junk : ℕ → ℕ → BitVec 64) :
    ∃ fms F' T, bb.settotsize ts junk = some { bb with
          freemaps := fms, totsize := T, spaceleft := bb.spaceleft + (T - bb.totsize : ℕ) } ∧
      ({ bb with freemaps := fms } : Bbuddy).Inv T T F' L ∧ bb.totsize ≤ T ∧ T < 2 ^ 63 ∧
      T = ts.toNat / 2 ^ bb.log2maxalloc * 2 ^ bb.log2maxalloc := by
  let T := ts.toNat / 2 ^ bb.log2maxalloc * 2 ^ bb.log2maxalloc
  have hTts : T ≤ ts.toNat := Nat.div_mul_le_self ..
  have hnat : ts.toInt = ts.toNat := by
    rw [BitVec.toInt_eq_toNat_cond] at hts ⊢
    split_ifs at hts ⊢ with hneg
    · rfl
    · omega
  have hlt : ts.toNat < 2 ^ 63 := by
    rw [BitVec.toInt_eq_toNat_cond] at hnat
    split_ifs at hnat <;> omega
  have hTint : (ts &&& ~~~(BitVec.ofNat 64 (2 ^ bb.log2maxalloc) - 1)).toInt = T := by
    rw [BitVec.toInt_eq_toNat_cond, toNat_and_not hhi, if_pos (by omega)]
  obtain ⟨n, hn⟩ := h.dvd
  have hpos := Nat.two_pow_pos bb.log2maxalloc
  have hnT : n ≤ ts.toNat / 2 ^ bb.log2maxalloc := by
    rw [Nat.le_div_iff_mul_le hpos, Nat.mul_comm, ← hn]
    omega
  have hle : bb.totsize ≤ T := by
    rw [hn, Nat.mul_comm]
    exact Nat.mul_le_mul_right _ hnT
  obtain ⟨m, hm⟩ := Nat.exists_eq_add_of_le hnT
  have hTm : T = bb.totsize + m * 2 ^ bb.log2maxalloc := by
    simp only [T]
    rw [hm, hn, Nat.add_mul, Nat.mul_comm n]
  have hmT : m < T + 1 := by
    have hmul : m ≤ m * 2 ^ bb.log2maxalloc := Nat.le_mul_of_pos_right _ hpos
    omega
  have hmaps : bb.Maps (fun j => if j < bb.log2minalloc then T / 2 ^ j
      else bb.totsize / 2 ^ j) F := by
    refine ⟨h.maps.length, h.maps.level, fun j bf hfm => ?_⟩
    have hj : bb.log2minalloc ≤ j := by
      by_contra hlt
      simp [fm, hlt] at hfm
    rw [if_neg (by omega)]
    exact h.maps.holds j bf hfm
  obtain ⟨fms, hinit, hmaps'⟩ := initLevels_spec junk hmaps hle (Nat.le_refl _)
    (show bb.log2minalloc + (bb.log2maxalloc + 1 - bb.log2minalloc) = bb.log2maxalloc + 1 by omega)
  have hinv : ({ bb with freemaps := fms } : Bbuddy).Inv T bb.totsize F L :=
    { h with maps := hmaps', le := hle }
  have hassert : ¬ (T : Int) < bb.totsize := by omega
  have hunfold : bb.settotsize ts junk = (do
      let bb' ←
        if bb.totsize < T then do
          let r ← alignLoop (T + 1) bb.totsize { bb with freemaps := fms }
          growLoop T (2 ^ bb.log2maxalloc) (T + 1) r.2 r.1
        else some { bb with freemaps := fms }
      return { bb' with totsize := T }) := by
    have hnatT : (ts &&& ~~~(BitVec.ofNat 64 (2 ^ bb.log2maxalloc) - 1)).toNat = T :=
      toNat_and_not hhi
    simp only [settotsize, intShl_eq hhi, Option.bind_eq_bind, Option.bind_some, hTint,
      if_neg hassert, hnatT, Nat.shiftRight_eq_div_pow, hinit]
  rw [hunfold]
  by_cases hgrow : bb.totsize < T
  · have halign := alignLoop_eq (k := T) (o := bb.totsize) (by omega) hinv.dvd hhi
    rw [hTm] at hinv
    obtain ⟨fms', F', hloop, hinv'⟩ := growLoop_spec hinv hhi hlohi hmT
    rw [← hTm] at hloop hinv'
    refine ⟨fms', F', T, ?_, hinv', hle, by omega, rfl⟩
    simp only [if_pos hgrow, halign, Option.bind_eq_bind, Option.bind_some, hloop]
    rw [show T - bb.totsize = m * 2 ^ bb.log2maxalloc by omega]
    rfl
  · have hT : T = bb.totsize := by omega
    refine ⟨fms, F, T, ?_, ?_, hle, by omega, rfl⟩
    · rw [if_neg hgrow, show T - bb.totsize = 0 by omega]
      simp only [Option.bind_eq_bind, Option.bind_some, Int.natCast_zero, Int.add_zero]
      rfl
    · rw [← hT] at hinv
      exact hinv.withCounts bb.totsize bb.spaceleft

theorem new_spec {a b : ℕ} (hab : a ≤ b) (hb : b ≤ 30) {ts : BitVec 64} (hts : 0 ≤ ts.toInt)
    (junk : ℕ → ℕ → BitVec 64) :
    ∃ bb F, Bbuddy.new ts (BitVec.ofNat 64 (2 ^ a)) (BitVec.ofNat 64 (2 ^ b)) junk = some bb ∧
      bb.Inv bb.totsize bb.totsize F ∅ ∧ bb.log2minalloc = a ∧ bb.log2maxalloc = b ∧
      bb.spaceleft = bb.totsize ∧ bb.totsize < 2 ^ 63 ∧
      bb.totsize = ts.toNat / 2 ^ b * 2 ^ b := by
  have hlo : uint (log2c64 (BitVec.ofNat 64 (2 ^ a))) = a := by
    rw [log2c64_two_pow (by omega), uint_natCast (by omega)]
  have hhi : uint (log2c64 (BitVec.ofNat 64 (2 ^ b))) = b := by
    rw [log2c64_two_pow (by omega), uint_natCast (by omega)]
  let bb₀ : Bbuddy := ⟨0, a, b, List.replicate (1 + b - a) Bbfree.new, 0⟩
  have hmaps : bb₀.Maps (fun k => 0 / 2 ^ k) (fun _ => ∅) := by
    refine ⟨by simp [bb₀], fun e he => ?_, fun k bf hfm => ?_⟩
    · exact absurd he (Finset.notMem_empty _)
    · rw [fm] at hfm
      split_ifs at hfm
      obtain rfl := List.eq_of_mem_replicate (List.mem_of_getElem? hfm)
      rw [Nat.zero_div]
      exact Bbfree.holds_new
  have hfree : freeSet (fun _ => ∅) = ∅ := by
    ext e
    exact ⟨fun he => absurd he (Finset.notMem_empty _), fun he => he.elim⟩
  have hinv : bb₀.Inv bb₀.totsize bb₀.totsize (fun _ => ∅) ∅ := by
    refine ⟨hmaps, ?_, ?_, ?_, fun e he => he.elim, Nat.dvd_zero _, Nat.le_refl _⟩
    · rw [hfree, Set.union_empty]
      exact tiles_empty
    · rw [hfree]
      exact fun e he => he.elim
    · rw [hfree]
      exact fun k q _ he => he.elim
  obtain ⟨fms, F, T, hset, hinv', -, hT, hround⟩ := settotsize_spec hinv hb hab hts junk
  refine ⟨_, F, ?_, hinv'.withCounts T (T : Int), rfl, rfl, rfl, hT, hround⟩
  simp only [new, hlo, hhi, if_neg (Nat.not_lt_of_le hab)]
  refine hset.trans ?_
  simp [bb₀]

end Bbuddy

end Sfslite.Async
