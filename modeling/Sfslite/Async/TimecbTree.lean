import Sfslite.Async.Timecb

/-!
The tree of the pending timers: what its operations do to the timers in order, and that the
memory of a timer that was deleted plays no part in it.
-/

namespace Sfslite.Async.Timecb

open Sfslite.Lib.RedBlack

theorem tscmp_nonpos_iff {a b : Timespec} :
    tscmp a b ≤ 0 ↔ a.tvSec < b.tvSec ∨ (a.tvSec = b.tvSec ∧ a.tvNsec ≤ b.tvNsec) := by
  unfold tscmp
  split_ifs <;> omega

theorem tscmp_neg_iff {a b : Timespec} :
    tscmp a b < 0 ↔ a.tvSec < b.tvSec ∨ (a.tvSec = b.tvSec ∧ a.tvNsec < b.tvNsec) := by
  unfold tscmp
  split_ifs <;> omega

theorem tscmp_pos_iff (a b : Timespec) : 0 < tscmp a b ↔ tscmp b a < 0 := by
  rw [tscmp_neg_iff]
  unfold tscmp
  split_ifs <;> omega

theorem tscmp_eq_zero_iff {a b : Timespec} : tscmp a b = 0 ↔ a = b := by
  obtain ⟨as, an⟩ := a
  obtain ⟨bs, bn⟩ := b
  simp only [tscmp, Timespec.mk.injEq]
  constructor
  · intro h
    split_ifs at h <;> omega
  · rintro ⟨rfl, rfl⟩
    simp

theorem tscmp_self (a : Timespec) : tscmp a a = 0 := tscmp_eq_zero_iff.mpr rfl

theorem tscmp_trans {a b c : Timespec} (h : tscmp a b ≤ 0) (h' : tscmp b c ≤ 0) :
    tscmp a c ≤ 0 := by
  rw [tscmp_nonpos_iff] at *
  omega

theorem tscmp_antisymm {a b : Timespec} (h : tscmp a b ≤ 0) (h' : tscmp b a ≤ 0) : a = b := by
  rw [← tscmp_eq_zero_iff]
  have := tscmp_pos_iff b a
  omega

theorem cmpOrder_cmp (s : Core) : CmpOrder s.cmp where
  swap a b h := by
    have := tscmp_pos_iff (s.timer b).ts (s.timer a).ts
    simp only [Core.cmp] at h ⊢
    omega
  trans _ _ _ h h' := tscmp_trans h h'

theorem fixupTimespec_norm (ts : Timespec) : (fixupTimespec ts).tvNsec < bil := by
  unfold fixupTimespec
  split
  · exact Nat.mod_lt _ (by decide)
  · omega

/-- The timers of the tree are `L` in order. They are the live ones beside the one whose
callback runs, and no timer of the tree has run or was removed. -/
structure Wf (s : Core) (L : List ℕ) : Prop where
  tree : ∃ t, Rep s.timecbs [] t ∧ RB t ∧ t.toList = L
  sorted : Sorted s.cmp L
  live : s.live.Perm (s.running ++ L)
  nodup : s.live.Nodup
  norm : ∀ a ∈ L, (s.timer a).ts.tvNsec < bil
  ids : ((s.ran ++ s.removed ++ L.map s.timer).map Timer.id).Nodup
  fresh : ∀ x ∈ s.ran ++ s.removed ++ L.map s.timer, x.id < s.nextId

section Wf

variable {s : Core} {L : List ℕ}

theorem Wf.length_lt (h : Wf s L) : L.length < s.fuel := by
  have hlen := h.live.length_eq
  rw [List.length_append] at hlen
  rw [Core.fuel]
  omega

theorem Wf.list_nodup (h : Wf s L) : L.Nodup :=
  (List.nodup_append.mp (h.live.nodup_iff.mp h.nodup)).2.1

variable {a tcb : ℕ}

theorem Wf.mem_live (h : Wf s L) (ha : a ∈ L) : a ∈ s.live :=
  h.live.mem_iff.mpr (List.mem_append_right _ ha)

theorem Wf.ne_zero (h : Wf s L) (ha : a ∈ L) : a ≠ 0 := by
  obtain ⟨t, hrep, -, rfl⟩ := h.tree
  exact hrep.2.1.ne_zero a ha

theorem Wf.mem_of_live (h : Wf s L) (ha : a ∈ s.live) (hr : a ∉ s.running) : a ∈ L :=
  (List.mem_append.mp (h.live.mem_iff.mp ha)).resolve_left hr

theorem Wf.first_eq (h : Wf s L) : s.first = some (L.headD 0) := by
  obtain ⟨t, hrep, -, rfl⟩ := h.tree
  exact Itree.itreeFirst_spec hrep h.length_lt

variable {pre post : List ℕ}

theorem Wf.next_eq (h : Wf s L) {x : ℕ} (hx : L = pre ++ x :: post) :
    s.next x = some (post.headD 0) := by
  have hlive : x ∈ s.live := h.mem_live (by simp [hx])
  have hlen := h.length_lt
  obtain ⟨t, hrep, -, rfl⟩ := h.tree
  rw [Core.next, if_pos hlive]
  exact Itree.itreeSuccessor_spec hrep hx hlen

theorem Wf.delete_eq (h : Wf s L) {z : ℕ} (hz : z ∈ L) :
    ∃ t' pre post, s.timecbs.itreeDelete s.fuel z = some t' ∧ L = pre ++ z :: post ∧
      ∃ t, Rep t' [] t ∧ RB t ∧ t.toList = pre ++ post := by
  have hlen := h.length_lt
  obtain ⟨t, hrep, hrb, rfl⟩ := h.tree
  obtain ⟨t', u, hdel, hrep', hrb', pre, post, hL, hu⟩ :=
    Itree.itreeDelete_spec hrep hrb hz hlen
  exact ⟨t', pre, post, hdel, hL, u, hrep', hrb', hu⟩

theorem rep_write {m : Itree} {t : RbTree ℕ} {e : ItreeEntry} (h : Rep m [] t)
    (ha : a ∉ t.toList) : Rep (m.write a e) [] t := by
  refine ⟨h.1, h.2.1.congr fun i hi => ?_, h.2.2⟩
  have hia : i ≠ a := fun heq => ha (heq ▸ hi)
  exact Function.update_of_ne hia _ _

theorem sorted_update {f : ℕ → Timer} {x : Timer} {l : List ℕ} (ha : a ∉ l)
    (h : Sorted (fun b c => tscmp (f b).ts (f c).ts) l) :
    Sorted (fun b c => tscmp (Function.update f a x b).ts (Function.update f a x c).ts) l := by
  refine h.imp_of_mem fun {b c} hb hc hle => ?_
  have hba : b ≠ a := fun heq => ha (heq ▸ hb)
  have hca : c ≠ a := fun heq => ha (heq ▸ hc)
  simpa only [Function.update_of_ne hba, Function.update_of_ne hca] using hle

theorem map_update {f : ℕ → Timer} {x : Timer} {l : List ℕ} (ha : a ∉ l) :
    l.map (Function.update f a x) = l.map f := by
  refine List.map_congr_left fun b hb => ?_
  have hba : b ≠ a := fun heq => ha (heq ▸ hb)
  exact Function.update_of_ne hba _ _

/-- The state with one more timer, in the tree `t`. -/
def Core.added (s : Core) (tcb : ℕ) (ts : Timespec) (t : Itree) : Core :=
  { s with
    timecbs := t
    timer := Function.update s.timer tcb ⟨s.nextId, fixupTimespec ts⟩
    live := tcb :: s.live
    nextId := s.nextId + 1 }

/-- The state after a timer was taken out of the tree, which is `t` now, and deleted. -/
def Core.dropped (s : Core) (tcb : ℕ) (t : Itree) (junk : Timer) (link : ItreeEntry) : Core :=
  { s with
    altered := true
    timecbs := t.write tcb link
    timer := Function.update s.timer tcb junk
    live := s.live.erase tcb
    removed := s.removed ++ [s.timer tcb] }

/-- The state in the callback of `tp`, which was taken out of the tree. -/
def Core.called (s : Core) (tp ntp : ℕ) (myTs : Timespec) (t : Itree) : Core :=
  { s with
    timecbs := t
    altered := false
    clock := s.clock.leaveSelLoop
    ran := s.ran ++ [s.timer tp]
    pc := .callback tp ntp myTs }

theorem Wf.timecb_eq (h : Wf s L) (hne : tcb ≠ 0) (hfree : tcb ∉ s.live) (ts : Timespec) :
    ∃ t before after, s.timecb tcb ts = some (s.added tcb ts t) ∧ L = before ++ after ∧
      Wf (s.added tcb ts t) (before ++ tcb :: after) := by
  have hL : tcb ∉ L := fun hmem => hfree (h.mem_live hmem)
  have hlen := h.length_lt
  obtain ⟨u, hrep, hrb, hu⟩ := h.tree
  let s₁ : Core :=
    { s with
      timer := Function.update s.timer tcb ⟨s.nextId, fixupTimespec ts⟩
      live := tcb :: s.live
      nextId := s.nextId + 1 }
  have hfuel : u.toList.length < s₁.fuel := by
    rw [hu]
    exact Nat.lt_succ_of_lt hlen
  obtain ⟨t, u', hins, hrep', hrb', ⟨before, after, hsplit, hu'⟩, hsorted⟩ :=
    Itree.itreeInsert_spec s₁.cmp hrep hrb hne (by rwa [hu]) hfuel
  rw [hu] at hsplit hsorted
  have hids : ((s.ran ++ s.removed ++ (before ++ tcb :: after).map s₁.timer).map Timer.id).Perm
      (s.nextId :: (s.ran ++ s.removed ++ L.map s.timer).map Timer.id) := by
    have htcb : s₁.timer tcb = ⟨s.nextId, fixupTimespec ts⟩ := Function.update_self ..
    have hmap : (before ++ after).map s₁.timer = L.map s.timer := by
      rw [← hsplit]
      exact map_update hL
    rw [← hmap]
    have hperm : (s.ran ++ s.removed ++ (before ++ tcb :: after).map s₁.timer).Perm
        (s₁.timer tcb :: (s.ran ++ s.removed ++ (before ++ after).map s₁.timer)) := by
      simp only [List.map_append, List.map_cons, ← List.append_assoc]
      exact List.perm_middle
    have hmapped := hperm.map Timer.id
    rwa [List.map_cons, htcb] at hmapped
  refine ⟨t, before, after, ?_, hsplit, ?_⟩
  · rw [Core.timecb]
    exact (Option.bind_eq_some_iff.mpr ⟨t, hins, rfl⟩)
  · refine ⟨⟨u', hrep', hrb', hu'⟩, ?_, ?_, ?_, ?_, ?_, ?_⟩
    · rw [← hu']
      exact hsorted (cmpOrder_cmp s₁) (sorted_update hL h.sorted)
    · have hperm := h.live.cons tcb
      rw [hsplit] at hperm
      refine hperm.trans (List.perm_middle.symm.trans ?_)
      exact (List.Perm.refl _).append (List.perm_middle.symm)
    · exact List.nodup_cons.mpr ⟨hfree, h.nodup⟩
    · intro a ha
      by_cases hat : a = tcb
      · subst hat
        have hself : (s.added a ts t).timer a = ⟨s.nextId, fixupTimespec ts⟩ :=
          Function.update_self ..
        rw [hself]
        exact fixupTimespec_norm ts
      · have hother : (s.added tcb ts t).timer a = s.timer a := Function.update_of_ne hat _ _
        rw [hother]
        refine h.norm a ?_
        rw [hsplit]
        simpa [hat] using ha
    · refine hids.nodup_iff.mpr (List.nodup_cons.mpr ⟨fun hmem => ?_, h.ids⟩)
      obtain ⟨x, hx, hxid⟩ := List.mem_map.mp hmem
      have := h.fresh x hx
      omega
    · intro x hx
      have hid : x.id ∈ s.nextId :: (s.ran ++ s.removed ++ L.map s.timer).map Timer.id :=
        hids.mem_iff.mp (List.mem_map_of_mem hx)
      rcases List.mem_cons.mp hid with heq | hmem
      · exact Nat.lt_succ_of_le (Nat.le_of_eq heq)
      · obtain ⟨y, hy, hyid⟩ := List.mem_map.mp hmem
        have hlt : y.id < s.nextId := h.fresh y hy
        rw [hyid] at hlt
        exact Nat.lt_succ_of_lt hlt

theorem Wf.dropped (h : Wf s L) (hL : L = pre ++ tcb :: post)
    {t : Itree} (ht : ∃ u, Rep t [] u ∧ RB u ∧ u.toList = pre ++ post) (junk : Timer)
    (link : ItreeEntry) : Wf (s.dropped tcb t junk link) (pre ++ post) := by
  have hmem : tcb ∉ pre ++ post := by
    have hnd := h.list_nodup
    rw [hL] at hnd
    exact (List.nodup_cons.mp (List.perm_middle.nodup_iff.mp hnd)).1
  have hsub : pre ++ post ⊆ L := by
    intro a ha
    rw [hL]
    exact List.perm_middle.mem_iff.mpr (List.mem_cons_of_mem _ ha)
  have hlive : tcb ∈ s.live := h.mem_live (by simp [hL])
  have hmap : (pre ++ post).map (s.dropped tcb t junk link).timer = (pre ++ post).map s.timer :=
    map_update hmem
  have hids : (s.ran ++ (s.removed ++ [s.timer tcb]) ++ (pre ++ post).map s.timer).Perm
      (s.ran ++ s.removed ++ L.map s.timer) := by
    rw [hL]
    simp only [List.map_append, List.map_cons, List.append_assoc, List.singleton_append]
    refine (List.Perm.refl _).append ((List.Perm.refl _).append ?_)
    exact List.perm_middle.symm
  obtain ⟨u, hrep, hrb, hu⟩ := ht
  refine ⟨⟨u, rep_write hrep (by rwa [hu]), hrb, hu⟩, ?_, ?_, ?_, ?_, ?_, ?_⟩
  · refine sorted_update hmem (h.sorted.sublist ?_)
    rw [hL]
    exact List.Sublist.append_left (List.sublist_cons_self tcb post) pre
  · have hperm : s.live.Perm (tcb :: (s.running ++ (pre ++ post))) := by
      refine h.live.trans ?_
      rw [hL, ← List.append_assoc, ← List.append_assoc]
      exact List.perm_middle
    have herase := hperm.erase tcb
    rwa [List.erase_cons_head] at herase
  · exact h.nodup.erase tcb
  · intro a ha
    have hat : a ≠ tcb := fun heq => hmem (heq ▸ ha)
    have hother : (s.dropped tcb t junk link).timer a = s.timer a :=
      Function.update_of_ne hat _ _
    rw [hother]
    exact h.norm a (hsub ha)
  · rw [hmap]
    exact (hids.map Timer.id).nodup_iff.mpr h.ids
  · intro x hx
    rw [hmap] at hx
    exact h.fresh x (hids.mem_iff.mp hx)

theorem Wf.scan_eq (h : Wf s L) {seg : List ℕ} {fuel : ℕ} (hL : L = pre ++ (seg ++ tcb :: post))
    (hseg : ∀ x ∈ seg, (s.timer x).ts = (s.timer tcb).ts) (hfuel : seg.length < fuel) :
    s.scan tcb fuel ((seg ++ tcb :: post).headD 0) = some () := by
  induction seg generalizing pre fuel with
  | nil =>
    obtain ⟨fuel, rfl⟩ : ∃ k, fuel = k + 1 := ⟨fuel - 1, by omega⟩
    exact if_pos rfl
  | cons x seg ih =>
    rw [List.length_cons] at hfuel
    obtain ⟨fuel, rfl⟩ : ∃ k, fuel = k + 1 := ⟨fuel - 1, by omega⟩
    have hx : x ≠ tcb := by
      have hnd := h.list_nodup
      rw [hL] at hnd
      have hnd := (List.nodup_append.mp hnd).2.1
      rintro rfl
      simp at hnd
    have hlive : x ∈ s.live := h.mem_live (by simp [hL])
    have hgo : ¬ (x ∉ s.live ∨ (s.timer x).ts ≠ (s.timer tcb).ts) := by
      rintro (hdead | hne)
      · exact hdead hlive
      · exact hne (hseg x List.mem_cons_self)
    have hnext : s.next x = some ((seg ++ tcb :: post).headD 0) := h.next_eq hL
    have hL' : L = (pre ++ [x]) ++ (seg ++ tcb :: post) := by simp [hL]
    have hrest := ih hL' (fun y hy => hseg y (List.mem_cons_of_mem _ hy))
      (show seg.length < fuel by omega)
    show s.scan tcb (fuel + 1) x = some ()
    rw [Core.scan, if_neg hx, if_neg hgo, hnext]
    exact hrest

theorem Wf.timecbRemove_eq (h : Wf s L) (hz : tcb ∈ L) (junk : Timer) (link : ItreeEntry) :
    ∃ t pre post, s.timecbRemove tcb junk link = some (s.dropped tcb t junk link) ∧
      L = pre ++ tcb :: post ∧ Wf (s.dropped tcb t junk link) (pre ++ post) := by
  let cb : ℕ → ℤ := fun tp => tscmp (s.timer tcb).ts (s.timer tp).ts
  have hlen := h.length_lt
  have hfall : Itree.Falling cb L := by
    refine h.sorted.imp fun {a b} hab => ⟨fun ha => ?_, fun hb => ?_⟩
    · have hab : tscmp (s.timer a).ts (s.timer b).ts ≤ 0 := hab
      simp only [cb, tscmp_neg_iff, tscmp_nonpos_iff] at *
      omega
    · have hab : tscmp (s.timer a).ts (s.timer b).ts ≤ 0 := hab
      simp only [cb, tscmp_pos_iff, tscmp_neg_iff, tscmp_nonpos_iff] at *
      omega
  have hsome : ∃ e, L.find? (fun a => cb a = 0) = some e := by
    rw [← Option.isSome_iff_exists, List.find?_isSome]
    exact ⟨tcb, hz, by simpa [cb] using tscmp_self (s.timer tcb).ts⟩
  obtain ⟨e, he⟩ := hsome
  obtain ⟨hecb, pre, rest, hL, hpre⟩ := List.find?_eq_some_iff_append.mp he
  have hetcb : (s.timer e).ts = (s.timer tcb).ts := by
    have h0 : cb e = 0 := by simpa using hecb
    exact (tscmp_eq_zero_iff.mp h0).symm
  have htcb : tcb ∈ e :: rest := by
    rw [hL] at hz
    rcases List.mem_append.mp hz with hmem | hmem
    · have h0 := hpre tcb hmem
      simp [cb, tscmp_self] at h0
    · exact hmem
  obtain ⟨seg, post, hseg⟩ := List.append_of_mem htcb
  have hsplit : L = pre ++ (seg ++ tcb :: post) := by rw [hL, hseg]
  have hhead : (seg ++ tcb :: post).headD 0 = e := by rw [← hseg]; rfl
  have hsame : ∀ x ∈ seg, (s.timer x).ts = (s.timer tcb).ts := by
    intro x hx
    have hsorted := h.sorted
    rw [hsplit] at hsorted
    have htail := (List.pairwise_append.mp hsorted).2.1
    have hxt : tscmp (s.timer x).ts (s.timer tcb).ts ≤ 0 :=
      (List.pairwise_append.mp htail).2.2 x hx tcb List.mem_cons_self
    have hex : tscmp (s.timer e).ts (s.timer x).ts ≤ 0 := by
      have hxmem : x ∈ e :: rest := by
        rw [hseg]
        exact List.mem_append_left _ hx
      rcases List.mem_cons.mp hxmem with rfl | hmem
      · exact Int.le_of_eq (tscmp_self _)
      · rw [← hseg] at htail
        exact (List.pairwise_cons.mp htail).1 x hmem
    rw [hetcb] at hex
    exact tscmp_antisymm hxt hex
  have hshort : seg.length < s.fuel := by
    rw [hsplit] at hlen
    simp only [List.length_append] at hlen
    omega
  have hscan := h.scan_eq hsplit hsame hshort
  rw [hhead] at hscan
  have hsearch : s.timecbs.itreeSearch cb s.fuel = some e := by
    obtain ⟨u, hrep, -, hu⟩ := h.tree
    rw [← hu] at hfall he hlen
    rw [Itree.itreeSearch_spec hrep hfall hlen, he]
    rfl
  obtain ⟨t, pre', post', hdel, hL', htree⟩ := h.delete_eq hz
  refine ⟨t, pre', post', ?_, hL', h.dropped hL' htree junk link⟩
  have hlive : tcb ∈ s.live := h.mem_live hz
  rw [Core.timecbRemove, if_neg (h.ne_zero hz), if_neg (not_not.mpr hlive)]
  simp only [cb] at hsearch
  simp only [hsearch, hscan, hdel, Option.bind_eq_bind, Option.bind_some]
  rfl

theorem Wf.called (h : Wf s L) (hrun : s.running = []) {tp : ℕ} (hL : L = pre ++ tp :: post)
    {t : Itree} (ht : ∃ u, Rep t [] u ∧ RB u ∧ u.toList = pre ++ post) (ntp : ℕ) (myTs : Timespec) :
    Wf (s.called tp ntp myTs t) (pre ++ post) := by
  have hsub : pre ++ post ⊆ L := by
    intro a ha
    rw [hL]
    exact List.perm_middle.mem_iff.mpr (List.mem_cons_of_mem _ ha)
  have hids : (s.ran ++ [s.timer tp] ++ s.removed ++ (pre ++ post).map s.timer).Perm
      (s.ran ++ s.removed ++ L.map s.timer) := by
    rw [hL]
    simp only [List.map_append, List.map_cons, List.append_assoc, List.singleton_append]
    refine (List.Perm.refl _).append ?_
    simp only [← List.append_assoc]
    exact List.perm_middle.symm
  refine ⟨ht, ?_, ?_, h.nodup, ?_, ?_, ?_⟩
  · refine h.sorted.sublist ?_
    rw [hL]
    exact List.Sublist.append_left (List.sublist_cons_self tp post) pre
  · have hlive := h.live
    rw [hrun, List.nil_append, hL] at hlive
    exact hlive.trans List.perm_middle
  · exact fun a ha => h.norm a (hsub ha)
  · exact (hids.map Timer.id).nodup_iff.mpr h.ids
  · exact fun x hx => h.fresh x (hids.mem_iff.mp hx)

theorem Wf.freed (h : Wf s L) {tp ntp : ℕ} {myTs : Timespec}
    (hpc : s.pc = .callback tp ntp myTs) (junk : Timer) (link : ItreeEntry) :
    tp ∈ s.live ∧ Wf { s.free tp junk link with pc := .deleted ntp myTs } L := by
  have hrun : s.running = [tp] := by rw [Core.running, hpc]
  have hlive := h.live
  rw [hrun] at hlive
  have htp : tp ∉ L := by
    have hnd := hlive.nodup_iff.mp h.nodup
    exact (List.nodup_cons.mp hnd).1
  have hmap : L.map (s.free tp junk link).timer = L.map s.timer := map_update htp
  refine ⟨hlive.mem_iff.mpr (by simp), ?_, sorted_update htp h.sorted, ?_, h.nodup.erase tp, ?_,
    ?_, ?_⟩
  · obtain ⟨u, hrep, hrb, hu⟩ := h.tree
    exact ⟨u, rep_write hrep (by rwa [hu]), hrb, hu⟩
  · have herase := hlive.erase tp
    rwa [List.singleton_append, List.erase_cons_head] at herase
  · intro a ha
    have hat : a ≠ tp := fun heq => htp (heq ▸ ha)
    have hother : (s.free tp junk link).timer a = s.timer a := Function.update_of_ne hat _ _
    show ((s.free tp junk link).timer a).ts.tvNsec < bil
    rw [hother]
    exact h.norm a ha
  · show ((s.ran ++ s.removed ++ L.map (s.free tp junk link).timer).map Timer.id).Nodup
    rw [hmap]
    exact h.ids
  · show ∀ x ∈ s.ran ++ s.removed ++ L.map (s.free tp junk link).timer, x.id < s.nextId
    rw [hmap]
    exact h.fresh

end Wf

end Sfslite.Async.Timecb
