import Sfslite.Async.ItreeRotate

/-!
Insertion into the red-black tree: the descent finds a hole, the new red leaf
fills it, and the loop over the pointers does what `insertFix` does to the tree.
-/

namespace Sfslite.Async

open Sfslite.Lib.RedBlack

theorem length_le_toList_plug (fs : List (Frame ℕ)) (t : RbTree ℕ) :
    fs.length ≤ (plug fs t).toList.length := by
  have hctx : ∀ fs : List (Frame ℕ), fs.length ≤ (ctxList fs).length := by
    intro fs
    induction fs with
    | nil => simp
    | cons f fs ih =>
      simp only [ctxList, List.length_cons, List.length_append]
      omega
  rw [(toList_plug_perm fs t).length_eq, List.length_append]
  exact Nat.le_trans (hctx fs) (Nat.le_add_left ..)

variable {s : Itree} {fs : List (Frame ℕ)} {t : RbTree ℕ} {fuel z : ℕ}

namespace Itree

variable {f g : Frame ℕ}

theorem itreeInsertFixLoop_black
    (fuel : ℕ) (h : Rep s (f :: fs) t) (ht : t ≠ .nil) (hf : f.color = .black) :
    itreeInsertFixLoop (fuel + 1) s (addr t) = some s := by
  have hup : s.up (addr t) = f.elem := h.up_focus ht
  have hcol : s.color f.elem = .of f.color := by
    have hfoc := ((rep_cons ..).mp h).color_focus
    simpa using hfoc
  simp [itreeInsertFixLoop, hup, hcol, hf]

theorem insertFix_recolor (h : Rep s (f :: g :: fs) t) (hu : g.sib.color = .red) :
    Rep (((s.setColor f.elem .black).setColor (addr g.sib) .black).setColor g.elem .red) fs
      (.mk g.dir .red (.mk f.dir .black t f.elem f.sib) g.elem (g.sib.paint .black)) := by
  have h₁ := (rep_cons ..).mp h
  have h₂ := setColor_rep .black h₁ RbTree.mk_ne_nil
  rw [addr_mk, RbTree.paint_mk, rep_sib] at h₂
  have h₃ := setColor_rep .black h₂ (RbTree.ne_nil_of_red hu)
  rw [rep_cons, RbTree.mk_other] at h₃
  have h₄ := setColor_rep .red h₃ RbTree.mk_ne_nil
  rwa [addr_mk, RbTree.paint_mk] at h₄

theorem insertFix_last {a b : RbTree ℕ} {y : ℕ}
    (h : Rep s (g :: fs) (.mk g.dir .red a y b)) (ha : a.color = .red) (fuel : ℕ) :
    let s := s.setColor (s.up (addr a)) .black
    let s := s.setColor (s.up (s.up (addr a))) .red
    let s := itreeRotate g.dir.other s (s.up (s.up (addr a)))
    Rep s fs (.mk g.dir .black a y (.mk g.dir .red b g.elem g.sib)) ∧
      itreeInsertFixLoop (fuel + 1) s (addr a) = some s := by
  intro s₂ s₃ s₄
  have hne := RbTree.ne_nil_of_red ha
  have h₂ : Rep s₂ (g :: fs) (.mk g.dir .black a y b) := by
    have hset := setColor_rep .black h RbTree.mk_ne_nil
    rw [addr_mk, RbTree.paint_mk] at hset
    simp only [s₂, h.up_near hne]
    exact hset
  have hgp : s₂.up (s₂.up (addr a)) = g.elem := by
    rw [h₂.up_near hne, ← addr_mk g.dir .black a y b]
    exact h₂.up_focus RbTree.mk_ne_nil
  have h₃ : Rep s₃ fs (.mk g.dir .red (.mk g.dir .black a y b) g.elem g.sib) := by
    have hset := setColor_rep .red ((rep_cons ..).mp h₂) RbTree.mk_ne_nil
    rw [addr_mk, RbTree.paint_mk] at hset
    simp only [s₃, hgp]
    exact hset
  have hgp₃ : s₃.up (s₃.up (addr a)) = g.elem := by
    have hfoc := (rep_cons s₃ ⟨g.dir, .red, g.elem, g.sib⟩ fs _).mpr h₃
    rw [hfoc.up_near hne, ← addr_mk g.dir .black a y b]
    exact hfoc.up_focus RbTree.mk_ne_nil
  have h₄ : Rep s₄ fs (.mk g.dir .black a y (.mk g.dir .red b g.elem g.sib)) := by
    rw [← RbTree.mk_other, ← RbTree.mk_other g.dir .black] at h₃
    have hrot := itreeRotate_rep h₃
    rw [RbTree.mk_other, RbTree.mk_other] at hrot
    simp only [s₄, hgp₃]
    exact hrot
  refine ⟨h₄, ?_⟩
  exact itreeInsertFixLoop_black fuel
    ((rep_cons s₄ ⟨g.dir, .black, y, .mk g.dir .red b g.elem g.sib⟩ fs a).mpr h₄) hne rfl

theorem itreeInsertFixLoop_red
    (h : Rep s (f :: g :: fs) t) (ht : t ≠ .nil) (hf : f.color = .red) (fuel : ℕ) :
    itreeInsertFixLoop (fuel + 1) s (addr t) =
      if g.sib.color = .red then
        itreeInsertFixLoop fuel
          (((s.setColor f.elem .black).setColor (addr g.sib) .black).setColor g.elem .red) g.elem
      else
        let x' := if f.dir = g.dir then addr t else f.elem
        let s := if f.dir = g.dir then s else itreeRotate g.dir s x'
        let s := s.setColor (s.up x') .black
        let s := s.setColor (s.up (s.up x')) .red
        let s := itreeRotate g.dir.other s (s.up (s.up x'))
        itreeInsertFixLoop fuel s x' := by
  have h₁ := (rep_cons ..).mp h
  have hp : RbTree.mk f.dir f.color t f.elem f.sib ≠ .nil := RbTree.mk_ne_nil
  have hup : s.up (addr t) = f.elem := h.up_focus ht
  have hup₁ : s.up f.elem = g.elem := by simpa [parent] using h₁.up_focus hp
  have hcol : s.color f.elem = .red := by simpa [hf, ItreeColor.of] using h₁.color_focus
  have hside := h₁.side (Or.inl hp)
  rw [addr_mk] at hside
  have huncle : s.child g.dir.other g.elem = addr g.sib := by
    rw [child, h₁.frame.2, ItreeEntry.child_other_at]
  have hucol : s.color (addr g.sib) = .red ↔ g.sib.color = .red := by
    rw [h₁.color_sib, ItreeColor.of_eq_red]
  have hinner : addr t = s.child g.dir.other f.elem ↔ f.dir ≠ g.dir := by
    rw [child, h.frame.2]
    by_cases hd : f.dir = g.dir
    · rw [hd, ItreeEntry.child_other_at]
      simp [h.addr_ne_sib (Or.inl ht)]
    · rw [Dir.eq_other_of_ne hd, ItreeEntry.child_at]
      cases g.dir <;> simp [Dir.other]
  rw [itreeInsertFixLoop]
  simp only [hup, hup₁, hcol, hside, huncle, hucol, hinner, if_true]
  by_cases hu : g.sib.color = .red
  · rw [if_pos hu, if_pos hu]
  · rw [if_neg hu, if_neg hu]
    by_cases hd : f.dir = g.dir
    · simp [hd]
    · simp [hd]

theorem itreeInsertFixLoop_rotate (h : Rep s (f :: g :: fs) t) (ht : t.color = .red)
    (hf : f.color = .red) (hu : g.sib.color ≠ .red) (fuel : ℕ) :
    let p := RbTree.mk f.dir .red t f.elem f.sib
    let p' := if f.dir = g.dir then p else p.rot g.dir
    ∃ s', itreeInsertFixLoop (fuel + 2) s (addr t) = some s' ∧
      Rep s' fs ((RbTree.mk g.dir .red (p'.paint .black) g.elem g.sib).rot g.dir.other) := by
  intro p p'
  have h₁ : Rep s (g :: fs) p := by
    have h₁ := (rep_cons ..).mp h
    rwa [hf] at h₁
  have hturn := itreeInsertFixLoop_red h (RbTree.ne_nil_of_red ht) hf (fuel + 1)
  rw [if_neg hu] at hturn
  by_cases hd : f.dir = g.dir
  · have hp : p = .mk g.dir .red t f.elem f.sib := by rw [← hd]
    obtain ⟨hrep, hloop⟩ := insertFix_last (hp ▸ h₁) ht fuel
    refine ⟨_, (hturn.trans ?_).trans hloop, ?_⟩
    · simp only [if_pos hd]
    · simpa only [p', if_pos hd, hp, RbTree.paint_mk, RbTree.rot_other_mk] using hrep
  · obtain ⟨c, a, x, b, rfl⟩ := RbTree.exists_mk g.dir (RbTree.ne_nil_of_red ht)
    rw [RbTree.color_mk] at ht
    subst ht
    have hp : p = .mk g.dir .red f.sib f.elem (.mk g.dir .red a x b) := by
      simp only [p, Dir.eq_other_of_ne hd, RbTree.mk_other]
    have h₂ := itreeRotate_rep (hp ▸ h₁)
    obtain ⟨hrep, hloop⟩ := insertFix_last h₂ (RbTree.color_mk ..) fuel
    rw [addr_mk] at hrep hloop
    refine ⟨_, (hturn.trans ?_).trans hloop, ?_⟩
    · simp only [if_neg hd]
    · simpa only [p', if_neg hd, hp, RbTree.rot_mk, RbTree.paint_mk, RbTree.rot_other_mk] using hrep

/-- The loop does to the pointers what `insertFix` does to the tree, up to the color
of the root. -/
theorem itreeInsertFixLoop_spec (fs : List (Frame ℕ)) {n : ℕ} (h : Rep s fs t) (ht : t.color = .red)
    (hbal : t.Bal n) (hfs : CtxBal fs n) (hfuel : fs.length < fuel) :
    ∃ s' t', itreeInsertFixLoop fuel s (addr t) = some s' ∧ Rep s' [] t' ∧ t' ≠ .nil ∧
      t'.paint .black = insertFix fs t := by
  have hne := RbTree.ne_nil_of_red ht
  obtain ⟨hrb, hlist⟩ := insertFix_spec fs hbal ht hfs
  obtain ⟨fuel, rfl⟩ : ∃ k, fuel = k + 1 := ⟨fuel - 1, by omega⟩
  induction fs, t using insertFix.induct generalizing s n fuel with
  | case1 t =>
    have hup : s.up (addr t) = 0 := h.up_focus hne
    exact ⟨s, t, by simp [itreeInsertFixLoop, hup, color], h, hne, rfl⟩
  | case2 f t =>
    have hblack : f.color = .black := by
      obtain ⟨d, c, x, sib⟩ := f
      cases c with
      | black => rfl
      | red => exact absurd hfs.2.2.1 (by simp [top])
    refine ⟨s, plug [f] t, itreeInsertFixLoop_black fuel h hne hblack, (rep_plug ..).mp h,
      plug_ne_nil _ hne, RbTree.paint_black hrb.1⟩
  | case3 f g fs t hblack =>
    rw [insertFix, if_pos hblack] at hrb hlist ⊢
    refine ⟨s, _, itreeInsertFixLoop_black fuel h hne hblack, (rep_plug ..).mp h,
      plug_ne_nil _ hne, RbTree.paint_black hrb.1⟩
  | case4 f g fs t hf hu ih =>
    have hred : f.color = .red := Color.eq_red hf
    obtain ⟨hbal', hfs'⟩ := ctxBal_recolor hbal hfs hred hu
    rw [itreeInsertFixLoop_red h hne hred, if_pos hu]
    rw [insertFix, if_neg hf, if_pos hu] at hrb ⊢
    have h' := insertFix_recolor h hu
    obtain ⟨fuel, rfl⟩ : ∃ k, fuel = k + 1 := ⟨fuel - 1, by simp at hfuel; omega⟩
    simpa using ih h' (RbTree.color_mk ..) hbal' hfs' RbTree.mk_ne_nil hrb
      (insertFix_spec fs hbal' (RbTree.color_mk ..) hfs').2 fuel (by simp at hfuel; omega)
  | case5 f g fs t hf hu =>
    have hred : f.color = .red := Color.eq_red hf
    rw [insertFix, if_neg hf, if_neg hu] at hrb hlist ⊢
    obtain ⟨fuel, rfl⟩ : ∃ k, fuel = k + 1 := ⟨fuel - 1, by simp at hfuel; omega⟩
    obtain ⟨s', hloop, hrep⟩ := itreeInsertFixLoop_rotate h ht hred hu fuel
    have hne' := plug_ne_nil (f :: g :: fs) hne
    rw [ne_eq, ← RbTree.toList_eq_nil, ← hlist, RbTree.toList_eq_nil] at hne'
    exact ⟨s', _, hloop, (rep_plug ..).mp hrep, hne', RbTree.paint_black hrb.1⟩

theorem itreeInsertFix_spec (fs : List (Frame ℕ)) {x n : ℕ}
    {a b : RbTree ℕ} (h : Rep (s.setColor x .red) fs (.node .red a x b))
    (hbal : (RbTree.node .red a x b).Bal n) (hfs : CtxBal fs n) (hfuel : fs.length < fuel) :
    ∃ s', itreeInsertFix fuel s x = some s' ∧ Rep s' [] (insertFix fs (.node .red a x b)) := by
  obtain ⟨s', t', hloop, hrep, hne, heq⟩ := itreeInsertFixLoop_spec fs h rfl hbal hfs hfuel
  have hroot : s'.rbRoot = addr t' := hrep.1
  refine ⟨s'.setColor s'.rbRoot .black, ?_, ?_⟩
  · have hloop' : itreeInsertFixLoop fuel (s.setColor x .red) x = some s' := hloop
    simp [itreeInsertFix, hloop']
  · have hset := setColor_rep .black hrep hne
    rwa [heq, ← hroot] at hset

end Itree

/-- What insertion expects of a comparison function: it answers consistently when
its arguments change places, and it is transitive. Distinct nodes may be equal. -/
structure CmpOrder (cmpfn : ℕ → ℕ → Int) : Prop where
  swap : ∀ a b, 0 ≤ cmpfn a b → cmpfn b a ≤ 0
  trans : ∀ a b c, cmpfn a b ≤ 0 → cmpfn b c ≤ 0 → cmpfn a c ≤ 0

def Sorted (cmpfn : ℕ → ℕ → Int) (l : List ℕ) : Prop := l.Pairwise fun a b => cmpfn a b ≤ 0

/-- The side on which the code goes on looking for the place of `z`. -/
def sideOf (cmpres : Int) : Dir := if cmpres < 0 then .left else .right

/-- Every frame lies on the way of `z` from the root to the hole. -/
def Way (cmpfn : ℕ → ℕ → Int) (z : ℕ) (fs : List (Frame ℕ)) : Prop :=
  ∀ f ∈ fs, f.dir = sideOf (cmpfn z f.elem)

theorem Way.split {cmpfn : ℕ → ℕ → Int} (hcmp : CmpOrder cmpfn) (hway : Way cmpfn z fs)
    (hsorted : Sorted cmpfn (plug fs t).toList) :
    ∃ before after : List ℕ, (∀ u, (plug fs u).toList = before ++ u.toList ++ after) ∧
      (∀ a ∈ before, cmpfn a z ≤ 0) ∧ ∀ a ∈ after, cmpfn z a ≤ 0 := by
  induction fs generalizing t with
  | nil => exact ⟨[], [], fun u => by simp [plug], nofun, nofun⟩
  | cons f fs ih =>
    obtain ⟨before, after, happ, hbefore, hafter⟩ :=
      ih (fun g hg => hway g (List.mem_cons_of_mem _ hg)) hsorted
    have hdir := hway f List.mem_cons_self
    have hsub : Sorted cmpfn (RbTree.mk f.dir f.color t f.elem f.sib).toList := by
      have hall : Sorted cmpfn (plug (f :: fs) t).toList := hsorted
      rw [plug, happ] at hall
      exact (List.pairwise_append.mp (List.pairwise_append.mp hall).1).2.1
    by_cases hlt : cmpfn z f.elem < 0
    · rw [sideOf, if_pos hlt] at hdir
      rw [hdir] at hsub
      have hsib : ∀ a ∈ f.sib.toList, cmpfn f.elem a ≤ 0 :=
        (List.pairwise_cons.mp (List.pairwise_append.mp hsub).2.1).1
      refine ⟨before, f.elem :: f.sib.toList ++ after, fun u => ?_, hbefore, ?_⟩
      · simp [plug, happ, hdir, RbTree.mk, RbTree.toList]
      · intro a ha
        simp only [List.cons_append, List.mem_cons, List.mem_append] at ha
        rcases ha with rfl | ha | ha
        · omega
        · exact hcmp.trans _ _ _ (by omega) (hsib a ha)
        · exact hafter a ha
    · rw [sideOf, if_neg hlt] at hdir
      rw [hdir] at hsub
      have hz : cmpfn f.elem z ≤ 0 := hcmp.swap _ _ (by omega)
      have hsib : ∀ a ∈ f.sib.toList, cmpfn a f.elem ≤ 0 := fun a ha =>
        (List.pairwise_append.mp hsub).2.2 a ha f.elem List.mem_cons_self
      refine ⟨before ++ f.sib.toList ++ [f.elem], after, fun u => ?_, ?_, hafter⟩
      · simp [plug, happ, hdir, RbTree.mk, RbTree.toList]
      · intro a ha
        simp only [List.append_assoc, List.mem_append, List.mem_singleton] at ha
        rcases ha with ha | ha | rfl
        · exact hbefore a ha
        · exact hcmp.trans _ _ _ (hsib a ha) hz
        · exact hz

namespace Itree

theorem itreeInsertDescend_spec (cmpfn : ℕ → ℕ → Int) (cmpres : Int) (h : Rep s fs t)
    (hway : Way cmpfn z fs) (hcmp : ∀ f ∈ fs.head?, cmpres = cmpfn z f.elem)
    (hfuel : t.toList.length < fuel) :
    ∃ fs' cmpres', itreeInsertDescend cmpfn s z fuel (addr t) (parent fs) cmpres =
        some (parent fs', cmpres') ∧ plug fs' .nil = plug fs t ∧ Way cmpfn z fs' ∧
      ∀ f ∈ fs'.head?, cmpres' = cmpfn z f.elem := by
  induction fuel generalizing fs t cmpres with
  | zero => omega
  | succ fuel ih =>
    by_cases ht : t = .nil
    · subst ht
      exact ⟨fs, cmpres, by simp [itreeInsertDescend], rfl, hway, hcmp⟩
    · -- the node seen from the side on which `z` belongs
      obtain ⟨c₀, a₀, x, b₀, rfl⟩ := RbTree.exists_mk .left ht
      obtain ⟨c, a, x', b, heq⟩ := RbTree.exists_mk (sideOf (cmpfn z x)) ht
      have hx' : x = x' := by
        have haddr := congrArg addr heq
        rwa [addr_mk, addr_mk] at haddr
      subst hx'
      rw [heq] at h hfuel ⊢
      obtain ⟨hx, hm⟩ := h.focus
      have hlen : a.toList.length < fuel := by
        rw [(toList_mk_perm ..).length_eq] at hfuel
        simp only [List.length_cons, List.length_append] at hfuel
        omega
      obtain ⟨fs', cmpres', hloop, hplug, hway', hcmp'⟩ :=
        ih (cmpfn z x) ((rep_cons s ⟨sideOf (cmpfn z x), c, x, b⟩ fs a).mpr h)
          (by simpa [Way] using hway) (by simp) hlen
      refine ⟨fs', cmpres', ?_, hplug, hway', hcmp'⟩
      have hchild : (if cmpfn z x < 0 then s.child .left x else s.child .right x) =
          addr a := by
        rw [← ItreeEntry.child_at (sideOf (cmpfn z x)) (parent fs) (addr a) (addr b) (.of c),
          ← hm]
        unfold sideOf
        split <;> rfl
      simp only [addr_mk, itreeInsertDescend, if_neg hx, hchild]
      exact hloop

theorem setChild_ctx_nil {s₁ : Itree} (h : Rep s fs .nil) (hz : z ≠ 0) (hzf : z ∉ ctxList fs)
    (hroot : s₁.rbRoot = if fs = [] then z else s.rbRoot)
    (hmz : s₁.mem z = .at .left (parent fs) 0 0 .red)
    (hmp : ∀ f ∈ fs.head?, s₁.mem f.elem = (s.mem f.elem).setChild f.dir z)
    (hother : ∀ i, i ≠ z → i ≠ parent fs → s₁.mem i = s.mem i) :
    Rep s₁ fs (.node .red .nil z .nil) := by
  obtain ⟨hctx, -, hnd⟩ := h
  refine ⟨?_, (treeAt_mk _ _ .left ..).mpr ⟨hz, hmz, trivial, trivial⟩, ?_⟩
  · cases fs with
    | nil => simpa [CtxAt, addr] using hroot
    | cons f fs =>
      obtain ⟨hf, hm, hsib, hrest⟩ := hctx
      simp only [RbTree.toList, List.nil_append, ctxList, List.nodup_cons, List.mem_append,
        not_or] at hnd
      simp only [ctxList, List.mem_cons, List.mem_append, not_or] at hzf
      obtain ⟨⟨hfsib, hffs⟩, _⟩ := hnd
      refine ⟨hf, ?_, hsib.congr fun i hi => ?_, ?_⟩
      · rw [hmp f (by simp), hm, ItreeEntry.setChild_at]
        rfl
      · exact hother i (fun h => hzf.2.1 (h ▸ hi)) (fun h : i = f.elem => hfsib (h ▸ hi))
      · simp only [reduceCtorEq, if_false] at hroot
        rw [hroot]
        refine hrest.congr fun i hi => ?_
        exact hother i (fun h => hzf.2.2 (h ▸ hi)) (fun h : i = f.elem => hffs (h ▸ hi))
  · simpa [RbTree.toList, hzf] using hnd

theorem itreeInsert_link {cmpres : Int} (h : Rep s fs .nil) (hz : z ≠ 0) (hzf : z ∉ ctxList fs)
    (hleft : s.child .left z = 0) (hright : s.child .right z = 0)
    (hdir : ∀ f ∈ fs.head?, f.dir = sideOf cmpres) :
    let s := s.setUp z (parent fs)
    let s :=
      if parent fs = 0 then s.setRoot z
      else if cmpres < 0 then s.setChild .left (parent fs) z
      else s.setChild .right (parent fs) z
    Rep (s.setColor z .red) fs (.node .red .nil z .nil) := by
  intro s₂ s₃
  have hmz : (s.mem z).setUp (parent fs) = ⟨parent fs, 0, 0, (s.mem z).rbeColor⟩ := by
    simp only [child, ItreeEntry.child] at hleft hright
    simp only [ItreeEntry.setUp, hleft, hright]
  cases fs with
  | nil =>
    have hs₃ : s₃ = s₂.setRoot z := if_pos rfl
    refine setChild_ctx_nil h hz hzf ?_ ?_ (by simp) ?_
    · simp [hs₃, setRoot]
    · simp [hs₃, s₂, setRoot, mem_setColor, mem_setUp, hmz, ItreeEntry.setColor, ItreeEntry.at]
    · intro i hi _
      simp [hs₃, s₂, setRoot, mem_setColor, mem_setUp, hi]
  | cons f fs =>
    have hf : f.elem ≠ 0 := h.frame.1
    have hs₃ : s₃ = s₂.setChild f.dir f.elem z := by
      have hs₃ : s₃ = if cmpres < 0 then s₂.setChild .left f.elem z
          else s₂.setChild .right f.elem z := if_neg hf
      rw [hs₃, hdir f (by simp), sideOf]
      split <;> rfl
    have hfz : f.elem ≠ z := fun heq => hzf (by simp [ctxList, heq])
    refine setChild_ctx_nil h hz hzf ?_ ?_ ?_ ?_
    · simp [hs₃, s₂]
    · simp only [parent] at hmz
      simp [hs₃, s₂, mem_setColor, mem_setChild, mem_setUp, hfz.symm, hmz,
        ItreeEntry.setColor, ItreeEntry.at, parent]
    · simp [hs₃, s₂, mem_setColor, mem_setChild, mem_setUp, hfz]
    · intro i hi hif
      simp only [parent] at hif
      simp [hs₃, s₂, mem_setColor, mem_setChild, mem_setUp, hi, hif]

/-- Insertion into a red-black tree: `z` comes between two parts of the old list, and
the list stays sorted. -/
theorem itreeInsert_spec (cmpfn : ℕ → ℕ → Int) (h : Rep s [] t) (hrb : RB t) (hz : z ≠ 0)
    (hzt : z ∉ t.toList) (hfuel : t.toList.length < fuel) :
    ∃ s' t', itreeInsert cmpfn fuel s z = some s' ∧ Rep s' [] t' ∧ RB t' ∧
      (∃ before after, t.toList = before ++ after ∧ t'.toList = before ++ z :: after) ∧
      (CmpOrder cmpfn → Sorted cmpfn t.toList → Sorted cmpfn t'.toList) := by
  let s₁ := (s.setChild .left z 0).setChild .right z 0
  have hs₁ : ∀ i, i ≠ z → s₁.mem i = s.mem i := by
    intro i hi
    simp only [s₁, mem_setChild, if_neg hi]
  have h₁ : Rep s₁ [] t :=
    ⟨h.1, h.2.1.congr fun i hi => hs₁ i (fun heq => hzt (heq ▸ hi)), h.2.2⟩
  obtain ⟨fs, cmpres, hdesc, hplug, hway, hcmp⟩ :=
    itreeInsertDescend_spec (z := z) cmpfn 0 h₁ (by simp [Way])
      (by simp) hfuel
  have hhole : Rep s₁ fs .nil := by
    rw [rep_plug, hplug]
    exact h₁
  have hmem : ∀ i, i ∈ t.toList ↔ i ∈ ctxList fs := by
    intro i
    have hperm := toList_plug_perm fs .nil
    rw [hplug] at hperm
    simpa [plug, RbTree.toList] using hperm.mem_iff (a := i)
  have hleaf := itreeInsert_link hhole hz (fun hzf => hzt ((hmem z).mpr hzf))
    (by simp [s₁, child, mem_setChild, ItreeEntry.setChild, ItreeEntry.child])
    (by simp [s₁, child, mem_setChild, ItreeEntry.setChild, ItreeEntry.child])
    (fun f hf => hcmp f hf ▸ hway f (List.mem_of_mem_head? hf))
  have hrb₀ : RB (plug fs .nil) := by
    rw [hplug]
    exact hrb
  obtain ⟨n, hnil, hctx, -⟩ := bal_of_rb_plug hrb₀
  have hbal : (RbTree.node .red .nil z .nil).Bal n := ⟨rfl, rfl, hnil, hnil⟩
  have hlen : fs.length < fuel := by
    have hle := length_le_toList_plug fs .nil
    rw [hplug] at hle
    exact Nat.lt_of_le_of_lt hle hfuel
  obtain ⟨s', hfix, hrep⟩ := itreeInsertFix_spec fs hleaf hbal hctx hlen
  obtain ⟨hrb', hlist⟩ := insertFix_spec fs hbal rfl hctx
  refine ⟨s', _, ?_, hrep, hrb', ?_, ?_⟩
  · have hdesc' : itreeInsertDescend cmpfn s₁ z fuel s₁.rbRoot 0 0 = some (parent fs, cmpres) := by
      rw [show s₁.rbRoot = addr t from h₁.1]
      exact hdesc
    simp only [s₁] at hdesc'
    rw [itreeInsert, hdesc']
    exact hfix
  · obtain ⟨before, after, happ⟩ := toList_plug fs
    refine ⟨before, after, ?_, ?_⟩
    · simpa [plug, RbTree.toList] using (congrArg RbTree.toList hplug).symm.trans (happ .nil)
    · simpa [RbTree.toList] using hlist.trans (happ _)
  · intro hord hsorted
    have hsorted' : Sorted cmpfn (plug fs .nil).toList := by
      rw [hplug]
      exact hsorted
    obtain ⟨before, after, happ, hbefore, hafter⟩ := hway.split hord hsorted'
    rw [hlist, happ]
    rw [happ] at hsorted'
    simp only [Sorted, RbTree.toList, List.append_nil, List.nil_append,
      List.append_assoc, List.pairwise_append, List.singleton_append, List.pairwise_cons,
      List.mem_cons] at hsorted' ⊢
    obtain ⟨hb, ha, hba⟩ := hsorted'
    refine ⟨hb, ⟨hafter, ha⟩, ?_⟩
    rintro a ha' b (rfl | hb')
    · exact hbefore a ha'
    · exact hba a ha' b hb'

end Itree

end Sfslite.Async
