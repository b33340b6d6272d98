import Sfslite.Async.ItreeInsert
import Sfslite.Lib.RedBlackCut

/-!
Deletion from the red-black tree: a node with at most one child is cut out, and
where it was black the loop over the pointers does what `deleteFix` does to the
tree. A node with two children is replaced by its successor.
-/

namespace Sfslite.Async

open Sfslite.Lib.RedBlack

variable {s : Itree} {fs : List (Frame ℕ)} {c : Color} {t w l r : RbTree ℕ} {y n fuel z : ℕ}

variable {d : Dir}

namespace Itree

/-- The colors and the rotation that end the loop, the far nephew being red. -/
theorem deleteFixup_last {cs : Color}
    {b e : RbTree ℕ} {x : ℕ} (h : Rep s fs (.mk d c t x (.mk d cs b y e))) (he : e ≠ .nil) :
    let s := s.setColor y (s.color x)
    let s := s.setColor x .black
    let s := s.setColor (s.child d.other y) .black
    Rep (itreeRotate d s x) fs (.mk d c (.mk d .black t x b) y (e.paint .black)) := by
  intro s₁ s₂ s₃
  have hcol : s.color x = .of c := by simpa using h.color_focus
  have h₁ : Rep s₁ fs (.mk d c t x (.mk d c b y e)) := by
    have hset := setColor_far c h RbTree.mk_ne_nil
    rwa [RbTree.paint_mk, addr_mk, ← hcol] at hset
  have h₂ : Rep s₂ fs (.mk d .black t x (.mk d c b y e)) := by
    have hset := setColor_rep .black h₁ RbTree.mk_ne_nil
    rwa [RbTree.paint_mk, addr_mk] at hset
  have h₂' : Rep s₂ (⟨d.other, .black, x, t⟩ :: fs) (.mk d c b y e) := by
    rw [rep_cons, RbTree.mk_other]
    exact h₂
  have hchild : s₂.child d.other y = addr e := by
    rw [child, h₂'.focus.2, ItreeEntry.child_other_at]
  have h₃ : Rep s₃ fs (.mk d .black t x (.mk d c b y (e.paint .black))) := by
    have hset := setColor_far .black h₂' he
    rw [rep_cons, RbTree.mk_other, ← hchild] at hset
    exact hset
  exact itreeRotate_rep h₃

theorem itreeDeleteFixupBlack_spec {x : ℕ} (h : Rep s fs (.mk d c t x w)) (hw : w ≠ .nil)
    (hwc : w.color = .black) :
    ∃ s', itreeDeleteFixupBlack d s x (addr w) =
        (s', if bothBlack d w then x else s'.rbRoot) ∧
      Rep s' fs
        (if bothBlack d w then .mk d c t x (w.paint .red) else deleteEnd d c t x w) := by
  obtain ⟨cs, b, y, e, rfl⟩ := RbTree.exists_mk d hw
  rw [RbTree.color_mk] at hwc
  subst hwc
  have hsib (s : Itree) (c cs : Color) (t b e : RbTree ℕ) (y : ℕ) :
      Rep s fs (.mk d c t x (.mk d cs b y e)) ↔
        Rep s (⟨d.other, c, x, t⟩ :: fs) (.mk d cs b y e) := by
    rw [rep_cons, RbTree.mk_other]
  have h' := (hsib ..).mp h
  have hnear : s.child d y = addr b := by rw [child, h'.focus.2, ItreeEntry.child_at]
  have hfar : s.child d.other y = addr e := by rw [child, h'.focus.2, ItreeEntry.child_other_at]
  have hb : s.color (addr b) = .of b.color := ((rep_cons s ⟨d, .black, y, e⟩ _ b).mpr h').color_focus
  have he : s.color (addr e) = .of e.color := by
    rw [← RbTree.mk_other] at h'
    exact ((rep_cons s ⟨d.other, .black, y, b⟩ _ e).mpr h').color_focus
  have hboth : (s.color (s.child d y) = .black ∧ s.color (s.child d.other y) = .black) ↔
      bothBlack d (RbTree.mk d .black b y e) := by
    simp [bothBlack, hnear, hfar, hb, he]
  rw [addr_mk]
  simp only [itreeDeleteFixupBlack, hboth]
  by_cases hbb : bothBlack d (RbTree.mk d .black b y e)
  · simp only [if_pos hbb]
    refine ⟨_, rfl, ?_⟩
    have hset := setColor_far .red h RbTree.mk_ne_nil
    rwa [addr_mk] at hset
  · simp only [if_neg hbb]
    by_cases hec : e.color = .black
    · -- a red near nephew takes the sibling's place first
      have hbc : b.color = .red := by
        refine Color.eq_red fun hbc => hbb ?_
        simp [bothBlack, hbc, hec]
      obtain ⟨cb, b₁, z, b₂, rfl⟩ := RbTree.exists_mk d (RbTree.ne_nil_of_red hbc)
      rw [RbTree.color_mk] at hbc
      subst hbc
      have h₁ := setColor_near .black h' RbTree.mk_ne_nil
      rw [addr_mk, RbTree.paint_mk] at h₁
      have h₂ := setColor_rep .red h₁ RbTree.mk_ne_nil
      rw [addr_mk, RbTree.paint_mk, ← RbTree.mk_other, ← RbTree.mk_other d .black] at h₂
      have h₃ : Rep (itreeRotate d.other ((s.setColor z .black).setColor y .red) y) fs
          (.mk d c t x (.mk d .black b₁ z (.mk d .red b₂ y e))) := by
        have hrot := itreeRotate_rep h₂
        rw [RbTree.mk_other, RbTree.mk_other, rep_cons, RbTree.mk_other] at hrot
        exact hrot
      have hlast := deleteFixup_last h₃ RbTree.mk_ne_nil
      have hchild : (itreeRotate d.other ((s.setColor z .black).setColor y .red) y).child
          d.other x = z := by
        rw [child, h₃.focus.2, ItreeEntry.child_other_at, addr_mk]
      have hcond : s.color (s.child d.other y) = .black := by simp [hfar, he, hec]
      simp only [if_pos hcond, hnear, addr_mk]
      simp only [hchild]
      refine ⟨_, rfl, ?_⟩
      rw [deleteEnd_near hec]
      exact hlast
    · have hec' : e.color = .red := Color.eq_red hec
      have hcond : ¬ s.color (s.child d.other y) = .black := by simp [hfar, he, hec]
      simp only [if_neg hcond]
      refine ⟨_, rfl, ?_⟩
      rw [deleteEnd_far hec']
      exact deleteFixup_last h (RbTree.ne_nil_of_red hec')

variable {f : Frame ℕ}

theorem root_mem_ctxList {m : ℕ → ItreeEntry} {root hole : ℕ}
    (h : CtxAt m root (f :: fs) hole) : root ∈ ctxList (f :: fs) := by
  induction fs generalizing f hole with
  | nil =>
    have hroot : root = f.elem := h.2.2.2
    simp [ctxList, hroot]
  | cons g fs ih =>
    have hmem := ih h.2.2.2
    simp only [ctxList, List.mem_cons, List.mem_append] at hmem ⊢
    tauto

theorem addr_ne_root (h : Rep s (f :: fs) t) : addr t ≠ s.rbRoot := by
  have hroot := root_mem_ctxList h.1
  intro heq
  by_cases ht : addr t = 0
  · exact h.1.ne_zero _ hroot (heq ▸ ht)
  · exact (List.nodup_append'.mp h.2.2).2.2 (addr_mem ht) (heq ▸ hroot)

theorem itreeDeleteFixupLoop_root (fuel : ℕ) (s : Itree) (p : ℕ) :
    itreeDeleteFixupLoop (fuel + 1) s s.rbRoot p = some (s, s.rbRoot) := by
  simp [itreeDeleteFixupLoop]

theorem itreeDeleteFixupLoop_red (h : Rep s fs t) (ht : t.color = .red) (fuel p : ℕ) :
    itreeDeleteFixupLoop (fuel + 1) s (addr t) p = some (s, addr t) := by
  simp [itreeDeleteFixupLoop, h.color_focus, ht]

/-- One turn of the loop at a black node that has a sibling: a red sibling is rotated
up, and the rest of the body works below a black one. -/
theorem itreeDeleteFixupLoop_turn {p : ℕ} (h : Rep s (f :: fs) t) (ht : t.color = .black)
    (hsib : f.sib ≠ .nil) (hp : t = .nil → p = f.elem) (fuel : ℕ) :
    itreeDeleteFixupLoop (fuel + 1) s (addr t) p =
      let s' :=
        if f.sib.color = .red then
          itreeRotate f.dir ((s.setColor (addr f.sib) .black).setColor f.elem .red) f.elem
        else s
      let w := if f.sib.color = .red then s'.child f.dir.other f.elem else addr f.sib
      let q := itreeDeleteFixupBlack f.dir s' f.elem w
      itreeDeleteFixupLoop fuel q.1 q.2 f.elem := by
  have hp' : (if addr t ≠ 0 then s.up (addr t) else p) = f.elem := by
    split
    next h0 => exact h.up_focus (fun ht => h0 (by rw [ht, addr_nil]))
    next h0 => exact hp ((addr_eq_zero h.2.1).mp (not_not.mp h0))
  have hcol : s.color (addr t) = .black := by simp [h.color_focus, ht]
  have hw : s.child f.dir.other f.elem = addr f.sib := by
    rw [child, h.frame.2, ItreeEntry.child_other_at]
  have hwc : s.color (addr f.sib) = .red ↔ f.sib.color = .red := by
    rw [h.color_sib, ItreeColor.of_eq_red]
  rw [itreeDeleteFixupLoop, if_pos ⟨addr_ne_root h, hcol⟩]
  simp only [hp', h.side (Or.inr hsib), hw, hwc]

/-- How the loop may end: at a node that, painted black, completes the tree `u`. -/
def Ends (r : Option (Itree × ℕ)) (u : RbTree ℕ) : Prop :=
  ∃ s fs t, r = some (s, addr t) ∧ Rep s fs t ∧ plug fs (t.paint .black) = u

theorem ends_root (h : Rep s fs t) (hrb : RB (plug fs t)) (fuel p : ℕ) :
    Ends (itreeDeleteFixupLoop (fuel + 1) s s.rbRoot p) (plug fs t) := by
  have hplug := (rep_plug ..).mp h
  have hroot : s.rbRoot = addr (plug fs t) := hplug.1
  refine ⟨s, [], plug fs t, ?_, hplug, RbTree.paint_black hrb.1⟩
  rw [itreeDeleteFixupLoop_root, hroot]

theorem ends_black
    (h : Rep s (f :: fs) t) (hsib : f.sib ≠ .nil) (hsc : f.sib.color = .black) (fuel : ℕ)
    (u : RbTree ℕ) (hboth : bothBlack f.dir f.sib → ∀ s',
      Rep s' fs (.mk f.dir f.color t f.elem (f.sib.paint .red)) →
      Ends (itreeDeleteFixupLoop fuel s' f.elem f.elem) u)
    (hone : ¬ bothBlack f.dir f.sib → ∀ s',
      Rep s' fs (deleteEnd f.dir f.color t f.elem f.sib) →
      Ends (itreeDeleteFixupLoop fuel s' s'.rbRoot f.elem) u) :
    let q := itreeDeleteFixupBlack f.dir s f.elem (addr f.sib)
    Ends (itreeDeleteFixupLoop fuel q.1 q.2 f.elem) u := by
  obtain ⟨s', hq, hrep⟩ := itreeDeleteFixupBlack_spec ((rep_cons ..).mp h) hsib hsc
  simp only [hq]
  split at hrep
  next hb =>
    simp only [if_pos hb]
    exact hboth hb s' hrep
  next hb =>
    simp only [if_neg hb]
    exact hone hb s' hrep

/-- The loop does to the pointers what `deleteFix` does to the tree. -/
theorem itreeDeleteFixupLoop_spec (fs : List (Frame ℕ)) {p : ℕ} (h : Rep s fs t) (hbal : t.Bal n)
    (hfs : CtxBal fs (n + 1)) (hp : t = .nil → p = parent fs) (hfuel : fs.length < fuel) :
    Ends (itreeDeleteFixupLoop fuel s (addr t) p) (deleteFix fs t) := by
  obtain ⟨hrb, -⟩ := deleteFix_spec fs hbal hfs
  obtain ⟨fuel, rfl⟩ : ∃ k, fuel = k + 1 := ⟨fuel - 1, by omega⟩
  induction fs, t using deleteFix.induct generalizing s n fuel p with
  | case1 t =>
    have hroot : s.rbRoot = addr t := h.1
    refine ⟨s, [], t, ?_, h, rfl⟩
    rw [← hroot, itreeDeleteFixupLoop_root]
  | case2 f fs t hred =>
    rw [deleteFix, if_pos hred]
    exact ⟨s, f :: fs, t, itreeDeleteFixupLoop_red h hred fuel p, h, rfl⟩
  | case3 f fs t hblack hsib =>
    have ht := Color.eq_black hblack
    obtain ⟨fuel, rfl⟩ : ∃ k, fuel = k + 1 := ⟨fuel - 1, by simp at hfuel; omega⟩
    rw [itreeDeleteFixupLoop_turn h ht (RbTree.ne_nil_of_red hsib) hp]
    simp only [if_pos hsib]
    obtain ⟨d, c, x, w⟩ := f
    simp only at hsib ⊢
    obtain ⟨cs, b, y, e, rfl⟩ := RbTree.exists_mk d (RbTree.ne_nil_of_red hsib)
    rw [RbTree.color_mk] at hsib
    subst hsib
    rw [deleteFix, if_neg hblack, if_pos (RbTree.color_mk ..)] at hrb ⊢
    simp only [RbTree.near_mk, RbTree.setNear_mk, RbTree.paint_mk] at hrb ⊢
    have hb := ((RbTree.bal_red ..).mp hfs.sib).2.2.1
    have hbc := ((RbTree.bal_red ..).mp hfs.sib).1
    have h₁ := setColor_far .black ((rep_cons ..).mp h) RbTree.mk_ne_nil
    rw [addr_mk, RbTree.paint_mk] at h₁
    have h₂ := setColor_rep .red h₁ RbTree.mk_ne_nil
    rw [addr_mk, RbTree.paint_mk] at h₂
    have h₃ := (rep_cons _ ⟨d, .black, y, e⟩ fs (.mk d .red t x b)).mpr (itreeRotate_rep h₂)
    have hw := h₃.focus.2
    rw [addr_mk, child]
    simp only [ItreeColor.of] at hw h₃
    rw [hw, ItreeEntry.child_other_at]
    refine ends_black ((rep_cons _ ⟨d, .red, x, b⟩ _ t).mpr h₃) (RbTree.ne_nil_of_bal hb) hbc
      (fuel + 1) _ (fun hboth s' hrep => ?_) (fun hone s' hrep => ?_)
    · rw [if_pos hboth]
      have hend := itreeDeleteFixupLoop_red hrep (RbTree.color_mk ..) fuel x
      rw [addr_mk] at hend
      refine ⟨s', _, _, hend.trans (by rw [addr_mk]), hrep, ?_⟩
      rw [RbTree.paint_mk]
      rfl
    · rw [if_neg hone] at hrb ⊢
      exact ends_root hrep hrb fuel x
  | case4 f fs t hblack hsib hboth ih =>
    have ht := Color.eq_black hblack
    have hbs := hfs.sib
    obtain ⟨fuel, rfl⟩ : ∃ k, fuel = k + 1 := ⟨fuel - 1, by simp at hfuel; omega⟩
    rw [itreeDeleteFixupLoop_turn h ht (RbTree.ne_nil_of_bal hbs) hp]
    simp only [if_neg hsib]
    rw [deleteFix, if_neg hblack, if_neg hsib, if_pos hboth] at hrb ⊢
    refine ends_black h (RbTree.ne_nil_of_bal hbs) (Color.eq_black hsib) _ _
      (fun _ s' hrep => ?_) (fun hone => absurd hboth hone)
    have haddr := addr_mk f.dir f.color t f.elem (f.sib.paint .red)
    by_cases hfc : f.color = .red
    · have hred : (RbTree.mk f.dir f.color t f.elem (f.sib.paint .red)).color = .red := by
        rw [RbTree.color_mk, hfc]
      have hend := itreeDeleteFixupLoop_red hrep hred fuel f.elem
      rw [haddr] at hend
      exact ⟨s', fs, _, hend.trans (by rw [haddr]), hrep, (deleteFix_red fs hred).symm⟩
    · obtain ⟨hbal', hrest⟩ := ctxBal_bothBlack hbal hfs (Color.eq_black hfc)
        (Color.eq_black hsib) hboth
      have hih := ih (p := f.elem) hrep hbal' hrest (fun hnil => absurd hnil RbTree.mk_ne_nil)
        hrb fuel (by simp at hfuel; omega)
      rwa [haddr] at hih
  | case5 f fs t hblack hsib hone =>
    have ht := Color.eq_black hblack
    have hbs := hfs.sib
    obtain ⟨fuel, rfl⟩ : ∃ k, fuel = k + 1 := ⟨fuel - 1, by simp at hfuel; omega⟩
    rw [itreeDeleteFixupLoop_turn h ht (RbTree.ne_nil_of_bal hbs) hp]
    simp only [if_neg hsib]
    rw [deleteFix, if_neg hblack, if_neg hsib, if_neg hone] at hrb ⊢
    refine ends_black h (RbTree.ne_nil_of_bal hbs) (Color.eq_black hsib) _ _
      (fun hboth => absurd hboth hone) (fun _ s' hrep => ?_)
    exact ends_root hrep hrb fuel _

theorem itreeDeleteFixup_spec (fs : List (Frame ℕ))
    (h : Rep s fs t) (hbal : t.Bal n) (hfs : CtxBal fs (n + 1)) (hfuel : fs.length < fuel) :
    ∃ s', itreeDeleteFixup fuel s (addr t) (parent fs) = some s' ∧
      Rep s' [] (deleteFix fs t) := by
  obtain ⟨s', fs', t', hloop, hrep, hplug⟩ :=
    itreeDeleteFixupLoop_spec fs h hbal hfs (fun _ => rfl) hfuel
  have hassert : ¬ (addr t ≠ 0 ∧ s.up (addr t) ≠ parent fs) := by
    rintro ⟨h0, hne⟩
    exact hne (h.up_focus (fun ht => h0 (by rw [ht, addr_nil])))
  refine ⟨if addr t' ≠ 0 then s'.setColor (addr t') .black else s', ?_, ?_⟩
  · simp only [itreeDeleteFixup, hloop, if_neg hassert]
    rfl
  · rw [← hplug, ← rep_plug]
    split
    next h0 => exact setColor_rep .black hrep (fun ht => h0 (by rw [ht, addr_nil]))
    next h0 =>
      have ht := (addr_eq_zero hrep.2.1).mp (not_not.mp h0)
      subst ht
      exact hrep

theorem cut_rep (h : Rep s fs (.mk d c .nil y w)) :
    let s' := replaceChild .left (s.setUpIf (addr w) (parent fs)) (parent fs) y (addr w)
    Rep s' fs w ∧ s'.mem y = s.mem y := by
  intro s'
  obtain ⟨hctx, htree, hnd⟩ := h
  rw [treeAt_mk] at htree
  rw [addr_mk] at hctx
  obtain ⟨hy, hmy, -, hw⟩ := htree
  simp only [List.nodup_append', List.disjoint_left, nodup_mk, mem_toList_mk] at hnd
  obtain ⟨⟨⟨-, hyw⟩, -, hnw, -⟩, hnf, hdisj⟩ := hnd
  have hwf : ∀ i ∈ w.toList, i ∉ ctxList fs := fun i hi => hdisj (Or.inr (Or.inr hi))
  have hyf : y ∉ ctxList fs := hdisj (Or.inl rfl)
  have hmem : ∀ i, i ∉ w.toList → (s.setUpIf (addr w) (parent fs)).mem i = s.mem i := by
    intro i hi
    rw [mem_setUpIf, if_neg]
    rintro ⟨h0, rfl⟩
    exact hi (addr_mem h0)
  have hctx₁ : CtxAt (s.setUpIf (addr w) (parent fs)).mem
      (s.setUpIf (addr w) (parent fs)).rbRoot fs y := by
    rw [rbRoot_setUpIf]
    exact hctx.congr fun i hi => hmem i (fun hiw => hwf i hiw hi)
  obtain ⟨hctx₂, hkeep⟩ := replaceChild_ctx .left (addr w) hctx₁ hnf hyf hy
  refine ⟨⟨hctx₂, ?_, List.nodup_append'.mpr ⟨hnw, hnf, hwf⟩⟩, ?_⟩
  · refine hw.setUp hnw (fun h0 => ?_) (fun i hi hne => ?_)
    · rw [hkeep _ (hwf _ (addr_mem h0)), mem_setUpIf, if_pos ⟨h0, rfl⟩]
    · rw [hkeep _ (hwf _ hi), mem_setUpIf, if_neg (fun hh => hne hh.2)]
  · rw [hkeep y hyf, hmem y hyw]

theorem substitute_rep (h : Rep s fs (.node c l z r)) (hy : y ≠ 0)
    (hyt : y ∉ (RbTree.node c l z r).toList ++ ctxList fs) :
    let s₁ := replaceChild .left s (s.up z) z y
    let s₂ := s₁.setUpIf (s₁.child .left z) y
    let s₃ := s₂.setUpIf (s₂.child .right z) y
    Rep (s₃.write y (s₃.mem z)) fs (.node c l y r) := by
  intro s₁ s₂ s₃
  obtain ⟨hctx, ⟨hz, hmz, hl, hr⟩, hnd⟩ := h
  simp only [RbTree.toList, List.nodup_append', List.disjoint_left, List.nodup_cons, List.mem_append,
    List.mem_cons, not_or] at hnd hyt
  obtain ⟨⟨hnl, ⟨hzr, hnr⟩, hlr⟩, hnf, hdisj⟩ := hnd
  obtain ⟨⟨hyl, hyz, hyr⟩, hyf⟩ := hyt
  have hzf : z ∉ ctxList fs := hdisj (Or.inr (Or.inl rfl))
  have hlf : ∀ i ∈ l.toList, i ∉ ctxList fs := fun i hi => hdisj (Or.inl hi)
  have hrf : ∀ i ∈ r.toList, i ∉ ctxList fs := fun i hi => hdisj (Or.inr (Or.inr hi))
  have hzl : z ∉ l.toList := fun hzl => (hlr hzl).1 rfl
  have hlmem : addr l ≠ 0 → addr l ∈ l.toList := addr_mem
  have hrmem : addr r ≠ 0 → addr r ∈ r.toList := addr_mem
  have hup : s.up z = parent fs := by rw [up, hmz]
  obtain ⟨hctx₁, hkeep⟩ := replaceChild_ctx (x := z) .left y hctx hnf hzf hz
  have hs₁ : s₁ = replaceChild .left s (parent fs) z y := by simp only [s₁, hup]
  rw [← hs₁] at hctx₁ hkeep
  have hleft : s₁.child .left z = addr l := by
    rw [child, hkeep z hzf, hmz]
    rfl
  have hmem₂ : ∀ i, i ∉ l.toList → s₂.mem i = s₁.mem i := by
    intro i hi
    simp only [s₂, hleft]
    rw [mem_setUpIf, if_neg]
    rintro ⟨h0, rfl⟩
    exact hi (hlmem h0)
  have hright : s₂.child .right z = addr r := by
    rw [child, hmem₂ z hzl, hkeep z hzf, hmz]
    rfl
  have hmem₃ : ∀ i, i ∉ r.toList → s₃.mem i = s₂.mem i := by
    intro i hi
    simp only [s₃, hright]
    rw [mem_setUpIf, if_neg]
    rintro ⟨h0, rfl⟩
    exact hi (hrmem h0)
  have hmz₃ : s₃.mem z = s.mem z := by rw [hmem₃ z hzr, hmem₂ z hzl, hkeep z hzf]
  have hfinal : ∀ i, i ≠ y → (s₃.write y (s₃.mem z)).mem i = s₃.mem i := by
    intro i hi
    rw [mem_write, if_neg hi]
  have hroot : (s₃.write y (s₃.mem z)).rbRoot = s₁.rbRoot := by
    change s₃.rbRoot = s₁.rbRoot
    simp only [s₃, s₂, rbRoot_setUpIf]
  refine ⟨?_, ⟨hy, ?_, ?_, ?_⟩, ?_⟩
  · rw [hroot]
    refine hctx₁.congr fun i hi => ?_
    rw [hfinal i (fun hiy => hyf (hiy ▸ hi)), hmem₃ i (fun hir => hrf i hir hi),
      hmem₂ i (fun hil => hlf i hil hi)]
  · rw [mem_write, if_pos rfl, hmz₃, hmz]
  · refine hl.setUp hnl (fun h0 => ?_) (fun i hi hne => ?_)
    · have hlm := hlmem h0
      rw [hfinal _ (fun hiy => hyl (hiy ▸ hlm)), hmem₃ _ (hlr hlm).2]
      simp only [s₂, hleft]
      rw [mem_setUpIf, if_pos ⟨h0, rfl⟩, hkeep _ (hlf _ hlm)]
    · rw [hfinal _ (fun hiy => hyl (hiy ▸ hi)), hmem₃ _ (hlr hi).2]
      simp only [s₂, hleft]
      rw [mem_setUpIf, if_neg (fun hh => hne hh.2), hkeep _ (hlf _ hi)]
  · have hnotl : ∀ i ∈ r.toList, i ∉ l.toList := fun i hi hil => (hlr hil).2 hi
    refine hr.setUp hnr (fun h0 => ?_) (fun i hi hne => ?_)
    · have hrm := hrmem h0
      rw [hfinal _ (fun hiy => hyr (hiy ▸ hrm))]
      simp only [s₃, hright]
      rw [mem_setUpIf, if_pos ⟨h0, rfl⟩, hmem₂ _ (hnotl _ hrm), hkeep _ (hrf _ hrm)]
    · rw [hfinal _ (fun hiy => hyr (hiy ▸ hi))]
      simp only [s₃, hright]
      rw [mem_setUpIf, if_neg (fun hh => hne hh.2), hmem₂ _ (hnotl _ hi), hkeep _ (hrf _ hi)]
  · simp only [RbTree.toList, List.nodup_append', List.disjoint_left, List.nodup_cons, List.mem_append,
      List.mem_cons, not_or]
    refine ⟨⟨hnl, ⟨hyr, hnr⟩, fun i hi => ⟨fun hiy => hyl (hiy ▸ hi), (hlr hi).2⟩⟩, hnf, ?_⟩
    rintro i (hi | rfl | hi)
    · exact hlf i hi
    · exact hyf
    · exact hrf i hi

theorem itreeMinimum_left (h : Rep s fs t) (ht : t ≠ .nil) (hfuel : t.toList.length < fuel) :
    ∃ gs c m r, itreeMinimum s fuel (addr t) = some m ∧ plug gs (.node c .nil m r) = t ∧
      leftOf gs = [] := by
  induction fuel generalizing fs t with
  | zero => omega
  | succ fuel ih =>
    obtain ⟨c, l, x, r, rfl⟩ := RbTree.exists_mk .left ht
    have hleft : s.child .left x = addr l := by rw [child, h.focus.2, ItreeEntry.child_at]
    have hl := (rep_cons s ⟨.left, c, x, r⟩ fs l).mpr h
    rw [addr_mk, itreeMinimum, hleft]
    by_cases hnil : l = .nil
    · subst hnil
      exact ⟨[], c, x, r, by simp, rfl, rfl⟩
    · have h0 : addr l ≠ 0 := fun h0 => hnil ((addr_eq_zero hl.2.1).mp h0)
      have hlen : l.toList.length < fuel := by
        simp only [RbTree.mk, RbTree.toList, List.length_append, List.length_cons] at hfuel
        omega
      obtain ⟨gs, cm, m, rm, hmin, hplug, hgs⟩ := ih hl hnil hlen
      refine ⟨gs ++ [⟨.left, c, x, r⟩], cm, m, rm, ?_, ?_, ?_⟩
      · simp only [if_pos h0]
        exact hmin
      · rw [plug_append, hplug]
        rfl
      · rw [leftOf_append, hgs]
        rfl

theorem itreeMinimum_spec (h : Rep s fs t) (ht : t ≠ .nil) (hfuel : t.toList.length < fuel) :
    ∃ gs c m r, itreeMinimum s fuel (addr t) = some m ∧ plug gs (.node c .nil m r) = t ∧
      ∃ after, ∀ u, (plug gs u).toList = u.toList ++ after := by
  obtain ⟨gs, c, m, r, hmin, hplug, hgs⟩ := itreeMinimum_left h ht hfuel
  refine ⟨gs, c, m, r, hmin, hplug, rightOf gs, fun u => ?_⟩
  rw [toList_plug_eq, hgs, List.nil_append]

end Itree

theorem ctxList_append (gs fs : List (Frame ℕ)) :
    ctxList (gs ++ fs) = ctxList gs ++ ctxList fs := by
  induction gs with
  | nil => rfl
  | cons g gs ih => simp [ctxList, ih]

theorem rep_append (s : Itree) (gs fs : List (Frame ℕ)) (t : RbTree ℕ) :
    Rep s (gs ++ fs) t ↔ Rep s fs (plug gs t) := by
  rw [rep_plug, plug_append, ← rep_plug]

theorem exists_focus (h : z ∈ t.toList) : ∃ fs c l r, plug fs (.node c l z r) = t := by
  induction t with
  | nil => simp [RbTree.toList] at h
  | node c l x r ihl ihr =>
    simp only [RbTree.toList, List.mem_append, List.mem_cons] at h
    rcases h with h | rfl | h
    · obtain ⟨fs, c', l', r', hplug⟩ := ihl h
      exact ⟨fs ++ [⟨.left, c, x, r⟩], c', l', r', by rw [plug_append, hplug]; rfl⟩
    · exact ⟨[], c, l, r, rfl⟩
    · obtain ⟨fs, c', l', r', hplug⟩ := ihr h
      exact ⟨fs ++ [⟨.right, c, x, l⟩], c', l', r', by rw [plug_append, hplug]; rfl⟩

namespace Itree

theorem finish_spec (fs : List (Frame ℕ)) (h : Rep s fs w) (hbal : (RbTree.mk d c .nil y w).Bal n)
    (hfs : CtxBal fs n) (hfuel : fs.length < fuel) :
    ∃ s', (if ItreeColor.of c = .black then itreeDeleteFixup fuel s (addr w) (parent fs)
        else some s) = some s' ∧ Rep s' [] (cutFix c fs w) := by
  cases c with
  | black =>
    obtain ⟨m, rfl, -, hw⟩ := (RbTree.bal_black ..).mp hbal
    exact itreeDeleteFixup_spec fs h hw hfs hfuel
  | red => exact ⟨s, rfl, (rep_plug ..).mp h⟩

theorem itreeDelete_one (h : Rep s fs (.mk d c .nil z w)) (hrb : RB (plug fs (.mk d c .nil z w)))
    (hfuel : fs.length < fuel) :
    ∃ s', itreeDelete fuel s z = some s' ∧ Rep s' [] (cutFix c fs w) := by
  obtain ⟨n, hbal, hfs, -⟩ := bal_of_rb_plug hrb
  obtain ⟨hrep, hmem⟩ := cut_rep h
  obtain ⟨s', hend, hrest⟩ := finish_spec fs hrep hbal hfs hfuel
  refine ⟨s', ?_, hrest⟩
  have hm := h.focus.2
  have hz : z ≠ 0 := h.focus.1
  have hnot : ¬ (s.child .left z ≠ 0 ∧ s.child .right z ≠ 0) := by
    cases d <;> simp [child, hm, ItreeEntry.at, ItreeEntry.child]
  have hx : (if s.child .left z ≠ 0 then s.child .left z else s.child .right z) = addr w := by
    cases d with
    | left => simp [child, hm, ItreeEntry.at, ItreeEntry.child]
    | right =>
      simp only [child, hm, ItreeEntry.at, ItreeEntry.child, addr_nil]
      split <;> simp_all
  have hup : s.up z = parent fs := by rw [up, hm, ItreeEntry.rbeUp_at]
  have hcol : (replaceChild .left (s.setUpIf (addr w) (parent fs)) (parent fs) z
      (addr w)).color z = .of c := by
    rw [color, if_neg hz, hmem, hm, ItreeEntry.rbeColor_at]
  simp only [itreeDelete, if_neg hnot, Option.bind_eq_bind, Option.bind_some, hx, hup, hcol,
    ne_eq, not_true_eq_false, false_and, if_false]
  exact hend

/-- Deletion of a node with two children: its successor is cut out and takes its place. -/
theorem itreeDelete_two (h : Rep s fs (.node c l z r)) (hrb : RB (plug fs (.node c l z r)))
    (hl : l ≠ .nil) (hr : r ≠ .nil) (hfuel : (plug fs (.node c l z r)).toList.length < fuel) :
    ∃ s' t', itreeDelete fuel s z = some s' ∧ Rep s' [] t' ∧ Deleted fs (.node c l z r) t' := by
  have hm := h.focus (d := .left)
  obtain ⟨hz, hm⟩ := hm
  have hleft : s.child .left z = addr l := by rw [child, hm, ItreeEntry.child_at]
  have hright : s.child .right z = addr r := by rw [child, hm]; rfl
  have hl0 : addr l ≠ 0 := fun h0 => hl ((addr_eq_zero h.2.1.2.2.1).mp h0)
  have hr0 : addr r ≠ 0 := fun h0 => hr ((addr_eq_zero h.2.1.2.2.2).mp h0)
  have hrr : Rep s (⟨.right, c, z, l⟩ :: fs) r := (rep_cons ..).mpr h
  have hrlen : r.toList.length < fuel := by
    have hlen := (toList_plug_perm fs (.node c l z r)).length_eq
    simp only [RbTree.toList, List.length_append, List.length_cons] at hlen hfuel
    omega
  obtain ⟨gs, cy, y, ry, hmin, hplug, hgs⟩ := itreeMinimum_left hrr hr hrlen
  have hsucc : itreeSuccessor fuel s z = some y := by
    simp only [itreeSuccessor, hright, if_pos hr0, hmin]
  have hplug' : plug (gs ++ ⟨.right, c, z, l⟩ :: fs) (.node cy .nil y ry) =
      plug fs (.node c l z r) := by
    rw [plug_append, hplug]
    rfl
  have hy : Rep s (gs ++ ⟨.right, c, z, l⟩ :: fs) (.mk .left cy .nil y ry) := by
    rw [rep_append]
    exact hplug ▸ hrr
  obtain ⟨hrep, hmemy⟩ := cut_rep hy
  have hy0 : y ≠ 0 := hy.focus.1
  have hmy := hy.focus.2
  have hF : plug (gs ++ ⟨.right, c, z, l⟩ :: fs) ry = plug fs (.node c l z (plug gs ry)) := by
    rw [plug_append]
    rfl
  have hnd := hy.2.2
  simp only [RbTree.mk, RbTree.toList, List.nil_append, List.cons_append, List.nodup_cons] at hnd
  have hyF : y ∉ (RbTree.node c l z (plug gs ry)).toList ++ ctxList fs := by
    rw [← (toList_plug_perm fs _).mem_iff, ← hF, (toList_plug_perm _ _).mem_iff]
    exact hnd.1
  have hyz : y ≠ z := by
    rintro rfl
    exact hyF (by simp [RbTree.toList])
  have hrep₁ := (rep_cons ..).mp ((rep_append ..).mp hrep)
  have hrep₂ := substitute_rep (c := c) (l := l) (r := plug gs ry) hrep₁ hy0 hyF
  have hrep₃ := (rep_append _ gs _ ry).mpr ((rep_cons _ ⟨.right, c, y, l⟩ fs _).mpr hrep₂)
  obtain ⟨n, hbal, hctx, -⟩ := bal_of_rb_plug (hplug' ▸ hrb)
  have hlen : (gs ++ ⟨.right, c, y, l⟩ :: fs).length < fuel := by
    have hle := length_le_toList_plug (gs ++ ⟨.right, c, z, l⟩ :: fs) (.node cy .nil y ry)
    rw [hplug'] at hle
    simp only [List.length_append, List.length_cons] at hle ⊢
    omega
  obtain ⟨s', hend, hrep'⟩ :=
    finish_spec _ hrep₃ (d := .left) hbal ((ctxBal_elem ..).mp hctx) hlen
  refine ⟨s', _, ?_, hrep', hplug ▸ .two fs gs c cy l z y ry hgs⟩
  · have hboth : s.child .left z ≠ 0 ∧ s.child .right z ≠ 0 := by
      rw [hleft, hright]
      exact ⟨hl0, hr0⟩
    have hx : (if s.child .left y ≠ 0 then s.child .left y else s.child .right y) =
        addr ry := by
      simp [child, hmy, ItreeEntry.at, ItreeEntry.child]
    have hup : s.up y = parent (gs ++ ⟨.right, c, z, l⟩ :: fs) := by
      rw [up, hmy, ItreeEntry.rbeUp_at]
    have hcol : (replaceChild .left (s.setUpIf (addr ry) (parent (gs ++ ⟨.right, c, z, l⟩ :: fs)))
        (parent (gs ++ ⟨.right, c, z, l⟩ :: fs)) y (addr ry)).color y = .of cy := by
      rw [color, if_neg hy0, hmemy, hmy, ItreeEntry.rbeColor_at]
    have hp : (if parent (gs ++ ⟨.right, c, z, l⟩ :: fs) = z then y
        else parent (gs ++ ⟨.right, c, z, l⟩ :: fs)) =
          parent (gs ++ ⟨.right, c, y, l⟩ :: fs) := by
      cases gs with
      | nil => simp [parent]
      | cons g gs =>
        have hgz : g.elem ≠ z := by
          have hg := (List.nodup_cons.mp (List.nodup_append'.mp hnd.2).2.1).1
          rintro rfl
          exact hg (by simp [ctxList, ctxList_append])
        simp [parent, hgz]
    simp only [itreeDelete, if_pos hboth, hsucc, Option.bind_eq_bind, Option.bind_some, hx, hup,
      hcol, ne_eq, hyz, not_false_eq_true, true_and, if_true, hp]
    exact hend

theorem itreeDelete_focus (h : Rep s fs (.node c l z r)) (hrb : RB (plug fs (.node c l z r)))
    (hfuel : (plug fs (.node c l z r)).toList.length < fuel) :
    ∃ s' t', itreeDelete fuel s z = some s' ∧ Rep s' [] t' ∧ Deleted fs (.node c l z r) t' := by
  have hlen := Nat.lt_of_le_of_lt (length_le_toList_plug fs (.node c l z r)) hfuel
  by_cases hl : l = .nil
  · subst hl
    obtain ⟨s', hdel, hrep⟩ := itreeDelete_one (d := .left) h hrb hlen
    exact ⟨s', _, hdel, hrep, .one fs .left c z r⟩
  · by_cases hr : r = .nil
    · subst hr
      obtain ⟨s', hdel, hrep⟩ := itreeDelete_one (d := .right) h hrb hlen
      exact ⟨s', _, hdel, hrep, .one fs .right c z l⟩
    · exact itreeDelete_two h hrb hl hr hfuel

theorem itreeDelete_spec (h : Rep s [] t)
    (hrb : RB t) (hz : z ∈ t.toList) (hfuel : t.toList.length < fuel) :
    ∃ s' t', itreeDelete fuel s z = some s' ∧ Rep s' [] t' ∧ RB t' ∧
      ∃ before after, t.toList = before ++ z :: after ∧ t'.toList = before ++ after := by
  obtain ⟨fs, c, l, r, rfl⟩ := exists_focus hz
  obtain ⟨s', t', hdel, hrep, hcut⟩ := itreeDelete_focus ((rep_plug ..).mpr h) hrb hfuel
  obtain ⟨hrb', hsplit, hlist⟩ := hcut.split hrb
  exact ⟨s', t', hdel, hrep, hrb', _, _, hsplit, hlist⟩

end Itree

end Sfslite.Async
