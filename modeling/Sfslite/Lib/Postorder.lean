import Sfslite.Lib.RedBlackCut

/-!
A walk in postorder that deletes each node it leaves. After the deletion the node that was known to
be next is the first one of the new tree, as long as every node off the left edge has two children
or none.
-/

namespace Sfslite.Lib.RedBlack

variable {α : Type*} {fs gs : List (Frame α)} {l r s t u w : RbTree α} {n : ℕ} {x y : α}
variable {c : Color}

namespace RbTree

/-- The first node in postorder: the end of the way that goes left where it can, else right. -/
def postFirst : RbTree α → Option α
  | nil => none
  | node _ l x r => (l.postFirst.or r.postFirst).or (some x)

/-- Every node has two children or none. -/
def Full : RbTree α → Prop
  | nil => True
  | node _ l _ r => (l = nil ↔ r = nil) ∧ l.Full ∧ r.Full

/-- Every node off the left edge has two children or none. -/
def EdgeFull : RbTree α → Prop
  | nil => True
  | node _ l _ r => l.EdgeFull ∧ r.Full

@[simp] theorem postFirst_nil : (nil : RbTree α).postFirst = none := rfl

@[simp] theorem full_nil : (nil : RbTree α).Full := trivial

@[simp] theorem edgeFull_nil : (nil : RbTree α).EdgeFull := trivial

@[simp] theorem edgeFull_node : (node c l x r).EdgeFull ↔ l.EdgeFull ∧ r.Full := Iff.rfl

@[simp] theorem full_leaf : (node c nil x nil).Full := ⟨Iff.rfl, trivial, trivial⟩

@[simp] theorem postFirst_leaf : (node c nil x nil).postFirst = some x := rfl

@[simp] theorem postFirst_paint : (t.paint c).postFirst = t.postFirst := by cases t <;> rfl

@[simp] theorem full_paint : (t.paint c).Full ↔ t.Full := by cases t <;> rfl

@[simp] theorem edgeFull_paint : (t.paint c).EdgeFull ↔ t.EdgeFull := by cases t <;> rfl

theorem node_ne_nil : node c l x r ≠ nil := nofun

theorem full_node (hl : l ≠ nil) (hr : r ≠ nil) : (node c l x r).Full ↔ l.Full ∧ r.Full := by
  simp [Full, hl, hr]

@[simp] theorem postFirst_eq_none : t.postFirst = none ↔ t = nil := by
  cases t with
  | nil => simp
  | node c l x r => simp [postFirst]

theorem ne_nil_of_postFirst (h : s.postFirst = t.postFirst) (ht : t ≠ nil) : s ≠ nil := by
  rintro rfl
  exact ht (postFirst_eq_none.mp h.symm)

theorem postFirst_left (hl : l ≠ nil) : (node c l x r).postFirst = l.postFirst := by
  cases h : l.postFirst with
  | none => exact absurd (postFirst_eq_none.mp h) hl
  | some y => simp [postFirst, h]

theorem postFirst_right (hr : r ≠ nil) : (node c nil x r).postFirst = r.postFirst := by
  cases h : r.postFirst with
  | none => exact absurd (postFirst_eq_none.mp h) hr
  | some y => simp [postFirst, h]

theorem postFirst_mem (h : t.postFirst = some y) : y ∈ t.toList := by
  induction t with
  | nil => cases h
  | node c l x r ihl ihr =>
    simp only [postFirst, Option.or_eq_some_iff] at h
    simp only [toList, List.mem_append, List.mem_cons]
    grind

theorem bal_zero (h : t.Bal 0) : t = nil ∨ ∃ x, t = node .red nil x nil := by
  cases t with
  | nil => exact .inl rfl
  | node c l x r =>
    cases c with
    | black =>
      obtain ⟨m, hm, -⟩ := h
      omega
    | red =>
      obtain ⟨hlc, hrc, hl, hr⟩ := h
      have hnil : ∀ v : RbTree α, v.color = .black → v.Bal 0 → v = nil := by
        intro v hc hb
        cases v with
        | nil => rfl
        | node c' l' y r' =>
          cases hc
          obtain ⟨m, hm, -⟩ := hb
          omega
      exact .inr ⟨x, by rw [hnil l hlc hl, hnil r hrc hr]⟩

end RbTree

open RbTree

/-- The node after the one in the hole, in postorder. -/
def postNext : List (Frame α) → Option α
  | [] => none
  | f :: _ =>
    match f.dir with
    | .left => f.sib.postFirst.or (some f.elem)
    | .right => some f.elem

theorem postNext_mem (h : postNext fs = some y) : y ∈ leftOf fs ∨ y ∈ rightOf fs := by
  cases fs with
  | nil => cases h
  | cons f fs =>
    obtain ⟨d, c, x, s⟩ := f
    cases d with
    | left =>
      right
      rcases Option.or_eq_some_iff.mp h with hs | ⟨-, hx⟩
      · simp [rightOf, postFirst_mem hs]
      · cases hx
        simp [rightOf]
    | right =>
      cases h
      simp [leftOf]

theorem leftOf_cons_eq_nil {f : Frame α} :
    leftOf (f :: fs) = [] ↔ f.dir = .left ∧ leftOf fs = [] := by
  obtain ⟨d, c, x, s⟩ := f
  cases d <;> simp [leftOf]

theorem postFirst_plug (hfs : leftOf fs = []) (ht : t ≠ nil) :
    (plug fs t).postFirst = t.postFirst := by
  induction fs generalizing t with
  | nil => rfl
  | cons f fs ih =>
    obtain ⟨hd, hfs⟩ := leftOf_cons_eq_nil.mp hfs
    rw [plug, ih hfs mk_ne_nil, hd]
    exact postFirst_left ht

theorem edgeFull_plug (hfs : leftOf fs = []) :
    (plug fs t).EdgeFull ↔ t.EdgeFull ∧ ∀ f ∈ fs, f.sib.Full := by
  induction fs generalizing t with
  | nil => simp [plug]
  | cons f fs ih =>
    obtain ⟨hd, hfs⟩ := leftOf_cons_eq_nil.mp hfs
    rw [plug, ih hfs, hd]
    simp [mk, and_assoc]

theorem deleteEnd_edge (ht : t ≠ nil) (hs : s.Bal (n + 2)) (hsc : s.color = .black)
    (hone : ¬ bothBlack .left s) :
    (deleteEnd .left c t x s).postFirst = t.postFirst ∧
      ((deleteEnd .left c t x s).EdgeFull ↔ t.EdgeFull ∧ s.Full) := by
  obtain ⟨cs, b, y, e, rfl⟩ := exists_mk .left (ne_nil_of_bal hs)
  rw [color_mk] at hsc
  subst hsc
  obtain ⟨m, hm, hb, he⟩ := (bal_black ..).mp hs
  obtain rfl : m = n + 1 := by omega
  have hb0 := ne_nil_of_bal hb
  have he0 := ne_nil_of_bal he
  simp only [bothBlack, near_mk, near_other_mk] at hone
  have hfull := full_node (c := .black) (x := y) hb0 he0
  by_cases hec : e.color = .red
  · rw [deleteEnd_far hec]
    simp only [mk] at hfull ⊢
    constructor
    · exact (postFirst_left node_ne_nil).trans (postFirst_left ht)
    · simp [hfull, and_assoc]
  · have hec' := Color.eq_black hec
    have hbc : b.color = .red := Color.eq_red fun hbc => hone ⟨hbc, hec'⟩
    obtain ⟨cb, b₁, z, b₂, rfl⟩ := exists_mk .left hb0
    rw [color_mk] at hbc
    subst hbc
    obtain ⟨-, -, hb₁, hb₂⟩ := (bal_red ..).mp hb
    have hb₁0 := ne_nil_of_bal hb₁
    have hb₂0 := ne_nil_of_bal hb₂
    rw [deleteEnd_near hec']
    simp only [mk] at hfull ⊢
    constructor
    · exact (postFirst_left node_ne_nil).trans (postFirst_left ht)
    · simp [hfull, full_node hb₁0 hb₂0, full_node hb₂0 he0, and_assoc]

theorem deleteFix_edge (fs : List (Frame α)) (hedge : leftOf fs = []) (ht : t.Bal (n + 1))
    (hfs : CtxBal fs (n + 2)) :
    (deleteFix fs t).postFirst = t.postFirst ∧
      ((deleteFix fs t).EdgeFull ↔ t.EdgeFull ∧ ∀ f ∈ fs, f.sib.Full) := by
  induction fs, t using deleteFix.induct generalizing n with
  | case1 t => simp [deleteFix]
  | case2 f fs t hred =>
    have ht0 := ne_nil_of_postFirst (postFirst_paint (c := .black)) (ne_nil_of_bal ht)
    rw [deleteFix_red _ hred, postFirst_plug hedge ht0, edgeFull_plug hedge]
    simp
  | case3 f fs t hblack hsib =>
    have ht0 := ne_nil_of_bal ht
    have hs := hfs.sib
    obtain ⟨d, c, x, s⟩ := f
    obtain ⟨hd, hrest⟩ := leftOf_cons_eq_nil.mp hedge
    simp only at hd hs hsib
    subst hd
    obtain ⟨cs, b, y, e, rfl⟩ := exists_mk .left (ne_nil_of_red hsib)
    rw [color_mk] at hsib
    subst hsib
    obtain ⟨hbc, -, hb, he⟩ := (bal_red ..).mp hs
    have hb0 := ne_nil_of_bal hb
    have he0 := ne_nil_of_bal he
    have hinner : ∀ v : RbTree α, v ≠ nil → v.postFirst = t.postFirst →
        (v.EdgeFull ↔ t.EdgeFull ∧ b.Full) →
        (plug fs (mk .left .black v y e)).postFirst = t.postFirst ∧
          ((plug fs (mk .left .black v y e)).EdgeFull ↔
            t.EdgeFull ∧ ∀ f ∈ (⟨.left, c, x, mk .left .red b y e⟩ :: fs : List (Frame α)),
              f.sib.Full) := by
      intro v hv hfirst hfull
      rw [postFirst_plug hrest mk_ne_nil, edgeFull_plug hrest]
      constructor
      · exact (postFirst_left hv).trans hfirst
      · simp [mk, hfull, full_node hb0 he0, and_assoc]
    rw [deleteFix, if_neg hblack, if_pos (color_mk ..)]
    simp only [near_mk, setNear_mk, paint_mk]
    split
    next hboth =>
      apply hinner _ mk_ne_nil
      · exact postFirst_left ht0
      · simp [mk]
    next hone =>
      obtain ⟨hfirst, hfull⟩ := deleteEnd_edge (c := .red) (x := x) ht0 hb hbc hone
      exact hinner _ (ne_nil_of_postFirst hfirst ht0) hfirst hfull
  | case4 f fs t hblack hsib hboth ih =>
    have ht0 := ne_nil_of_bal ht
    have hctx := ctxBal_bothBlack ht hfs
    rw [deleteFix, if_neg hblack, if_neg hsib, if_pos hboth]
    obtain ⟨d, c, x, s⟩ := f
    obtain ⟨hd, hrest⟩ := leftOf_cons_eq_nil.mp hedge
    simp only at hd
    subst hd
    have hfirst : (mk .left c t x (s.paint .red)).postFirst = t.postFirst := postFirst_left ht0
    have hfull : (mk .left c t x (s.paint .red)).EdgeFull ↔ t.EdgeFull ∧ s.Full := by simp [mk]
    by_cases hfc : c = .red
    · have hred : (mk .left c t x (s.paint .red)).color = .red := by rw [color_mk, hfc]
      have hpaint := ne_nil_of_postFirst (postFirst_paint (c := .black))
        (mk_ne_nil (d := .left) (c := c) (a := t) (x := x) (b := s.paint .red))
      rw [deleteFix_red _ hred, postFirst_plug hrest hpaint, edgeFull_plug hrest,
        postFirst_paint, edgeFull_paint, hfirst, hfull]
      simp [and_assoc]
    · obtain ⟨hbal, hup⟩ := hctx (Color.eq_black hfc) (Color.eq_black hsib) hboth
      obtain ⟨hfirst', hfull'⟩ := ih hrest hbal hup
      simp only at hfirst' hfull' ⊢
      rw [hfirst', hfull', hfirst, hfull]
      simp [and_assoc]
  | case5 f fs t hblack hsib hone =>
    have ht0 := ne_nil_of_bal ht
    have hs := hfs.sib
    rw [deleteFix, if_neg hblack, if_neg hsib, if_neg hone]
    obtain ⟨d, c, x, s⟩ := f
    obtain ⟨hd, hrest⟩ := leftOf_cons_eq_nil.mp hedge
    simp only at hd
    subst hd
    obtain ⟨hfirst, hfull⟩ := deleteEnd_edge (c := c) (x := x) ht0 hs (Color.eq_black hsib) hone
    rw [postFirst_plug hrest (ne_nil_of_postFirst hfirst ht0), edgeFull_plug hrest]
    simp [hfirst, hfull, and_assoc]

/-- The sibling of a black leaf that has been cut out: what comes into the place of the parent `x`
starts with the first node of the sibling exactly when the sibling is full. -/
theorem lowest_edge {k : Color} (hw : w.Bal 1) (hwc : w.color = .black) (hx : x ∉ w.toList) :
    let v := if bothBlack .left w then mk .left k nil x (w.paint .red)
      else deleteEnd .left c nil x w
    v ≠ nil ∧ v.EdgeFull ∧ (w.postFirst = v.postFirst ↔ w.Full) := by
  obtain ⟨cw, b, y, e, rfl⟩ := exists_mk .left (ne_nil_of_bal hw)
  rw [color_mk] at hwc
  subst hwc
  obtain ⟨m, hm, hb, he⟩ := (bal_black ..).mp hw
  obtain rfl : m = 0 := by omega
  simp only [mk, toList, List.mem_append, List.mem_cons, not_or] at hx
  intro v
  rcases bal_zero hb with rfl | ⟨z, rfl⟩
  · rcases bal_zero he with rfl | ⟨z', rfl⟩
    · have hv : v = node k nil x (node .red nil y nil) := rfl
      simp [hv, mk, postFirst]
    · -- the far nephew alone is first, but after the rotation `x` is
      have hv : v = node c (node .black nil x nil) y (node .black nil z' nil) := rfl
      simp only [toList, List.nil_append, List.mem_singleton] at hx
      simp [hv, mk, postFirst, Full, Ne.symm hx.2.2]
  · rcases bal_zero he with rfl | ⟨z', rfl⟩
    · -- the near nephew alone, in the same way
      have hv : v = node c (node .black nil x nil) z (node .black nil y nil) := rfl
      simp only [toList, List.nil_append, List.mem_singleton] at hx
      simp [hv, mk, postFirst, Full, Ne.symm hx.1]
    · have hv : v = node c (node .black nil x (node .red nil z nil)) y (node .black nil z' nil) :=
        rfl
      simp [hv, mk, postFirst, Full]

theorem postFirst_or (ht : t ≠ nil) (o : Option α) : t.postFirst.or o = t.postFirst := by
  cases h : t.postFirst with
  | none => exact absurd (postFirst_eq_none.mp h) ht
  | some y => rfl

theorem cutBlack_edge {f : Frame α} (hedge : leftOf (f :: fs) = []) (hfs : CtxBal (f :: fs) 1)
    (hx : f.elem ∉ f.sib.toList) :
    postNext (f :: fs) = (deleteFix (f :: fs) nil).postFirst ∧ (deleteFix (f :: fs) nil).EdgeFull ↔
      ∀ g ∈ f :: fs, g.sib.Full := by
  have hctx := ctxBal_bothBlack (t := nil) (n := 0) rfl hfs
  have hs := hfs.sib
  have hs0 := ne_nil_of_bal hs
  obtain ⟨d, cf, u, s⟩ := f
  obtain ⟨hd, hrest⟩ := leftOf_cons_eq_nil.mp hedge
  simp only at hd hs hs0 hx
  subst hd
  have hnext : postNext (⟨.left, cf, u, s⟩ :: fs) = s.postFirst := postFirst_or hs0 _
  have hblack : ¬ (nil : RbTree α).color = .red := nofun
  rw [hnext, List.forall_mem_cons, deleteFix, if_neg hblack]
  by_cases hsib : s.color = .red
  · obtain ⟨cs, w, y, e, rfl⟩ := exists_mk .left hs0
    rw [color_mk] at hsib
    subst hsib
    obtain ⟨hwc, -, hw, he⟩ := (bal_red ..).mp hs
    have hw0 := ne_nil_of_bal hw
    have hxw : u ∉ w.toList := by
      intro hmem
      exact hx (by simp [mk, toList, hmem])
    obtain ⟨hv0, hvfull, hvfirst⟩ := lowest_edge (c := .red) (k := .black) hw hwc hxw
    rw [if_pos (color_mk ..)]
    simp only [near_mk, setNear_mk, paint_mk]
    rw [postFirst_plug hrest mk_ne_nil, edgeFull_plug hrest]
    simp only [mk] at hv0 hvfull hvfirst ⊢
    rw [postFirst_left hw0, postFirst_left hv0, hvfirst, edgeFull_node,
      full_node hw0 (ne_nil_of_bal he)]
    tauto
  · have hsc := Color.eq_black hsib
    obtain ⟨hv0, hvfull, hvfirst⟩ := lowest_edge (c := cf) (k := cf) hs hsc hx
    rw [if_neg hsib]
    by_cases hboth : bothBlack .left s
    · simp only [if_pos hboth] at hv0 hvfull hvfirst ⊢
      by_cases hfc : cf = .red
      · have hpaint := ne_nil_of_postFirst (postFirst_paint (c := .black)) hv0
        rw [deleteFix_red _ (by rw [color_mk, hfc]), postFirst_plug hrest hpaint,
          edgeFull_plug hrest, postFirst_paint, edgeFull_paint, hvfirst]
        tauto
      · obtain ⟨hbal, hup⟩ := hctx (Color.eq_black hfc) hsc hboth
        obtain ⟨hfirst, hfull⟩ := deleteFix_edge fs hrest hbal hup
        simp only at hfirst hfull
        rw [hfirst, hfull, hvfirst]
        tauto
    · simp only [if_neg hboth] at hv0 hvfull hvfirst ⊢
      rw [postFirst_plug hrest hv0, edgeFull_plug hrest, hvfirst]
      tauto

/-- A leaf at the end of the left edge is cut out: the walk goes on at the first node of the new
tree, and that one's edge is full, exactly when the edge was full. -/
theorem cut_edge (hedge : leftOf fs = []) (hrb : RB (plug fs (node c nil x nil)))
    (hnd : (plug fs (node c nil x nil)).toList.Nodup) :
    postNext fs = (cutFix c fs nil).postFirst ∧ (cutFix c fs nil).EdgeFull ↔
      (plug fs (node c nil x nil)).EdgeFull := by
  obtain ⟨n, hbal, hfs, -⟩ := bal_of_rb_plug hrb
  rw [edgeFull_plug hedge]
  cases fs with
  | nil => cases c <;> simp [deleteFix, plug, postNext, paint]
  | cons f fs =>
    cases c with
    | red =>
      obtain ⟨hd, hrest⟩ := leftOf_cons_eq_nil.mp hedge
      have hcut : cutFix .red (f :: fs) nil = plug fs (node f.color nil f.elem f.sib) := by
        rw [cutFix_red, plug, hd]
        rfl
      rw [hcut, postFirst_plug hrest node_ne_nil, edgeFull_plug hrest]
      simp [postNext, hd, postFirst]
    | black =>
      obtain ⟨m, rfl, hm, -⟩ := hbal
      obtain rfl : m = 0 := hm
      have hx : f.elem ∉ f.sib.toList := by
        obtain ⟨hd, -⟩ := leftOf_cons_eq_nil.mp hedge
        rw [toList_plug_eq, hedge] at hnd
        simp only [rightOf, hd, toList, List.nil_append, List.singleton_append,
          List.nodup_cons, List.nodup_append, List.mem_append, not_or] at hnd
        exact hnd.2.1.1
      rw [cutFix_black, cutBlack_edge hedge hfs hx]
      simp

end Sfslite.Lib.RedBlack
