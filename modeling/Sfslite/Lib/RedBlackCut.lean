import Mathlib.Data.List.Nodup
import Sfslite.Lib.RedBlack

/-!
What a deletion leaves of a red-black tree. The node in focus is cut out, or its successor is cut
out and takes its place, and the missing black node is made up for on the way to the root.
-/

namespace Sfslite.Lib.RedBlack

variable {α : Type*} {fs gs : List (Frame α)} {t t' u w : RbTree α} {n : ℕ} {x y : α}

def leftOf : List (Frame α) → List α
  | [] => []
  | f :: fs =>
    match f.dir with
    | .left => leftOf fs
    | .right => leftOf fs ++ f.sib.toList ++ [f.elem]

theorem toList_plug_eq (fs : List (Frame α)) (t : RbTree α) :
    (plug fs t).toList = leftOf fs ++ t.toList ++ rightOf fs := by
  induction fs generalizing t with
  | nil => simp [plug, leftOf, rightOf]
  | cons f fs ih =>
    obtain ⟨d, c, x, s⟩ := f
    cases d with
    | left => simp [plug, ih, RbTree.mk, RbTree.toList, leftOf, rightOf]
    | right => simp [plug, ih, RbTree.mk, RbTree.toList, leftOf, rightOf]

theorem leftOf_append (gs fs : List (Frame α)) : leftOf (gs ++ fs) = leftOf fs ++ leftOf gs := by
  induction gs with
  | nil => simp [leftOf]
  | cons g gs ih =>
    obtain ⟨d, c, x, s⟩ := g
    cases d <;> simp [leftOf, ih]

theorem eq_of_nodup_split {b a b' a' : List α} {x : α}
    (h : b ++ x :: a = b' ++ x :: a') (hnd : (b ++ x :: a).Nodup) : b = b' ∧ a = a' := by
  have hnot : x ∉ b ++ a := (List.nodup_cons.mp (List.nodup_middle.mp hnd)).1
  rw [List.mem_append, not_or] at hnot
  obtain ⟨hb, -, ha⟩ := (List.append_cons_inj_of_notMem hnot.1 hnot.2).mp h
  exact ⟨hb, ha⟩

variable {c : Color}

theorem bal_node {l r : RbTree α} (h : (RbTree.node c l x r).Bal n) :
    ∃ m, l.Bal m ∧ r.Bal m ∧ (c = .red → l.color = .black ∧ r.color = .black) := by
  cases c with
  | black =>
    obtain ⟨m, -, hl, hr⟩ := h
    exact ⟨m, hl, hr, nofun⟩
  | red => exact ⟨n, h.2.2.1, h.2.2.2, fun _ => ⟨h.1, h.2.1⟩⟩

theorem ctxBal_elem (gs fs : List (Frame α)) (d : Dir) (c : Color) (x y : α) (w : RbTree α)
    (n : ℕ) : CtxBal (gs ++ ⟨d, c, x, w⟩ :: fs) n ↔ CtxBal (gs ++ ⟨d, c, y, w⟩ :: fs) n := by
  induction gs generalizing n with
  | nil => cases c <;> rfl
  | cons g gs ih =>
    obtain ⟨d', c', z, v⟩ := g
    have htop : top (gs ++ ⟨d, c, x, w⟩ :: fs) = top (gs ++ ⟨d, c, y, w⟩ :: fs) := by
      cases gs <;> rfl
    cases c' with
    | black => simp only [List.cons_append, CtxBal, ih]
    | red => simp only [List.cons_append, CtxBal, ih, htop]

/-- A node of color `c` has been cut out, and `w` has come into its place. -/
def cutFix (c : Color) (fs : List (Frame α)) (w : RbTree α) : RbTree α :=
  if c = .black then deleteFix fs w else plug fs w

@[simp] theorem cutFix_red (fs : List (Frame α)) (w : RbTree α) : cutFix .red fs w = plug fs w :=
  rfl

@[simp] theorem cutFix_black (fs : List (Frame α)) (w : RbTree α) :
    cutFix .black fs w = deleteFix fs w :=
  rfl

/-- Deleting the root of the tree in focus leaves the tree `t'`: the root has a child on one side
at most, or its successor `y` takes its place. -/
inductive Deleted : List (Frame α) → RbTree α → RbTree α → Prop
  | one (fs : List (Frame α)) (d : Dir) (c : Color) (x : α) (w : RbTree α) :
      Deleted fs (.mk d c .nil x w) (cutFix c fs w)
  | two (fs gs : List (Frame α)) (c cy : Color) (l : RbTree α) (x y : α) (ry : RbTree α) :
      leftOf gs = [] →
      Deleted fs (.node c l x (plug gs (.node cy .nil y ry)))
        (cutFix cy (gs ++ ⟨.right, c, y, l⟩ :: fs) ry)

def RbTree.rest : RbTree α → List α
  | nil => []
  | node _ l _ r => l.toList ++ r.toList

theorem cutFix_spec {d : Dir} (hbal : (RbTree.mk d c .nil x w).Bal n)
    (hfs : CtxBal fs n) : RB (cutFix c fs w) ∧ (cutFix c fs w).toList = (plug fs w).toList := by
  cases c with
  | black =>
    obtain ⟨m, rfl, -, hw⟩ := (RbTree.bal_black ..).mp hbal
    exact deleteFix_spec fs hw hfs
  | red =>
    obtain ⟨-, hwc, -, hw⟩ := (RbTree.bal_red ..).mp hbal
    exact ⟨rb_plug hw hfs fun _ => hwc, rfl⟩

theorem plug_successor (gs fs : List (Frame α)) (c cy : Color) (l : RbTree α) (x y : α)
    (ry : RbTree α) : plug (gs ++ ⟨.right, c, x, l⟩ :: fs) (.node cy .nil y ry) =
      plug fs (.node c l x (plug gs (.node cy .nil y ry))) := by
  rw [plug_append]
  rfl

theorem Deleted.spec (h : Deleted fs t t') (hrb : RB (plug fs t)) :
    RB t' ∧ t'.toList = leftOf fs ++ t.rest ++ rightOf fs := by
  cases h with
  | one d c x w =>
    obtain ⟨n, hbal, hfs, -⟩ := bal_of_rb_plug hrb
    obtain ⟨hrb', hlist⟩ := cutFix_spec hbal hfs
    refine ⟨hrb', ?_⟩
    rw [hlist, toList_plug_eq]
    cases d <;> simp [RbTree.mk, RbTree.rest, RbTree.toList]
  | two gs c cy l x y ry hgs =>
    rw [← plug_successor] at hrb
    obtain ⟨n, hbal, hfs, -⟩ := bal_of_rb_plug hrb
    obtain ⟨hrb', hlist⟩ := cutFix_spec (d := .left) hbal ((ctxBal_elem ..).mp hfs)
    refine ⟨hrb', ?_⟩
    rw [hlist, plug_append, toList_plug_eq]
    simp [RbTree.toList, RbTree.rest, toList_plug_eq, hgs, leftOf, rightOf]

theorem Deleted.split {l r : RbTree α} (h : Deleted fs (.node c l x r) t')
    (hrb : RB (plug fs (.node c l x r))) :
    RB t' ∧ (plug fs (.node c l x r)).toList =
        (leftOf fs ++ l.toList) ++ x :: (r.toList ++ rightOf fs) ∧
      t'.toList = (leftOf fs ++ l.toList) ++ (r.toList ++ rightOf fs) := by
  obtain ⟨hrb', hlist⟩ := h.spec hrb
  refine ⟨hrb', ?_, ?_⟩
  · rw [toList_plug_eq]
    simp [RbTree.toList]
  · rw [hlist]
    simp [RbTree.rest]

theorem deleteEnd_keeps {d : Dir} {s : RbTree α} (hs : s.Bal (n + 1))
    (hsc : s.color = .black) (hone : ¬ bothBlack d s) :
    ∃ fs, ∀ t, deleteEnd d c t x s = plug fs t := by
  obtain ⟨cs, b, y, e, rfl⟩ := RbTree.exists_mk d (RbTree.ne_nil_of_bal hs)
  rw [RbTree.color_mk] at hsc
  subst hsc
  simp only [bothBlack, RbTree.near_mk, RbTree.near_other_mk] at hone
  by_cases he : e.color = .red
  · refine ⟨[⟨d, .black, x, b⟩, ⟨d, c, y, e.paint .black⟩], fun t => ?_⟩
    rw [deleteEnd_far he]
    rfl
  · have hec := Color.eq_black he
    have hbc : b.color = .red := Color.eq_red fun hbc => hone ⟨hbc, hec⟩
    obtain ⟨cb, b₁, z, b₂, rfl⟩ := RbTree.exists_mk d (RbTree.ne_nil_of_red hbc)
    rw [RbTree.color_mk] at hbc
    subst hbc
    refine ⟨[⟨d, .black, x, b₁⟩, ⟨d, c, z, (RbTree.mk d .red b₂ y e).paint .black⟩],
      fun t => ?_⟩
    rw [deleteEnd_near hec]
    rfl

theorem deleteFix_keeps (fs : List (Frame α)) {t : RbTree α} (ht : t.Bal n)
    (hfs : CtxBal fs (n + 1)) :
    ∃ gs, deleteFix fs t = plug gs t ∨ deleteFix fs t = plug gs (t.paint .black) := by
  induction fs, t using deleteFix.induct generalizing n with
  | case1 t => exact ⟨[], .inr rfl⟩
  | case2 f fs t hred => exact ⟨f :: fs, .inr (deleteFix_red _ hred)⟩
  | case3 f fs t hblack hsib =>
    have hs := hfs.sib
    obtain ⟨d, c, x, s⟩ := f
    obtain ⟨cs, b, y, e, rfl⟩ := RbTree.exists_mk d (RbTree.ne_nil_of_red hsib)
    rw [RbTree.color_mk] at hsib
    subst hsib
    obtain ⟨hbc, -, hb, -⟩ := (RbTree.bal_red ..).mp hs
    rw [deleteFix, if_neg hblack, if_pos (RbTree.color_mk ..)]
    simp only [RbTree.near_mk, RbTree.setNear_mk, RbTree.paint_mk]
    split
    next hboth =>
      exact ⟨⟨d, .black, x, b.paint .red⟩ :: ⟨d, .black, y, e⟩ :: fs, .inl rfl⟩
    next hone =>
      obtain ⟨gs, hgs⟩ := deleteEnd_keeps (c := .red) (x := x) hb hbc hone
      refine ⟨gs ++ ⟨d, .black, y, e⟩ :: fs, .inl ?_⟩
      rw [hgs, plug_append]
      rfl
  | case4 f fs t hblack hsib hboth ih =>
    have hctx := ctxBal_bothBlack ht hfs
    rw [deleteFix, if_neg hblack, if_neg hsib, if_pos hboth]
    by_cases hfc : f.color = .red
    · refine ⟨⟨f.dir, .black, f.elem, f.sib.paint .red⟩ :: fs, .inl ?_⟩
      rw [deleteFix_red fs (by rw [RbTree.color_mk, hfc]), RbTree.paint_mk]
      rfl
    · obtain ⟨hbal, hrest⟩ := hctx (Color.eq_black hfc) (Color.eq_black hsib) hboth
      obtain ⟨gs, hgs | hgs⟩ := ih hbal hrest
      · exact ⟨⟨f.dir, f.color, f.elem, f.sib.paint .red⟩ :: gs, .inl hgs⟩
      · refine ⟨⟨f.dir, .black, f.elem, f.sib.paint .red⟩ :: gs, .inl ?_⟩
        rw [hgs, RbTree.paint_mk]
        rfl
  | case5 f fs t hblack hsib hone =>
    rw [deleteFix, if_neg hblack, if_neg hsib, if_neg hone]
    obtain ⟨gs, hgs⟩ := deleteEnd_keeps (c := f.color) (x := f.elem) hfs.sib
      (Color.eq_black hsib) hone
    refine ⟨gs ++ fs, .inl ?_⟩
    rw [hgs, plug_append]

/-- Rebalancing ends below the frames `fs`, or it reaches them. -/
theorem deleteFix_append (gs fs : List (Frame α)) {t : RbTree α} (ht : t.Bal n)
    (hfs : CtxBal (gs ++ fs) (n + 1)) :
    (∃ u, deleteFix (gs ++ fs) t = plug fs u) ∨
      ∃ u m, u.Bal m ∧ CtxBal fs (m + 1) ∧ deleteFix (gs ++ fs) t = deleteFix fs u := by
  induction gs generalizing t n with
  | nil => exact .inr ⟨t, n, ht, hfs, rfl⟩
  | cons f gs ih =>
    have hctx := ctxBal_bothBlack ht hfs
    rw [List.cons_append]
    by_cases hred : t.color = .red
    · rw [deleteFix_red _ hred]
      exact .inl ⟨_, plug_append (f :: gs) fs _⟩
    rw [deleteFix, if_neg hred]
    by_cases hsib : f.sib.color = .red
    · rw [if_pos hsib]
      exact .inl ⟨_, plug_append ..⟩
    rw [if_neg hsib]
    by_cases hboth : bothBlack f.dir f.sib
    · rw [if_pos hboth]
      by_cases hfc : f.color = .red
      · rw [deleteFix_red _ (by rw [RbTree.color_mk, hfc])]
        exact .inl ⟨_, plug_append ..⟩
      · obtain ⟨hbal, hrest⟩ := hctx (Color.eq_black hfc) (Color.eq_black hsib) hboth
        exact ih hbal hrest
    · rw [if_neg hboth]
      exact .inl ⟨_, plug_append ..⟩

end Sfslite.Lib.RedBlack
