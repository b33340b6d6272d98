import Sfslite.Lib.Postorder

/-!
A walk in postorder that deletes each node it leaves and has missed the first node of the tree. Then
it never gets there, and at the end of the walk the tree is not empty.
-/

namespace Sfslite.Lib.RedBlack

open RbTree

variable {α : Type*} {fs gs : List (Frame α)} {f : Frame α} {l r s t t' v w : RbTree α} {n : ℕ}
variable {b u x y : α} {c ca : Color}

theorem postFirst_focus (hbal : t.Bal n) (h : t.postFirst = some x) :
    ∃ gs c, leftOf gs = [] ∧ (t = plug gs (node c nil x nil) ∨
      ∃ b, t = plug gs (node .black nil b (node .red nil x nil))) := by
  induction t generalizing n with
  | nil => cases h
  | node c l y r ihl ihr =>
    obtain ⟨m, hm, hr, hc⟩ := bal_node hbal
    by_cases hl : l = nil
    · subst hl
      obtain rfl : m = 0 := hm
      rcases bal_zero hr with rfl | ⟨z, rfl⟩
      · cases h
        exact ⟨[], c, rfl, .inl rfl⟩
      · cases h
        have hcb : c = .black := Color.eq_black fun hcr => nomatch (hc hcr).2
        subst hcb
        exact ⟨[], .black, rfl, .inr ⟨y, rfl⟩⟩
    · rw [postFirst_left hl] at h
      obtain ⟨gs, c', hgs, hplug⟩ := ihl hm h
      refine ⟨gs ++ [⟨.left, c, y, r⟩], c', ?_, ?_⟩
      · rw [leftOf_append, hgs]
        rfl
      · simp only [plug_append]
        obtain rfl | ⟨b, rfl⟩ := hplug
        · exact .inl rfl
        · exact .inr ⟨b, rfl⟩

theorem postFirst_front {before after : List α} (hbal : t.Bal n) (hnd : t.toList.Nodup)
    (h : t.postFirst = some x) (hx : t.toList = before ++ x :: after) :
    before = [] ∨ ∃ b, before = [b] := by
  have hget : t.toList[before.length]? = some x := by
    rw [hx, List.getElem?_append_right (Nat.le_refl _), Nat.sub_self]
    rfl
  have hlt : before.length < t.toList.length := (List.getElem?_eq_some_iff.mp hget).1
  have hat : t.toList[0]? = some x ∨ t.toList[1]? = some x := by
    obtain ⟨gs, c, hgs, rfl | ⟨b, rfl⟩⟩ := postFirst_focus hbal h
    · left
      rw [toList_plug_eq, hgs]
      rfl
    · right
      rw [toList_plug_eq, hgs]
      rfl
  rcases hat with hat | hat
  · exact .inl (List.length_eq_zero_iff.mp ((List.getElem?_inj hlt hnd).mp (hget.trans hat.symm)))
  · exact .inr (List.length_eq_one_iff.mp ((List.getElem?_inj hlt hnd).mp (hget.trans hat.symm)))

/-- A node with nothing on its left and more than one node on its right is out of balance. -/
theorem leftOf_ne_singleton {d : Dir} (hrb : RB (plug fs (mk d c t x s))) (ht : t ≠ nil) :
    leftOf fs ≠ [b] := by
  intro hleft
  have hfocus : ∃ gs hs cb, fs = gs ++ ⟨.right, cb, b, nil⟩ :: hs := by
    clear hrb
    induction fs with
    | nil => cases hleft
    | cons f fs ih =>
      obtain ⟨d', c', y, v⟩ := f
      cases d' with
      | left =>
        obtain ⟨gs, hs, cb, rfl⟩ := ih hleft
        exact ⟨⟨.left, c', y, v⟩ :: gs, hs, cb, rfl⟩
      | right =>
        rcases List.append_eq_singleton_iff.mp hleft with ⟨hpre, hy⟩ | ⟨-, hy⟩
        · cases hy
          have hv : v = nil := toList_eq_nil.mp (List.append_eq_nil_iff.mp hpre).2
          exact ⟨[], fs, c', by rw [hv]; rfl⟩
        · cases hy
  obtain ⟨gs, hs, cb, rfl⟩ := hfocus
  rw [plug_append] at hrb
  have hrb' : RB (plug hs (node cb nil b (plug gs (mk d c t x s)))) := hrb
  obtain ⟨n, hbal, -, -⟩ := bal_of_rb_plug hrb'
  obtain ⟨m, hm, hbal', -⟩ := bal_node hbal
  obtain rfl : m = 0 := hm
  have hlen : (plug gs (mk d c t x s)).toList.length ≤ 1 := by
    rcases bal_zero hbal' with h | ⟨z, h⟩
    · simp [h, toList]
    · simp [h, toList]
  have hpos : 0 < t.toList.length := List.length_pos_iff.mpr fun h => ht (toList_eq_nil.mp h)
  rw [toList_plug_eq] at hlen
  cases d <;> simp only [mk, toList, List.length_append, List.length_cons] at hlen <;> omega

variable {cf : Color}

theorem cutFix_keeps (hbal : (mk .left c nil y w).Bal n)
    (hfs : CtxBal (gs ++ ⟨.right, cf, u, node ca nil b nil⟩ :: fs) n) :
    ∃ ks c' v v', cutFix c (gs ++ ⟨.right, cf, u, node ca nil b nil⟩ :: fs) w =
      plug ks (node c' v u v') ∧ v ≠ nil := by
  cases c with
  | red =>
    refine ⟨fs, cf, node ca nil b nil, plug gs w, ?_, node_ne_nil⟩
    rw [cutFix_red, plug_append]
    rfl
  | black =>
    obtain ⟨m, rfl, -, hw⟩ := (bal_black ..).mp hbal
    rw [cutFix_black]
    rcases deleteFix_append gs _ hw hfs with ⟨v, hv⟩ | ⟨v, k, hvbal, hctx, hv⟩
    · exact ⟨fs, cf, _, v, hv, node_ne_nil⟩
    rw [hv]
    have hboth := ctxBal_bothBlack hvbal hctx
    by_cases hred : v.color = .red
    · rw [deleteFix_red _ hred]
      exact ⟨fs, cf, _, _, rfl, node_ne_nil⟩
    have hca : ca = .black := by
      refine Color.eq_black fun hca => ?_
      have hs := hctx.sib
      simp only [hca] at hs
      cases hs.2.2.1
    subst hca
    have hbb : bothBlack .right (node .black nil b nil) := ⟨rfl, rfl⟩
    rw [deleteFix, if_neg hred, if_neg (by simp [RbTree.color]), if_pos hbb]
    by_cases hfc : cf = .red
    · rw [deleteFix_red _ (by rw [color_mk, hfc]), paint_mk]
      exact ⟨fs, .black, node .red nil b nil, v, rfl, node_ne_nil⟩
    · obtain ⟨hbal', hup⟩ := hboth (Color.eq_black hfc) rfl hbb
      obtain ⟨ks, hks | hks⟩ := deleteFix_keeps fs hbal' hup
      · exact ⟨ks, cf, node .red nil b nil, v, hks, node_ne_nil⟩
      · exact ⟨ks, .black, node .red nil b nil, v, hks, node_ne_nil⟩

theorem Deleted.keeps (hdel : Deleted (⟨.right, cf, u, node ca nil b nil⟩ :: fs) t t')
    (hrb : RB (plug (⟨.right, cf, u, node ca nil b nil⟩ :: fs) t)) :
    ∃ ks c' v v', t' = plug ks (node c' v u v') ∧ v ≠ nil := by
  cases hdel with
  | one d c x w =>
    obtain ⟨n, hbal, hfs, -⟩ := bal_of_rb_plug hrb
    have hbal' : (mk .left c nil x w).Bal n := by
      cases c with
      | black => exact (bal_black ..).mpr ((bal_black ..).mp hbal)
      | red => exact (bal_red ..).mpr ((bal_red ..).mp hbal)
    exact cutFix_keeps hbal' (show CtxBal ([] ++ _ :: fs) n from hfs)
  | two gs c cy l x y ry hgs =>
    rw [← plug_successor] at hrb
    obtain ⟨n, hbal, hfs, -⟩ := bal_of_rb_plug hrb
    have hfs' := (ctxBal_elem gs _ .right c x y l n).mp hfs
    rw [List.append_cons] at hfs' ⊢
    exact cutFix_keeps hbal hfs'

theorem singleton_tree (h : t.toList = [b]) : ∃ c, t = node c nil b nil := by
  cases t with
  | nil => cases h
  | node c l x r =>
    rcases List.append_eq_singleton_iff.mp h with ⟨hl, hxr⟩ | ⟨-, hxr⟩
    · obtain ⟨rfl, hr⟩ := List.cons.inj hxr
      rw [toList_eq_nil.mp hl, toList_eq_nil.mp hr]
      exact ⟨c, rfl⟩
    · cases hxr

theorem skip_right (hrb : RB (plug (⟨.right, cf, u, s⟩ :: fs) (node c l x r)))
    (hnd : t'.toList.Nodup) (hdel : Deleted (⟨.right, cf, u, s⟩ :: fs) (node c l x r) t')
    (hskip : (plug (⟨.right, cf, u, s⟩ :: fs) (node c l x r)).postFirst ≠ some x) :
    t'.postFirst ≠ some u := by
  intro hfirst
  obtain ⟨⟨-, k, hk⟩, hlist⟩ := hdel.spec hrb
  have hlist' : t'.toList = (leftOf fs ++ s.toList) ++
      u :: ((node c l x r).rest ++ rightOf fs) := by
    rw [hlist]
    simp [leftOf, rightOf]
  rcases postFirst_front hk hnd hfirst hlist' with hfront | ⟨b, hfront⟩
  · -- nothing is in front of `u`, so the node deleted is a leaf and the first one
    obtain ⟨hedge, hs⟩ := List.append_eq_nil_iff.mp hfront
    obtain rfl := toList_eq_nil.mp hs
    obtain ⟨n, hbal, hctx, -⟩ := bal_of_rb_plug hrb
    obtain rfl : n = 0 := hctx.sib
    rcases bal_zero hbal with hleaf | ⟨z, hleaf⟩
    · cases hleaf
    · cases hleaf
      apply hskip
      rw [plug, postFirst_plug hedge mk_ne_nil]
      rfl
  · rcases List.append_eq_singleton_iff.mp hfront with ⟨hedge, hs⟩ | ⟨hleft, -⟩
    · obtain ⟨ca, rfl⟩ := singleton_tree hs
      obtain ⟨ks, c', v, v', rfl, hv⟩ := hdel.keeps hrb
      have hsplit : (leftOf ks ++ v.toList) ++ u :: (v'.toList ++ rightOf ks) =
          (leftOf fs ++ [b]) ++ u :: ((node c l x r).rest ++ rightOf fs) := by
        rw [← hs, ← hlist', toList_plug_eq]
        simp [toList]
      have hnd' := hnd
      rw [hlist', hs, ← hsplit] at hnd'
      obtain ⟨hpre, -⟩ := eq_of_nodup_split hsplit hnd'
      rw [hedge, List.nil_append] at hpre
      have huv : u ∉ v.toList := by
        intro hmem
        rw [List.nodup_append] at hnd'
        exact hnd'.2.2 u (List.mem_append_right _ hmem) u List.mem_cons_self rfl
      rcases List.append_eq_singleton_iff.mp hpre with ⟨hks, -⟩ | ⟨-, hnil⟩
      · rw [postFirst_plug hks node_ne_nil, postFirst_left hv] at hfirst
        exact huv (postFirst_mem hfirst)
      · exact hv (toList_eq_nil.mp hnil)
    · exact leftOf_ne_singleton hrb node_ne_nil hleft

theorem skip_left (hrb : RB (plug (⟨.left, cf, u, s⟩ :: fs) (node c l x r)))
    (hnd : t'.toList.Nodup) (hdel : Deleted (⟨.left, cf, u, s⟩ :: fs) (node c l x r) t')
    (hskip : (plug (⟨.left, cf, u, s⟩ :: fs) (node c l x r)).postFirst ≠ some x) :
    t'.postFirst ≠ s.postFirst.or (some u) := by
  intro hfirst
  obtain ⟨⟨-, k, hk⟩, hlist⟩ := hdel.spec hrb
  have hlist' : t'.toList = (leftOf fs ++ (node c l x r).rest) ++
      u :: (s.toList ++ rightOf fs) := by
    rw [hlist]
    simp [leftOf, rightOf]
  have hleaf : leftOf fs ++ (node c l x r).rest ≠ [] := by
    intro hnil
    obtain ⟨hedge, hrest⟩ := List.append_eq_nil_iff.mp hnil
    obtain ⟨hl, hr⟩ := List.append_eq_nil_iff.mp hrest
    obtain rfl := toList_eq_nil.mp hl
    obtain rfl := toList_eq_nil.mp hr
    apply hskip
    rw [postFirst_plug (leftOf_cons_eq_nil.mpr ⟨rfl, hedge⟩) node_ne_nil]
    rfl
  by_cases hs : s = nil
  · subst hs
    obtain ⟨n, hbal, hctx, -⟩ := bal_of_rb_plug hrb
    obtain rfl : n = 0 := hctx.sib
    have hrest : (node c l x r).rest = [] := by
      rcases bal_zero hbal with h | ⟨z, h⟩
      · cases h
      · cases h
        rfl
    rcases postFirst_front hk hnd hfirst hlist' with hfront | ⟨b, hfront⟩
    · exact hleaf hfront
    · rw [hrest, List.append_nil] at hfront
      exact leftOf_ne_singleton hrb node_ne_nil hfront
  · rw [postFirst_or hs] at hfirst
    obtain ⟨y, hy⟩ := Option.ne_none_iff_exists'.mp fun h => hs (postFirst_eq_none.mp h)
    obtain ⟨p, q, hpq⟩ := List.append_of_mem (postFirst_mem hy)
    have hlist'' : t'.toList = (leftOf fs ++ (node c l x r).rest ++ u :: p) ++
        y :: (q ++ rightOf fs) := by
      rw [hlist', hpq]
      simp
    rcases postFirst_front hk hnd (hfirst.trans hy) hlist'' with hfront | ⟨b, hfront⟩
    · exact absurd (List.append_eq_nil_iff.mp hfront).2 (List.cons_ne_nil _ _)
    · rcases List.append_eq_singleton_iff.mp hfront with ⟨hnil, -⟩ | ⟨-, hnil⟩
      · exact hleaf hnil
      · cases hnil

theorem skip_step (hrb : RB (plug fs (node c l x r))) (hnd : t'.toList.Nodup)
    (hdel : Deleted fs (node c l x r) t') (hskip : (plug fs (node c l x r)).postFirst ≠ some x) :
    postNext fs ≠ t'.postFirst := by
  intro heq
  cases fs with
  | nil =>
    obtain ⟨-, hlist⟩ := hdel.spec hrb
    obtain rfl := postFirst_eq_none.mp heq.symm
    have hrest : (node c l x r).rest = [] := by
      simpa [leftOf, rightOf, toList] using hlist.symm
    obtain ⟨hl, hr⟩ := List.append_eq_nil_iff.mp hrest
    obtain rfl := toList_eq_nil.mp hl
    obtain rfl := toList_eq_nil.mp hr
    exact hskip rfl
  | cons f fs =>
    obtain ⟨d, cf, u, s⟩ := f
    cases d with
    | left => exact skip_left hrb hnd hdel hskip heq.symm
    | right => exact skip_right hrb hnd hdel hskip heq.symm

/-- From the first node of a tree the walk goes on at the first node of the new tree, and that one
is full off the edge, exactly when the old one was. -/
theorem walk_first (hrb : RB t) (hnd : t.toList.Nodup) (h : t.postFirst = some x) :
    ∃ fs c, t = plug fs (node c nil x nil) ∧
      (postNext fs = (cutFix c fs nil).postFirst ∧ (cutFix c fs nil).EdgeFull ↔ t.EdgeFull) := by
  obtain ⟨n, hbal⟩ := hrb.2
  obtain ⟨gs, c, hgs, rfl | ⟨b, rfl⟩⟩ := postFirst_focus hbal h
  · exact ⟨gs, c, rfl, cut_edge hgs hrb hnd⟩
  · refine ⟨⟨.right, .black, b, nil⟩ :: gs, .red, rfl, ?_⟩
    have hcut : cutFix .red (⟨.right, .black, b, nil⟩ :: gs) nil =
        plug gs (node .black nil b nil) := rfl
    rw [hcut, postFirst_plug hgs node_ne_nil, edgeFull_plug hgs, edgeFull_plug hgs]
    simp [postNext]

end Sfslite.Lib.RedBlack
