import Mathlib.Data.List.Nodup
import Sfslite.Async.Itree

/-!
The elementary writes of the red-black tree, seen from the tree in focus:
exchanging the child of the frame above, painting a node and rotating one.
-/

namespace Sfslite.Async

open Sfslite.Lib.RedBlack

variable {a b : RbTree ℕ} {d : Dir} {c : Color} {x : ℕ}

theorem nodup_mk :
    (RbTree.mk d c a x b).toList.Nodup ↔ (x ∉ a.toList ∧ x ∉ b.toList) ∧
      a.toList.Nodup ∧ b.toList.Nodup ∧ ∀ i ∈ a.toList, i ∉ b.toList := by
  rw [(toList_mk_perm d c a x b).nodup_iff, List.nodup_cons, List.mem_append, not_or,
    List.nodup_append']
  rfl

namespace Itree

section Writes

variable (s : Itree) (n : ℕ) (i : ℕ)

theorem mem_write (e : ItreeEntry) :
    (s.write n e).mem i = if i = n then e else s.mem i := Function.update_apply ..

theorem mem_setUp (v : ℕ) :
    (s.setUp n v).mem i = if i = n then (s.mem n).setUp v else s.mem i := mem_write ..

theorem mem_setChild (d : Dir) (v : ℕ) :
    (s.setChild d n v).mem i = if i = n then (s.mem n).setChild d v else s.mem i :=
  mem_write ..

theorem mem_setColor (c : ItreeColor) :
    (s.setColor n c).mem i = if i = n then (s.mem n).setColor c else s.mem i := mem_write ..

theorem mem_setUpIf (v : ℕ) :
    (s.setUpIf n v).mem i = if n ≠ 0 ∧ i = n then (s.mem n).setUp v else s.mem i := by
  unfold setUpIf
  split_ifs with hn hi hi
  · rw [mem_setUp, if_pos hi.2]
  · rw [mem_setUp, if_neg (fun h => hi ⟨hn, h⟩)]
  · exact absurd hi.1 hn
  · rfl

@[simp] theorem rbRoot_setUp (v : ℕ) : (s.setUp n v).rbRoot = s.rbRoot := rfl

@[simp] theorem rbRoot_setChild (d : Dir) (v : ℕ) :
    (s.setChild d n v).rbRoot = s.rbRoot := rfl

@[simp] theorem rbRoot_setColor (c : ItreeColor) : (s.setColor n c).rbRoot = s.rbRoot := rfl

@[simp] theorem rbRoot_setUpIf (v : ℕ) : (s.setUpIf n v).rbRoot = s.rbRoot := by
  unfold setUpIf
  split_ifs <;> rfl

end Writes

theorem replaceChild_ctx {s : Itree} {fs : List (Frame ℕ)} (d : Dir) (y : ℕ)
    (h : CtxAt s.mem s.rbRoot fs x) (hnd : (ctxList fs).Nodup) (hx : x ∉ ctxList fs) (hx0 : x ≠ 0) :
    let s' := replaceChild d s (parent fs) x y
    CtxAt s'.mem s'.rbRoot fs y ∧ ∀ i, i ∉ ctxList fs → s'.mem i = s.mem i := by
  intro s'
  cases fs with
  | nil =>
    refine ⟨?_, fun i _ => ?_⟩ <;> simp [s', replaceChild, parent, setRoot, CtxAt]
  | cons f fs =>
    obtain ⟨hf, hm, hsib, hrest⟩ := h
    simp only [ctxList, List.nodup_cons, List.mem_append, not_or] at hnd
    obtain ⟨⟨hfsib, hffs⟩, _⟩ := hnd
    have hne : x ≠ addr f.sib := by
      rintro rfl
      exact hx (by simp [ctxList, addr_mem hx0])
    have hs' : s' = s.setChild f.dir f.elem y := by
      simp only [s', replaceChild, parent, if_neg hf, child, hm]
      by_cases hd : f.dir = d
      · simp [← hd]
      · rw [show d = f.dir.other from Dir.eq_other_of_ne (Ne.symm hd)]
        simp [hne]
    refine ⟨⟨hf, ?_, ?_, ?_⟩, ?_⟩
    · simp [hs', mem_setChild, hm]
    · refine hsib.congr fun i hi => ?_
      rw [hs', mem_setChild, if_neg]
      rintro rfl
      exact hfsib hi
    · rw [hs']
      refine hrest.congr fun i hi => ?_
      rw [mem_setChild, if_neg]
      rintro rfl
      exact hffs hi
    · intro i hi
      rw [hs', mem_setChild, if_neg]
      rintro rfl
      exact hi (by simp [ctxList])

end Itree

section Reads

variable {s : Itree} {f : Frame ℕ} {fs : List (Frame ℕ)} {t : RbTree ℕ}

theorem Rep.focus (h : Rep s fs (.mk d c a x b)) :
    x ≠ 0 ∧ s.mem x = .at d (parent fs) (addr a) (addr b) (.of c) := by
  have htree := h.2.1
  rw [treeAt_mk] at htree
  exact ⟨htree.1, htree.2.1⟩

theorem Rep.frame (h : Rep s (f :: fs) t) :
    f.elem ≠ 0 ∧ s.mem f.elem = .at f.dir (parent fs) (addr t) (addr f.sib) (.of f.color) :=
  ⟨h.1.1, h.1.2.1⟩

theorem color_addr {u : ℕ} (h : TreeAt s.mem u t) : s.color (addr t) = .of t.color := by
  cases t with
  | nil => rfl
  | node c l x r => simp [Itree.color, addr, h.1, h.2.1, RbTree.color]

theorem Rep.color_focus (h : Rep s fs t) : s.color (addr t) = .of t.color := color_addr h.2.1

theorem Rep.color_sib (h : Rep s (f :: fs) t) : s.color (addr f.sib) = .of f.sib.color :=
  color_addr h.1.2.2.1

theorem Rep.up_focus (h : Rep s fs t) (ht : t ≠ .nil) : s.up (addr t) = parent fs := by
  obtain ⟨c, a, x, b, rfl⟩ := RbTree.exists_mk .left ht
  rw [addr_mk, Itree.up, h.focus.2, ItreeEntry.rbeUp_at]

theorem Rep.up_near (h : Rep s fs (.mk d c a x b)) (ha : a ≠ .nil) : s.up (addr a) = x :=
  ((rep_cons s ⟨d, c, x, b⟩ fs a).mpr h).up_focus ha

theorem Rep.addr_ne_sib (h : Rep s (f :: fs) t) (ht : t ≠ .nil ∨ f.sib ≠ .nil) :
    addr t ≠ addr f.sib := by
  intro heq
  have hsib : TreeAt s.mem f.elem f.sib := h.1.2.2.1
  have hne : addr t ≠ 0 := by
    rcases ht with ht | ht
    · exact fun h0 => ht ((addr_eq_zero h.2.1).mp h0)
    · exact fun h0 => ht ((addr_eq_zero hsib).mp (heq ▸ h0))
  have hnd := List.nodup_append'.mp h.2.2
  exact hnd.2.2 (addr_mem hne) (by simp [ctxList, heq, addr_mem (heq ▸ hne)])

theorem Rep.side (h : Rep s (f :: fs) t) (ht : t ≠ .nil ∨ f.sib ≠ .nil) :
    (if addr t = s.child .left f.elem then Dir.left else Dir.right) = f.dir := by
  have hne := h.addr_ne_sib ht
  have hm := h.frame.2
  cases hd : f.dir with
  | left => simp [Itree.child, hm, hd, ItreeEntry.at, ItreeEntry.child]
  | right => simp [Itree.child, hm, hd, ItreeEntry.at, ItreeEntry.child, hne]

end Reads

namespace Itree

theorem itreeRotate_rep {s : Itree} {fs : List (Frame ℕ)} {c' : Color}
    {e : RbTree ℕ} {y : ℕ} (h : Rep s fs (.mk d c a x (.mk d c' b y e))) :
    Rep (itreeRotate d s x) fs (.mk d c' (.mk d c a x b) y e) := by
  obtain ⟨hctx, htree, hnd⟩ := h
  simp only [treeAt_mk, addr_mk] at htree hctx
  obtain ⟨hx, hmx, ha, hy, hmy, hb, he⟩ := htree
  simp only [List.nodup_append', List.disjoint_left, nodup_mk, mem_toList_mk, not_or] at hnd
  obtain ⟨⟨⟨hxa, hxy, hxb, hxe⟩, hna, ⟨⟨hyb, hye⟩, hnb, hne, hbe⟩, hab⟩, hnf, hdisj⟩ := hnd
  have hyx : y ≠ x := Ne.symm hxy
  have hbmem : addr b ≠ 0 → addr b ∈ b.toList := addr_mem
  have hbx : addr b ≠ x := fun h => hxb (h ▸ hbmem (h ▸ hx))
  have hby : addr b ≠ y := fun h => hyb (h ▸ hbmem (h ▸ hy))
  have hs₀ : ∃ s₀ : Itree, s₀.rbRoot = s.rbRoot ∧
      s₀.mem x = .at d (parent fs) (addr a) (addr b) (.of c) ∧
      s₀.mem y = .at d (parent fs) (addr b) (addr e) (.of c') ∧
      (∀ i, i ≠ x → i ≠ y → s₀.mem i =
        if addr b ≠ 0 ∧ i = addr b then (s.mem i).setUp x else s.mem i) ∧
      itreeRotate d s x = ((replaceChild d s₀ (parent fs) x y).setChild d y x).setUp x y := by
    refine ⟨((s.setChild d.other x (addr b)).setUpIf (addr b) x).setUp y (parent fs),
      ?_, ?_, ?_, ?_, ?_⟩
    · simp
    · simp [mem_setUp, mem_setChild, mem_setUpIf, hmx, hxy, hbx.symm]
    · simp [mem_setUp, mem_setChild, mem_setUpIf, hmy, hyx, hby.symm]
    · intro i hix hiy
      rw [mem_setUp, if_neg hiy, mem_setUpIf, mem_setChild, mem_setChild, if_neg hbx, if_neg hix]
      split_ifs with hi
      · rw [hi.2]
      · rfl
    · simp [itreeRotate, up, child, hmx, hmy, mem_setUp, mem_setChild, mem_setUpIf, hxy, hbx.symm]
  obtain ⟨s₀, hroot, hx₀, hy₀, hi₀, hs'⟩ := hs₀
  have hxf : x ∉ ctxList fs := hdisj (Or.inl rfl)
  have hyf : y ∉ ctxList fs := hdisj (Or.inr (Or.inr (Or.inl rfl)))
  have hbf : ∀ i ∈ b.toList, i ∉ ctxList fs :=
    fun i hi => hdisj (Or.inr (Or.inr (Or.inr (Or.inl hi))))
  have hctx₀ : CtxAt s₀.mem s₀.rbRoot fs x := by
    rw [hroot]
    refine hctx.congr fun i hi => ?_
    rw [hi₀ i (fun h => hxf (h ▸ hi)) (fun h => hyf (h ▸ hi)), if_neg]
    rintro ⟨hb0, rfl⟩
    exact hbf _ (hbmem hb0) hi
  obtain ⟨hctx₁, hi₁⟩ := replaceChild_ctx d y hctx₀ hnf hxf hx
  have hx' : (itreeRotate d s x).mem x = .at d y (addr a) (addr b) (.of c) := by
    simp [hs', mem_setUp, mem_setChild, hxy, hi₁ x hxf, hx₀]
  have hy' : (itreeRotate d s x).mem y = .at d (parent fs) x (addr e) (.of c') := by
    simp [hs', mem_setUp, mem_setChild, hyx, hi₁ y hyf, hy₀]
  have hframe : ∀ i, i ≠ x → i ≠ y →
      (itreeRotate d s x).mem i = (replaceChild d s₀ (parent fs) x y).mem i := by
    intro i hix hiy
    rw [hs', mem_setUp, if_neg hix, mem_setChild, if_neg hiy]
  have hother : ∀ i, i ≠ x → i ≠ y → i ∉ ctxList fs → (itreeRotate d s x).mem i =
      if addr b ≠ 0 ∧ i = addr b then (s.mem i).setUp x else s.mem i := by
    intro i hix hiy hif
    rw [hframe i hix hiy, hi₁ i hif, hi₀ i hix hiy]
  have hkeep : ∀ i, i ∉ b.toList → i ≠ x → i ≠ y → i ∉ ctxList fs →
      (itreeRotate d s x).mem i = s.mem i := by
    intro i hib hix hiy hif
    rw [hother i hix hiy hif, if_neg]
    rintro ⟨hb0, rfl⟩
    exact hib (hbmem hb0)
  refine ⟨?_, ?_, ?_⟩
  · rw [addr_mk]
    have hroot' : (itreeRotate d s x).rbRoot = (replaceChild d s₀ (parent fs) x y).rbRoot := by
      rw [hs']
      rfl
    rw [hroot']
    exact hctx₁.congr fun i hi => hframe i (fun h => hxf (h ▸ hi)) (fun h => hyf (h ▸ hi))
  · simp only [treeAt_mk, addr_mk]
    refine ⟨hy, hy', ⟨hx, hx', ?_, ?_⟩, ?_⟩
    · refine ha.congr fun i hi => hkeep i ?_ ?_ ?_ (hdisj (Or.inr (Or.inl hi)))
      · exact fun hib => (hab i hi).2.1 hib
      · exact fun h => hxa (h ▸ hi)
      · exact fun h => (hab i hi).1 h
    · refine hb.setUp hnb (fun hb0 => ?_) (fun i hi hib => ?_)
      · rw [hother _ hbx hby (hbf _ (hbmem hb0)), if_pos ⟨hb0, rfl⟩]
      · rw [hother i (fun h => hxb (h ▸ hi)) (fun h => hyb (h ▸ hi)) (hbf i hi), if_neg]
        exact fun h => hib h.2
    · refine he.congr fun i hi => hkeep i ?_ ?_ ?_
        (hdisj (Or.inr (Or.inr (Or.inr (Or.inr hi)))))
      · exact fun hib => hbe i hib hi
      · exact fun h => hxe (h ▸ hi)
      · exact fun h => hye (h ▸ hi)
  · simp only [List.nodup_append', List.disjoint_left, nodup_mk, mem_toList_mk, not_or]
    refine ⟨⟨⟨⟨hyx, ?_, hyb⟩, hye⟩, ⟨⟨hxa, hxb⟩, hna, hnb, ?_⟩, hne, ?_⟩, hnf, ?_⟩
    · exact fun h => (hab y h).1 rfl
    · exact fun i hi => (hab i hi).2.1
    · rintro i (rfl | hi | hi) hie
      · exact hxe hie
      · exact (hab i hi).2.2 hie
      · exact hbe i hi hie
    · rintro i (rfl | (rfl | hi | hi) | hi)
      · exact hyf
      · exact hxf
      · exact hdisj (Or.inr (Or.inl hi))
      · exact hbf i hi
      · exact hdisj (Or.inr (Or.inr (Or.inr (Or.inr hi))))

theorem setColor_rep {s : Itree} {fs : List (Frame ℕ)} {t : RbTree ℕ} (c : Color)
    (h : Rep s fs t) (ht : t ≠ .nil) : Rep (s.setColor (addr t) (.of c)) fs (t.paint c) := by
  obtain ⟨hctx, htree, hnd⟩ := h
  obtain ⟨c₀, a, x, b, rfl⟩ := RbTree.exists_mk .left ht
  simp only [treeAt_mk, addr_mk] at htree hctx
  obtain ⟨hx, hmx, ha, hb⟩ := htree
  simp only [List.nodup_append', List.disjoint_left, nodup_mk, mem_toList_mk] at hnd
  obtain ⟨⟨⟨hxa, hxb⟩, hna, hnb, hab⟩, hnf, hdisj⟩ := hnd
  rw [addr_mk, RbTree.paint_mk]
  refine ⟨?_, ?_, ?_⟩
  · rw [addr_mk]
    refine hctx.congr fun i hi => ?_
    rw [mem_setColor, if_neg]
    rintro rfl
    exact hdisj (Or.inl rfl) hi
  · rw [treeAt_mk]
    refine ⟨hx, ?_, ha.congr fun i hi => ?_, hb.congr fun i hi => ?_⟩
    · simp [mem_setColor, hmx]
    · rw [mem_setColor, if_neg (fun h : i = x => hxa (h ▸ hi))]
    · rw [mem_setColor, if_neg (fun h : i = x => hxb (h ▸ hi))]
  · simp only [List.nodup_append', List.disjoint_left, nodup_mk, mem_toList_mk]
    exact ⟨⟨⟨hxa, hxb⟩, hna, hnb, hab⟩, hnf, hdisj⟩

theorem setColor_near {s : Itree} {fs : List (Frame ℕ)}
    (c' : Color) (h : Rep s fs (.mk d c a x b)) (ha : a ≠ .nil) :
    Rep (s.setColor (addr a) (.of c')) fs (.mk d c (a.paint c') x b) :=
  (rep_cons _ ⟨d, c, x, b⟩ fs _).mp
    (setColor_rep c' ((rep_cons s ⟨d, c, x, b⟩ fs a).mpr h) ha)

theorem setColor_far {s : Itree} {fs : List (Frame ℕ)}
    (c' : Color) (h : Rep s fs (.mk d c a x b)) (hb : b ≠ .nil) :
    Rep (s.setColor (addr b) (.of c')) fs (.mk d c a x (b.paint c')) := by
  rw [← RbTree.mk_other] at h ⊢
  exact setColor_near c' h hb

end Itree

end Sfslite.Async
