import Mathlib.Data.List.Perm.Basic

/-!
Red-black trees with a focus. A tree is looked at through a hole: the frames
from the hole up to the root, and the subtree that fills it. Rebalancing after
an insertion or a deletion moves the hole towards the root, so both are
recursions on the frames. The two mirror images of every case are one case
that names the side of the hole.
-/

namespace Sfslite.Lib.RedBlack

inductive Color where
  | black
  | red
  deriving DecidableEq, Repr

variable {c : Color}

theorem Color.eq_black (h : c ≠ .red) : c = .black := by
  cases c with
  | black => rfl
  | red => exact absurd rfl h

theorem Color.eq_red (h : c ≠ .black) : c = .red := by
  cases c with
  | black => exact absurd rfl h
  | red => rfl

inductive Dir where
  | left
  | right
  deriving DecidableEq, Repr

def Dir.other : Dir → Dir
  | .left => .right
  | .right => .left

@[simp] theorem Dir.other_other (d : Dir) : d.other.other = d := by cases d <;> rfl

theorem Dir.eq_other_of_ne {d e : Dir} (h : d ≠ e) : d = e.other := by
  cases d <;> cases e <;> simp_all [Dir.other]

inductive RbTree (α : Type*) where
  | nil : RbTree α
  | node (c : Color) (l : RbTree α) (x : α) (r : RbTree α) : RbTree α
  deriving DecidableEq

variable {α : Type*} {t : RbTree α} {n : ℕ}

namespace RbTree

/-- An absent subtree counts as black. -/
def color : RbTree α → Color
  | nil => .black
  | node c _ _ _ => c

def paint (c : Color) : RbTree α → RbTree α
  | nil => nil
  | node _ l x r => node c l x r

def toList : RbTree α → List α
  | nil => []
  | node _ l x r => l.toList ++ x :: r.toList

@[simp] theorem toList_eq_nil : t.toList = [] ↔ t = nil := by
  cases t <;> simp [toList]

/-- A node seen from its side `d`: `near` is the child on that side. -/
def mk (d : Dir) (c : Color) (near : RbTree α) (x : α) (far : RbTree α) : RbTree α :=
  match d with
  | .left => node c near x far
  | .right => node c far x near

@[simp] theorem color_mk (d : Dir) (c : Color) (a : RbTree α) (x : α) (b : RbTree α) :
    (mk d c a x b).color = c := by cases d <;> rfl

@[simp] theorem paint_mk (d : Dir) (c c' : Color) (a : RbTree α) (x : α) (b : RbTree α) :
    (mk d c a x b).paint c' = mk d c' a x b := by cases d <;> rfl

@[simp] theorem toList_paint (c : Color) (t : RbTree α) : (t.paint c).toList = t.toList := by
  cases t <;> rfl

theorem mk_other (d : Dir) (c : Color) (a : RbTree α) (x : α) (b : RbTree α) :
    mk d.other c a x b = mk d c b x a := by cases d <;> rfl

@[simp] theorem mk_ne_nil {d : Dir} {a : RbTree α} {x : α} {b : RbTree α} :
    mk d c a x b ≠ nil := by cases d <;> exact nofun

theorem paint_black (h : t.color = .black) : t.paint .black = t := by
  cases t with
  | nil => rfl
  | node c l x r =>
    cases h
    rfl

theorem exists_mk (d : Dir) (h : t ≠ nil) : ∃ c a x b, t = mk d c a x b := by
  cases t with
  | nil => exact absurd rfl h
  | node c l x r =>
    cases d with
    | left => exact ⟨c, l, x, r, rfl⟩
    | right => exact ⟨c, r, x, l, rfl⟩

theorem ne_nil_of_red (h : t.color = .red) : t ≠ nil := by
  rintro rfl
  cases h

theorem toList_rotate (d : Dir) (c c' e e' : Color) (a : RbTree α) (x : α) (b : RbTree α)
    (y : α) (r : RbTree α) :
    (mk d c (mk d c' a x b) y r).toList = (mk d e a x (mk d e' b y r)).toList := by
  cases d <;> simp [mk, toList]

/-- `t` has black height `n`, and no red node in it has a red child. -/
def Bal : RbTree α → ℕ → Prop
  | nil, n => n = 0
  | node .black l _ r, n => ∃ m, n = m + 1 ∧ l.Bal m ∧ r.Bal m
  | node .red l _ r, n => l.color = .black ∧ r.color = .black ∧ l.Bal n ∧ r.Bal n

@[simp] theorem bal_black (d : Dir) (a : RbTree α) (x : α) (b : RbTree α) (n : ℕ) :
    (mk d .black a x b).Bal n ↔ ∃ m, n = m + 1 ∧ a.Bal m ∧ b.Bal m := by
  cases d with
  | left => rfl
  | right => simp only [mk, Bal, and_comm]

@[simp] theorem bal_red (d : Dir) (a : RbTree α) (x : α) (b : RbTree α) (n : ℕ) :
    (mk d .red a x b).Bal n ↔
      a.color = .black ∧ b.color = .black ∧ a.Bal n ∧ b.Bal n := by
  cases d with
  | left => rfl
  | right =>
    simp only [mk, Bal]
    tauto

theorem ne_nil_of_bal (h : t.Bal (n + 1)) : t ≠ nil := by
  rintro rfl
  cases h

theorem bal_paint_black (h : t.Bal n) (hc : t.color = .red) : (t.paint .black).Bal (n + 1) := by
  cases t with
  | nil => cases hc
  | node c l x r =>
    cases hc
    exact ⟨n, rfl, h.2.2.1, h.2.2.2⟩

end RbTree

/-- One step of the path from the hole to the root: the node `elem` that has the
hole on its side `dir` and the subtree `sib` on the other. -/
structure Frame (α : Type*) where
  dir : Dir
  color : Color
  elem : α
  sib : RbTree α

/-- The tree around the hole, innermost frame first, closed by the subtree `t`. -/
def plug : List (Frame α) → RbTree α → RbTree α
  | [], t => t
  | f :: fs, t => plug fs (RbTree.mk f.dir f.color t f.elem f.sib)

/-- The color of the node above the hole. Nothing is above the root, and the root
must be black: the outside counts as red. -/
def top : List (Frame α) → Color
  | [] => .red
  | f :: _ => f.color

/-- The tree around a hole that is to be filled by a subtree of black height `n`. -/
def CtxBal : List (Frame α) → ℕ → Prop
  | [], _ => True
  | ⟨_, .black, _, s⟩ :: fs, n => s.Bal n ∧ CtxBal fs (n + 1)
  | ⟨_, .red, _, s⟩ :: fs, n =>
    s.color = .black ∧ s.Bal n ∧ top fs = .black ∧ CtxBal fs n

variable {fs : List (Frame α)}

theorem CtxBal.sib {f : Frame α} (h : CtxBal (f :: fs) n) : f.sib.Bal n := by
  obtain ⟨d, c, x, s⟩ := f
  cases c with
  | black => exact h.1
  | red => exact h.2.1

/-- A red-black tree: black root, no red node with a red child, one black height. -/
def RB (t : RbTree α) : Prop := t.color = .black ∧ ∃ n, t.Bal n

/-- A hole filled by a subtree of its black height, black where the node above is
red, gives a red-black tree. -/
theorem rb_plug (ht : t.Bal n)
    (hfs : CtxBal fs n) (hc : top fs = .red → t.color = .black) : RB (plug fs t) := by
  induction fs generalizing t n with
  | nil => exact ⟨hc rfl, n, ht⟩
  | cons f fs ih =>
    obtain ⟨d, c, x, s⟩ := f
    cases c with
    | black =>
      exact ih ((RbTree.bal_black ..).mpr ⟨n, rfl, ht, hfs.1⟩) hfs.2
        (fun _ => RbTree.color_mk ..)
    | red =>
      obtain ⟨hsc, hs, htop, hrest⟩ := hfs
      refine ih ((RbTree.bal_red ..).mpr ⟨hc rfl, hsc, ht, hs⟩) hrest ?_
      intro h
      rw [htop] at h
      cases h

theorem bal_of_rb_plug (h : RB (plug fs t)) :
    ∃ n, t.Bal n ∧ CtxBal fs n ∧ (top fs = .red → t.color = .black) := by
  induction fs generalizing t with
  | nil =>
    obtain ⟨hc, n, hn⟩ := h
    exact ⟨n, hn, trivial, fun _ => hc⟩
  | cons f fs ih =>
    obtain ⟨d, c, x, s⟩ := f
    obtain ⟨n, hn, hfs, hc⟩ := ih h
    cases c with
    | black =>
      obtain ⟨m, rfl, ht, hs⟩ := (RbTree.bal_black ..).mp hn
      exact ⟨m, ht, ⟨hs, hfs⟩, fun h => nomatch h⟩
    | red =>
      obtain ⟨htc, hsc, ht, hs⟩ := (RbTree.bal_red ..).mp hn
      refine ⟨n, ht, ⟨hsc, hs, ?_, hfs⟩, fun _ => htc⟩
      cases htop : top fs with
      | black => rfl
      | red =>
        have hblack := hc htop
        simp at hblack

theorem toList_plug (fs : List (Frame α)) :
    ∃ before after : List α, ∀ t, (plug fs t).toList = before ++ t.toList ++ after := by
  induction fs with
  | nil => exact ⟨[], [], fun t => by simp [plug]⟩
  | cons f fs ih =>
    obtain ⟨before, after, h⟩ := ih
    obtain ⟨d, c, x, s⟩ := f
    cases d with
    | left =>
      exact ⟨before, x :: s.toList ++ after, fun t => by
        simp [plug, h, RbTree.mk, RbTree.toList]⟩
    | right =>
      exact ⟨before ++ s.toList ++ [x], after, fun t => by
        simp [plug, h, RbTree.mk, RbTree.toList]⟩

/-- The elements behind the hole, from left to right. -/
def rightOf : List (Frame α) → List α
  | [] => []
  | f :: fs =>
    match f.dir with
    | .left => f.elem :: (f.sib.toList ++ rightOf fs)
    | .right => rightOf fs

theorem toList_plug_rightOf (fs : List (Frame α)) :
    ∃ before : List α, ∀ t, (plug fs t).toList = before ++ t.toList ++ rightOf fs := by
  induction fs with
  | nil => exact ⟨[], fun t => by simp [plug, rightOf]⟩
  | cons f fs ih =>
    obtain ⟨before, h⟩ := ih
    obtain ⟨d, c, x, s⟩ := f
    cases d with
    | left => exact ⟨before, fun t => by simp [plug, h, RbTree.mk, RbTree.toList, rightOf]⟩
    | right =>
      exact ⟨before ++ s.toList ++ [x], fun t => by
        simp [plug, h, RbTree.mk, RbTree.toList, rightOf]⟩

theorem plug_append (gs fs : List (Frame α)) (t : RbTree α) :
    plug (gs ++ fs) t = plug fs (plug gs t) := by
  induction gs generalizing t with
  | nil => rfl
  | cons g gs ih => exact ih _

theorem plug_ne_nil (fs : List (Frame α)) (ht : t ≠ .nil) : plug fs t ≠ .nil := by
  induction fs generalizing t with
  | nil => exact ht
  | cons f fs ih => exact ih RbTree.mk_ne_nil

theorem toList_plug_congr (fs : List (Frame α)) {u : RbTree α} (h : t.toList = u.toList) :
    (plug fs t).toList = (plug fs u).toList := by
  obtain ⟨before, after, hba⟩ := toList_plug fs
  rw [hba, hba, h]

namespace RbTree

/-- The child on side `d`. -/
def near : Dir → RbTree α → RbTree α
  | _, nil => nil
  | .left, node _ l _ _ => l
  | .right, node _ _ _ r => r

/-- Exchange the child on side `d`. -/
def setNear : Dir → RbTree α → RbTree α → RbTree α
  | _, _, nil => nil
  | .left, t, node c _ x r => node c t x r
  | .right, t, node c l x _ => node c l x t

/-- Repaint the child on side `d`. -/
def paintNear (d : Dir) (c : Color) (t : RbTree α) : RbTree α := setNear d ((t.near d).paint c) t

@[simp] theorem near_mk (d : Dir) (c : Color) (a : RbTree α) (x : α) (b : RbTree α) :
    (mk d c a x b).near d = a := by cases d <;> rfl

@[simp] theorem near_other_mk (d : Dir) (c : Color) (a : RbTree α) (x : α) (b : RbTree α) :
    (mk d c a x b).near d.other = b := by cases d <;> rfl

@[simp] theorem setNear_mk (d : Dir) (c : Color) (a t : RbTree α) (x : α) (b : RbTree α) :
    setNear d t (mk d c a x b) = mk d c t x b := by cases d <;> rfl

@[simp] theorem setNear_other_mk (d : Dir) (c : Color) (a t : RbTree α) (x : α) (b : RbTree α) :
    setNear d.other t (mk d c a x b) = mk d c a x t := by cases d <;> rfl

/-- Rotation towards side `d`: the child on the other side comes up. -/
def rot : Dir → RbTree α → RbTree α
  | .left, node c a x (node c' b y e) => node c' (node c a x b) y e
  | .right, node c (node c' a x b) y e => node c' a x (node c b y e)
  | _, t => t

@[simp] theorem rot_mk (d : Dir) (c c' : Color) (a : RbTree α) (x : α) (b : RbTree α)
    (y : α) (e : RbTree α) :
    rot d (mk d c a x (mk d c' b y e)) = mk d c' (mk d c a x b) y e := by cases d <;> rfl

@[simp] theorem rot_other_mk (d : Dir) (c c' : Color) (a : RbTree α) (x : α) (b : RbTree α)
    (y : α) (e : RbTree α) :
    rot d.other (mk d c (mk d c' a x b) y e) = mk d c' a x (mk d c b y e) := by
  cases d <;> rfl

end RbTree

/-- The hole is filled by a red subtree. While the node above it is red too, the
redness moves up where the uncle is red, and is rotated away otherwise. -/
def insertFix : List (Frame α) → RbTree α → RbTree α
  | [], t => t.paint .black
  | [f], t => plug [f] t
  | f :: g :: fs, t =>
    if f.color = .black then plug (f :: g :: fs) t
    else if g.sib.color = .red then
      insertFix fs (RbTree.mk g.dir .red (RbTree.mk f.dir .black t f.elem f.sib) g.elem
        (g.sib.paint .black))
    else
      let p := RbTree.mk f.dir .red t f.elem f.sib
      let p' := if f.dir = g.dir then p else p.rot g.dir
      plug fs ((RbTree.mk g.dir .red (p'.paint .black) g.elem g.sib).rot g.dir.other)

theorem insert_rotate (g : Frame α) (f : Frame α) (ht : t.Bal n)
    (hred : t.color = .red) (hs : f.sib.Bal n) (hsc : f.sib.color = .black)
    (hu : g.sib.Bal n) (huc : g.sib.color = .black) :
    let p := RbTree.mk f.dir .red t f.elem f.sib
    let p' := if f.dir = g.dir then p else p.rot g.dir
    let t' := (RbTree.mk g.dir .red (p'.paint .black) g.elem g.sib).rot g.dir.other
    t'.color = .black ∧ t'.Bal (n + 1) ∧
      t'.toList = (RbTree.mk g.dir .black p g.elem g.sib).toList := by
  intro p p' t'
  obtain ⟨c, a, x, b, rfl⟩ := RbTree.exists_mk g.dir (RbTree.ne_nil_of_red hred)
  rw [RbTree.color_mk] at hred
  subst hred
  obtain ⟨hac, hbc, ha, hb⟩ := (RbTree.bal_red ..).mp ht
  by_cases hdir : f.dir = g.dir
  · have heq : t' = RbTree.mk g.dir .black (RbTree.mk g.dir .red a x b) f.elem
        (RbTree.mk g.dir .red f.sib g.elem g.sib) := by
      simp only [t', p', p, if_pos hdir, hdir, RbTree.paint_mk, RbTree.rot_other_mk]
    rw [heq]
    refine ⟨RbTree.color_mk .., ?_, ?_⟩
    · exact (RbTree.bal_black ..).mpr ⟨n, rfl, ht, by simp [*]⟩
    · simp only [p, hdir]
      exact (RbTree.toList_rotate ..).symm
  · have hother : f.dir = g.dir.other := Dir.eq_other_of_ne hdir
    have hp : p = RbTree.mk g.dir .red f.sib f.elem (RbTree.mk g.dir .red a x b) := by
      simp only [p, hother, RbTree.mk_other]
    have heq : t' = RbTree.mk g.dir .black (RbTree.mk g.dir .red f.sib f.elem a) x
        (RbTree.mk g.dir .red b g.elem g.sib) := by
      simp only [t', p', if_neg hdir, hp, RbTree.rot_mk, RbTree.paint_mk, RbTree.rot_other_mk]
    rw [heq, hp]
    refine ⟨RbTree.color_mk .., ?_, ?_⟩
    · exact (RbTree.bal_black ..).mpr ⟨n, rfl, by simp [*], by simp [*]⟩
    · cases g.dir <;> simp [RbTree.mk, RbTree.toList]

theorem ctxBal_recolor {f g : Frame α}
    (ht : t.Bal n) (hfs : CtxBal (f :: g :: fs) n) (hf : f.color = .red) (hu : g.sib.color = .red) :
    (RbTree.mk g.dir .red (RbTree.mk f.dir .black t f.elem f.sib) g.elem
        (g.sib.paint .black)).Bal (n + 1) ∧ CtxBal fs (n + 1) := by
  obtain ⟨d, c, x, s⟩ := f
  obtain ⟨d', c', y, u⟩ := g
  simp only at hf
  subst hf
  obtain ⟨hsc, hs, htop, hrest⟩ := hfs
  simp only [top] at htop
  subst htop
  obtain ⟨hu', hrest⟩ := hrest
  refine ⟨(RbTree.bal_red ..).mpr ⟨RbTree.color_mk .., ?_, ?_, RbTree.bal_paint_black hu' hu⟩, hrest⟩
  · cases u <;> rfl
  · exact (RbTree.bal_black ..).mpr ⟨n, rfl, ht, hs⟩

theorem insertFix_spec (fs : List (Frame α)) (ht : t.Bal n)
    (hred : t.color = .red) (hfs : CtxBal fs n) :
    RB (insertFix fs t) ∧ (insertFix fs t).toList = (plug fs t).toList := by
  induction fs, t using insertFix.induct generalizing n with
  | case1 t =>
    have hb := RbTree.bal_paint_black ht hred
    refine ⟨⟨?_, n + 1, hb⟩, RbTree.toList_paint ..⟩
    cases t <;> rfl
  | case2 f t =>
    obtain ⟨d, c, x, s⟩ := f
    cases c with
    | black => exact ⟨rb_plug ht hfs (fun h => nomatch h), rfl⟩
    | red => exact nomatch hfs.2.2.1
  | case3 f g fs t hblack =>
    rw [insertFix, if_pos hblack]
    exact ⟨rb_plug ht hfs (fun h => by simp [top, hblack] at h), rfl⟩
  | case4 f g fs t hf hu ih =>
    rw [insertFix, if_neg hf, if_pos hu]
    obtain ⟨hbal, hrest⟩ := ctxBal_recolor ht hfs (Color.eq_red hf) hu
    obtain ⟨hrb, hlist⟩ := ih hbal (RbTree.color_mk ..) hrest
    refine ⟨hrb, hlist.trans ?_⟩
    apply toList_plug_congr
    cases f.dir <;> cases g.dir <;> simp [RbTree.mk, RbTree.toList]
  | case5 f g fs t hf hu =>
    obtain ⟨d, c, x, s⟩ := f
    cases c with
    | black => exact absurd rfl hf
    | red =>
      obtain ⟨hsc, hs, htop, hrest⟩ := hfs
      obtain ⟨d', c', y, u⟩ := g
      simp only [top] at htop
      subst htop
      have huc : u.color = .black := Color.eq_black hu
      obtain ⟨hc, hbal, hlist⟩ := insert_rotate ⟨d', .black, y, u⟩ ⟨d, .red, x, s⟩
        ht hred hs hsc hrest.1 huc
      rw [insertFix, if_neg hf, if_neg hu]
      exact ⟨rb_plug hbal hrest.2 (fun _ => hc), toList_plug_congr fs hlist⟩

/-- The sibling is black and has a red child: the rotations that end the loop. -/
def deleteEnd (d : Dir) (c : Color) (t : RbTree α) (x : α) (s : RbTree α) : RbTree α :=
  let s' := if (s.near d.other).color = .black then
      ((s.paintNear d .black).paint .red).rot d.other
    else s
  (RbTree.mk d .black t x ((s'.paint c).paintNear d.other .black)).rot d

theorem deleteEnd_far {d : Dir} {b e : RbTree α} {x y : α} (he : e.color = .red) :
    deleteEnd d c t x (.mk d .black b y e) =
      .mk d c (.mk d .black t x b) y (e.paint .black) := by
  simp [deleteEnd, RbTree.paintNear, he]

theorem deleteEnd_near {d : Dir} {b₁ b₂ e : RbTree α} {x y z : α} (he : e.color = .black) :
    deleteEnd d c t x (.mk d .black (.mk d .red b₁ z b₂) y e) =
      .mk d c (.mk d .black t x b₁) z ((RbTree.mk d .red b₂ y e).paint .black) := by
  simp [deleteEnd, RbTree.paintNear, he]

/-- The rotations that end a deletion restore the missing black node below the
parent, whatever the parent's color. -/
theorem deleteEnd_spec (d : Dir) (c : Color) {s : RbTree α} (x : α)
    (ht : t.Bal n) (hs : s.Bal (n + 1)) (hsc : s.color = .black)
    (hred : ¬ ((s.near d).color = .black ∧ (s.near d.other).color = .black)) :
    (deleteEnd d c t x s).color = c ∧
      (deleteEnd d c t x s).Bal (if c = .black then n + 2 else n + 1) ∧
      (deleteEnd d c t x s).toList = (RbTree.mk d c t x s).toList := by
  obtain ⟨cs, b, y, e, rfl⟩ := RbTree.exists_mk d (t := s) (by
    rintro rfl
    cases hs)
  rw [RbTree.color_mk] at hsc
  subst hsc
  obtain ⟨m, hm, hb, he⟩ := (RbTree.bal_black ..).mp hs
  obtain rfl : n = m := by omega
  simp only [RbTree.near_mk, RbTree.near_other_mk] at hred
  have hend (b' : RbTree α) (y' : α) (e' : RbTree α) (hb' : b'.Bal n)
      (he' : (e'.paint .black).Bal (n + 1)) (hec : (e'.paint .black).color = .black)
      (hlist : (RbTree.mk d .black b' y' e').toList = (RbTree.mk d .black b y e).toList) :
      let u := RbTree.mk d c (RbTree.mk d .black t x b') y' (e'.paint .black)
      u.color = c ∧ u.Bal (if c = .black then n + 2 else n + 1) ∧
        u.toList = (RbTree.mk d c t x (RbTree.mk d .black b y e)).toList := by
    intro u
    have hl : (RbTree.mk d .black t x b').Bal (n + 1) :=
      (RbTree.bal_black ..).mpr ⟨n, rfl, ht, hb'⟩
    refine ⟨RbTree.color_mk .., ?_, ?_⟩
    · cases c with
      | black => exact (RbTree.bal_black ..).mpr ⟨n + 1, rfl, hl, he'⟩
      | red => exact (RbTree.bal_red ..).mpr ⟨RbTree.color_mk .., hec, hl, he'⟩
    · cases d with
      | left => simpa [u, RbTree.mk, RbTree.toList] using hlist
      | right =>
        have happ := congrArg (· ++ x :: t.toList) hlist
        simpa [u, RbTree.mk, RbTree.toList] using happ
  cases hec : e.color with
  | red =>
    rw [deleteEnd_far hec]
    exact hend b y e hb (RbTree.bal_paint_black he hec) (by cases e <;> rfl) rfl
  | black =>
    have hbc : b.color = .red := by
      cases hbc : b.color with
      | black => exact absurd ⟨hbc, hec⟩ hred
      | red => rfl
    obtain ⟨cb, b₁, z, b₂, rfl⟩ := RbTree.exists_mk d (RbTree.ne_nil_of_red hbc)
    rw [RbTree.color_mk] at hbc
    subst hbc
    obtain ⟨hb₁c, hb₂c, hb₁, hb₂⟩ := (RbTree.bal_red ..).mp hb
    rw [deleteEnd_near hec]
    refine hend b₁ z (RbTree.mk d .red b₂ y e) hb₁ ?_ (by simp) ?_
    · rw [RbTree.paint_mk]
      exact (RbTree.bal_black ..).mpr ⟨n, rfl, hb₂, he⟩
    · exact (RbTree.toList_rotate ..).symm

/-- The sibling is black and both its children are: it turns red, and the missing
black node is now missing below the parent. -/
def bothBlack (d : Dir) (s : RbTree α) : Prop :=
  (s.near d).color = .black ∧ (s.near d.other).color = .black

instance (d : Dir) (s : RbTree α) : Decidable (bothBlack d s) :=
  inferInstanceAs (Decidable (_ ∧ _))

/-- The hole is filled by a subtree that lacks one black node. A red subtree is
painted black. Otherwise the sibling decides: a red one is rotated up first, a
black one with black children gives up its own blackness, and a red nephew ends
the work. -/
def deleteFix : List (Frame α) → RbTree α → RbTree α
  | [], t => t.paint .black
  | f :: fs, t =>
    if t.color = .red then plug (f :: fs) (t.paint .black)
    else if f.sib.color = .red then
      let s := f.sib.near f.dir
      let inner := if bothBlack f.dir s then
          RbTree.mk f.dir .black t f.elem (s.paint .red)
        else deleteEnd f.dir .red t f.elem s
      plug fs ((RbTree.setNear f.dir inner f.sib).paint .black)
    else if bothBlack f.dir f.sib then
      deleteFix fs (RbTree.mk f.dir f.color t f.elem (f.sib.paint .red))
    else plug fs (deleteEnd f.dir f.color t f.elem f.sib)

theorem deleteFix_red (fs : List (Frame α)) (h : t.color = .red) :
    deleteFix fs t = plug fs (t.paint .black) := by
  cases fs with
  | nil => rfl
  | cons f fs => rw [deleteFix, if_pos h]

theorem bal_paint_red (d : Dir) (h : t.Bal (n + 1))
    (hc : t.color = .black) (hb : bothBlack d t) : (t.paint .red).Bal n := by
  obtain ⟨c, a, x, b, rfl⟩ := RbTree.exists_mk d (t := t) (by
    rintro rfl
    cases h)
  rw [RbTree.color_mk] at hc
  subst hc
  simp only [bothBlack, RbTree.near_mk, RbTree.near_other_mk] at hb
  obtain ⟨m, hm, ha, hb'⟩ := (RbTree.bal_black ..).mp h
  obtain rfl : n = m := by omega
  rw [RbTree.paint_mk]
  exact (RbTree.bal_red ..).mpr ⟨hb.1, hb.2, ha, hb'⟩

theorem ctxBal_bothBlack {f : Frame α} (ht : t.Bal n) (hfs : CtxBal (f :: fs) (n + 1))
    (hf : f.color = .black) (hsc : f.sib.color = .black) (hboth : bothBlack f.dir f.sib) :
    (RbTree.mk f.dir f.color t f.elem (f.sib.paint .red)).Bal (n + 1) ∧
      CtxBal fs (n + 1 + 1) := by
  obtain ⟨d, c, x, s⟩ := f
  simp only at hf hsc
  subst hf
  have hpaint := bal_paint_red d hfs.1 hsc hboth
  exact ⟨(RbTree.bal_black ..).mpr ⟨n, rfl, ht, hpaint⟩, hfs.2⟩

theorem deleteFix_spec (fs : List (Frame α)) (ht : t.Bal n) (hfs : CtxBal fs (n + 1)) :
    RB (deleteFix fs t) ∧ (deleteFix fs t).toList = (plug fs t).toList := by
  induction fs, t using deleteFix.induct generalizing n with
  | case1 t =>
    refine ⟨⟨by cases t <;> rfl, ?_⟩, RbTree.toList_paint ..⟩
    cases hc : t.color with
    | red => exact ⟨n + 1, RbTree.bal_paint_black ht hc⟩
    | black =>
      refine ⟨n, ?_⟩
      cases t with
      | nil => exact ht
      | node c l x r =>
        cases hc
        exact ht
  | case2 f fs t hred =>
    rw [deleteFix, if_pos hred]
    exact ⟨rb_plug (RbTree.bal_paint_black ht hred) hfs (fun _ => by cases t <;> rfl),
      toList_plug_congr (f :: fs) (RbTree.toList_paint ..)⟩
  | case3 f fs t hblack hsib =>
    obtain ⟨d, c, x, s⟩ := f
    obtain ⟨cs, b, y, e, rfl⟩ := RbTree.exists_mk d (RbTree.ne_nil_of_red hsib)
    rw [RbTree.color_mk] at hsib
    subst hsib
    cases c with
    | red => exact nomatch (RbTree.color_mk d .red b y e).symm.trans hfs.1
    | black =>
      obtain ⟨hs, hrest⟩ := hfs
      obtain ⟨hbc, hec, hb, he⟩ := (RbTree.bal_red ..).mp hs
      have htc : t.color = .black := Color.eq_black hblack
      have hinner : ∀ inner : RbTree α, inner.Bal (n + 1) →
          inner.toList = (RbTree.mk d .red t x b).toList →
          RB (plug fs (RbTree.mk d .black inner y e)) ∧
            (plug fs (RbTree.mk d .black inner y e)).toList =
              (plug fs (RbTree.mk d .black t x (RbTree.mk d .red b y e))).toList := by
        intro inner hbal hlist
        refine ⟨rb_plug ((RbTree.bal_black ..).mpr ⟨n + 1, rfl, hbal, he⟩) hrest
          (fun _ => RbTree.color_mk ..), toList_plug_congr fs ?_⟩
        rw [← RbTree.toList_rotate d .black .red]
        cases d <;> simp only [RbTree.mk, RbTree.toList] at hlist ⊢ <;> rw [hlist]
      rw [deleteFix, if_neg hblack, if_pos (RbTree.color_mk ..)]
      simp only [RbTree.near_mk, RbTree.setNear_mk, RbTree.paint_mk]
      split
      next hboth =>
        have hpaint := bal_paint_red d hb hbc hboth
        exact hinner (RbTree.mk d .black t x (b.paint .red))
          ((RbTree.bal_black ..).mpr ⟨n, rfl, ht, hpaint⟩)
          (by cases d <;> simp [RbTree.mk, RbTree.toList])
      next hone =>
        obtain ⟨_, hbal, hlist⟩ := deleteEnd_spec d .red x ht hb hbc hone
        exact hinner _ hbal hlist
  | case4 f fs t hblack hsib hboth ih =>
    have hbothBlack := ctxBal_bothBlack ht hfs
    obtain ⟨d, c, x, s⟩ := f
    have hsc : s.color = .black := Color.eq_black hsib
    rw [deleteFix, if_neg hblack, if_neg hsib, if_pos hboth]
    have hlist : (RbTree.mk d c t x (s.paint .red)).toList = (RbTree.mk d c t x s).toList := by
      cases d <;> simp [RbTree.mk, RbTree.toList]
    have htc : t.color = .black := Color.eq_black hblack
    cases c with
    | black =>
      obtain ⟨hbal, hrest⟩ := hbothBlack rfl hsc hboth
      obtain ⟨hrb, hl⟩ := ih hbal hrest
      exact ⟨hrb, hl.trans (toList_plug_congr fs hlist)⟩
    | red =>
      obtain ⟨_, hs, htop, hrest⟩ := hfs
      have hpaint := bal_paint_red d hs hsc hboth
      have hbal : ((RbTree.mk d .red t x (s.paint .red)).paint .black).Bal (n + 1) := by
        rw [RbTree.paint_mk]
        exact (RbTree.bal_black ..).mpr ⟨n, rfl, ht, hpaint⟩
      have hfix := deleteFix_red fs (RbTree.color_mk d .red t x (s.paint .red))
      change RB (deleteFix fs (RbTree.mk d .red t x (s.paint .red))) ∧ _
      refine ⟨?_, ?_⟩
      · rw [hfix]
        exact rb_plug hbal hrest (fun _ => by rw [RbTree.paint_mk, RbTree.color_mk])
      · change (deleteFix fs (RbTree.mk d .red t x (s.paint .red))).toList = _
        rw [hfix]
        exact toList_plug_congr fs ((RbTree.toList_paint ..).trans hlist)
  | case5 f fs t hblack hsib hone =>
    obtain ⟨d, c, x, s⟩ := f
    have hsc : s.color = .black := Color.eq_black hsib
    rw [deleteFix, if_neg hblack, if_neg hsib, if_neg hone]
    cases c with
    | black =>
      obtain ⟨hs, hrest⟩ := hfs
      obtain ⟨hc, hbal, hlist⟩ := deleteEnd_spec d .black x ht hs hsc hone
      exact ⟨rb_plug hbal hrest (fun _ => hc), toList_plug_congr fs hlist⟩
    | red =>
      obtain ⟨_, hs, htop, hrest⟩ := hfs
      obtain ⟨hc, hbal, hlist⟩ := deleteEnd_spec d .red x ht hs hsc hone
      exact ⟨rb_plug hbal hrest (fun h => by simp [htop] at h),
        toList_plug_congr fs hlist⟩

end Sfslite.Lib.RedBlack
