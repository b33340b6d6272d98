import Sfslite.Lib.RedBlack

/-!
The intrusive red-black tree of `itree.C`. A container is its address and 0 is null; the memory
holds the `itree_entry` of each container. The two mirrored branches of every routine are one that
names the side. Loops take fuel and answer `none` when it runs out or an assertion fails.

`Rep s fs t` says that the pointers of `s` are those of the tree with focus `t` and frames `fs`; the
routines are specified by what they do to the tree in focus.
-/

namespace Sfslite.Async

open Sfslite.Lib.RedBlack

inductive ItreeColor where
  | invalid
  | black
  | red
  deriving DecidableEq, Repr

structure ItreeEntry where
  rbeUp : ℕ
  rbeLeft : ℕ
  rbeRight : ℕ
  rbeColor : ItreeColor
  deriving DecidableEq, Repr

def ItreeEntry.child (e : ItreeEntry) : Dir → ℕ
  | .left => e.rbeLeft
  | .right => e.rbeRight

def ItreeEntry.setChild (e : ItreeEntry) (d : Dir) (v : ℕ) : ItreeEntry :=
  match d with
  | .left => { e with rbeLeft := v }
  | .right => { e with rbeRight := v }

def ItreeEntry.setUp (e : ItreeEntry) (v : ℕ) : ItreeEntry := { e with rbeUp := v }

def ItreeEntry.setColor (e : ItreeEntry) (c : ItreeColor) : ItreeEntry :=
  { e with rbeColor := c }

/-- The root pointer and the entries of all containers. -/
structure Itree where
  rbRoot : ℕ
  mem : ℕ → ItreeEntry

namespace Itree

def up (s : Itree) (n : ℕ) : ℕ := (s.mem n).rbeUp

def child (s : Itree) (d : Dir) (n : ℕ) : ℕ := (s.mem n).child d

/-- The macro `color`: the null pointer is black. -/
def color (s : Itree) (n : ℕ) : ItreeColor :=
  if n = 0 then .black else (s.mem n).rbeColor

def write (s : Itree) (n : ℕ) (e : ItreeEntry) : Itree :=
  { s with mem := Function.update s.mem n e }

def setUp (s : Itree) (n v : ℕ) : Itree := s.write n ((s.mem n).setUp v)

def setChild (s : Itree) (d : Dir) (n v : ℕ) : Itree := s.write n ((s.mem n).setChild d v)

/-- The macro `lcolor` on the left of an assignment. -/
def setColor (s : Itree) (n : ℕ) (c : ItreeColor) : Itree :=
  s.write n ((s.mem n).setColor c)

def setRoot (s : Itree) (v : ℕ) : Itree := { s with rbRoot := v }

/-- `clear`: an empty tree; the entries of the containers stay as they are. -/
def clear (s : Itree) : Itree := s.setRoot 0

/-- What points to `x` below `p` now points to `y`. The code asks first whether
`x` is the child of `p` on side `d`. -/
def replaceChild (d : Dir) (s : Itree) (p x y : ℕ) : Itree :=
  if p = 0 then s.setRoot y
  else if x = s.child d p then s.setChild d p y
  else s.setChild d.other p y

/-- Set the parent pointer of `n`, unless `n` is null. -/
def setUpIf (s : Itree) (n v : ℕ) : Itree := if n ≠ 0 then s.setUp n v else s

/-- Rotation of `x` towards side `d`; its child on the other side comes up. -/
def itreeRotate (d : Dir) (s : Itree) (x : ℕ) : Itree :=
  let y := s.child d.other x
  let b := s.child d y
  let s := s.setChild d.other x b
  let s := s.setUpIf b x
  let s := s.setUp y (s.up x)
  let s := replaceChild d s (s.up x) x y
  let s := s.setChild d y x
  s.setUp x y

def itreeLeftRotate (s : Itree) (x : ℕ) : Itree := itreeRotate .left s x

def itreeRightRotate (s : Itree) (y : ℕ) : Itree := itreeRotate .right s y

/-- The `while` loop of `itree_insert_fix`. -/
def itreeInsertFixLoop : ℕ → Itree → ℕ → Option Itree
  | 0, _, _ => none
  | fuel + 1, s, x =>
    if s.color (s.up x) = .red then
      let gp := s.up (s.up x)
      let d := if s.up x = s.child .left gp then Dir.left else Dir.right
      let y := s.child d.other gp
      if s.color y = .red then
        let s := s.setColor (s.up x) .black
        let s := s.setColor y .black
        let s := s.setColor gp .red
        itreeInsertFixLoop fuel s gp
      else
        let inner := x = s.child d.other (s.up x)
        let x' := if inner then s.up x else x
        let s := if inner then itreeRotate d s x' else s
        let s := s.setColor (s.up x') .black
        let s := s.setColor (s.up (s.up x')) .red
        let s := itreeRotate d.other s (s.up (s.up x'))
        itreeInsertFixLoop fuel s x'
    else some s

def itreeInsertFix (fuel : ℕ) (s : Itree) (x : ℕ) : Option Itree := do
  let s ← itreeInsertFixLoop fuel (s.setColor x .red) x
  return s.setColor s.rbRoot .black

/-- The descent of `itree_insert`: the last container `y` on the way down from
`x`, and the result of comparing `z` with it. -/
def itreeInsertDescend (cmpfn : ℕ → ℕ → Int) (s : Itree) (z : ℕ) :
    ℕ → (x y : ℕ) → Int → Option (ℕ × Int)
  | 0, _, _, _ => none
  | fuel + 1, x, y, cmpres =>
    if x = 0 then some (y, cmpres)
    else
      let cmpres := cmpfn z x
      itreeInsertDescend cmpfn s z fuel
        (if cmpres < 0 then s.child .left x else s.child .right x) x cmpres

def itreeInsert (cmpfn : ℕ → ℕ → Int) (fuel : ℕ) (s : Itree) (z : ℕ) : Option Itree := do
  let s := (s.setChild .left z 0).setChild .right z 0
  let (y, cmpres) ← itreeInsertDescend cmpfn s z fuel s.rbRoot 0 0
  let s := s.setUp z y
  let s :=
    if y = 0 then s.setRoot z
    else if cmpres < 0 then s.setChild .left y z
    else s.setChild .right y z
  itreeInsertFix fuel s z

def itreeMinimum (s : Itree) : ℕ → ℕ → Option ℕ
  | 0, _ => none
  | fuel + 1, x =>
    let y := s.child .left x
    if y ≠ 0 then itreeMinimum s fuel y else some x

/-- The climb of `itree_successor`, while `x` is a right child of `y`. -/
def itreeSuccessorClimb (s : Itree) : ℕ → (x y : ℕ) → Option ℕ
  | 0, _, _ => none
  | fuel + 1, x, y =>
    if y ≠ 0 ∧ x = s.child .right y then itreeSuccessorClimb s fuel y (s.up y)
    else some y

def itreeSuccessor (fuel : ℕ) (s : Itree) (x : ℕ) : Option ℕ :=
  let y := s.child .right x
  if y ≠ 0 then itreeMinimum s fuel y
  else itreeSuccessorClimb s fuel x (s.up x)

/-- The body of the `while` loop of `itree_delete_fixup` once the sibling `w` is black:
the new tree and the new `x`. -/
def itreeDeleteFixupBlack (d : Dir) (s : Itree) (p w : ℕ) : Itree × ℕ :=
  if s.color (s.child d w) = .black ∧ s.color (s.child d.other w) = .black then
    (s.setColor w .red, p)
  else
    let farBlack := s.color (s.child d.other w) = .black
    let s :=
      if farBlack then
        itreeRotate d.other ((s.setColor (s.child d w) .black).setColor w .red) w
      else s
    let w := if farBlack then s.child d.other p else w
    let s := s.setColor w (s.color p)
    let s := s.setColor p .black
    let s := s.setColor (s.child d.other w) .black
    let s := itreeRotate d s p
    (s, s.rbRoot)

/-- The `while` loop of `itree_delete_fixup`. -/
def itreeDeleteFixupLoop : ℕ → Itree → (x p : ℕ) → Option (Itree × ℕ)
  | 0, _, _, _ => none
  | fuel + 1, s, x, p =>
    if x ≠ s.rbRoot ∧ s.color x = .black then
      let p := if x ≠ 0 then s.up x else p
      let d := if x = s.child .left p then Dir.left else Dir.right
      let w := s.child d.other p
      let redSib := s.color w = .red
      let s :=
        if redSib then itreeRotate d ((s.setColor w .black).setColor p .red) p else s
      let w := if redSib then s.child d.other p else w
      let (s, x) := itreeDeleteFixupBlack d s p w
      itreeDeleteFixupLoop fuel s x p
    else some (s, x)

def itreeDeleteFixup (fuel : ℕ) (s : Itree) (x p : ℕ) : Option Itree := do
  -- assert (!x || up (x) == p)
  if x ≠ 0 ∧ s.up x ≠ p then none
  let (s, x) ← itreeDeleteFixupLoop fuel s x p
  return if x ≠ 0 then s.setColor x .black else s

def itreeDelete (fuel : ℕ) (s : Itree) (z : ℕ) : Option Itree := do
  let y ←
    if s.child .left z ≠ 0 ∧ s.child .right z ≠ 0 then itreeSuccessor fuel s z else some z
  let p := s.up y
  let x := if s.child .left y ≠ 0 then s.child .left y else s.child .right y
  let s := s.setUpIf x p
  let s := replaceChild .left s p y x
  let c := s.color y
  let replaced := y ≠ z
  let pz := s.up z
  let s :=
    if replaced then
      let s := replaceChild .left s pz z y
      let s := s.setUpIf (s.child .left z) y
      let s := s.setUpIf (s.child .right z) y
      s.write y (s.mem z)
    else s
  let p := if replaced ∧ p = z then y else p
  if c = .black then itreeDeleteFixup fuel s x p else some s

/-- `itree_check_node`: every assertion below `x`. The ends `low` and `high` are null
where there is no bound; `bd` counts the black nodes above. -/
def itreeCheckNode (cmpfn : ℕ → ℕ → Int) (s : Itree) (lbd : Int) :
    ℕ → (x low high : ℕ) → Int → Bool
  | 0, _, _, _, _ => false
  | fuel + 1, x, low, high, bd =>
    let bd := if s.color x = .black then bd + 1 else bd
    if x = 0 then bd = lbd
    else
      let cx := s.color x
      let l := s.child .left x
      let cl := s.color l
      let r := s.child .right x
      let cr := s.color r
      (l = 0 ∨ s.up l = x) && (r = 0 ∨ s.up r = x) &&
        (cx = .black ∨ cx = .red) && (cx = .black ∨ (cl = .black ∧ cr = .black)) &&
        (low = 0 ∨ cmpfn low x ≤ 0) && (high = 0 ∨ cmpfn x high ≤ 0) &&
        itreeCheckNode cmpfn s lbd fuel l low x bd &&
        itreeCheckNode cmpfn s lbd fuel r x high bd

/-- The black nodes on the way down the left side, as `__itree_check` counts them. -/
def itreeLeftDepth (s : Itree) : ℕ → (x : ℕ) → Int → Option Int
  | 0, _, _ => none
  | fuel + 1, x, lbd =>
    if x = 0 then some lbd
    else
      let x := s.child .left x
      itreeLeftDepth s fuel x (if s.color x = .black then lbd + 1 else lbd)

/-- `__itree_check`: whether all its assertions hold. -/
def itreeCheck (cmpfn : ℕ → ℕ → Int) (fuel : ℕ) (s : Itree) : Bool :=
  match itreeLeftDepth s fuel s.rbRoot 0 with
  | none => false
  | some lbd =>
    s.color s.rbRoot = .black && (s.rbRoot = 0 ∨ s.up s.rbRoot = 0) &&
      itreeCheckNode cmpfn s lbd fuel s.rbRoot 0 0 (-1)

end Itree

def ItreeColor.of : Color → ItreeColor
  | .black => .black
  | .red => .red

@[simp] theorem ItreeColor.of_eq_red (c : Color) : ItreeColor.of c = .red ↔ c = .red := by
  cases c <;> simp [ItreeColor.of]

@[simp] theorem ItreeColor.of_eq_black (c : Color) : ItreeColor.of c = .black ↔ c = .black := by
  cases c <;> simp [ItreeColor.of]

/-- The entry of a node seen from its side `d`. -/
def ItreeEntry.at (d : Dir) (up near far : ℕ) (c : ItreeColor) : ItreeEntry :=
  match d with
  | .left => ⟨up, near, far, c⟩
  | .right => ⟨up, far, near, c⟩

namespace ItreeEntry

variable (e : ItreeEntry) (d : Dir) (u a b v : ℕ) (c : ItreeColor)

@[simp] theorem child_at : (ItreeEntry.at d u a b c).child d = a := by cases d <;> rfl

@[simp] theorem child_other_at : (ItreeEntry.at d u a b c).child d.other = b := by
  cases d <;> rfl

@[simp] theorem rbeUp_at : (ItreeEntry.at d u a b c).rbeUp = u := by cases d <;> rfl

@[simp] theorem rbeColor_at : (ItreeEntry.at d u a b c).rbeColor = c := by cases d <;> rfl

@[simp] theorem setChild_at :
    (ItreeEntry.at d u a b c).setChild d v = .at d u v b c := by cases d <;> rfl

@[simp] theorem setChild_other_at :
    (ItreeEntry.at d u a b c).setChild d.other v = .at d u a v c := by cases d <;> rfl

@[simp] theorem setUp_at :
    (ItreeEntry.at d u a b c).setUp v = .at d v a b c := by cases d <;> rfl

@[simp] theorem setColor_at (c' : ItreeColor) :
    (ItreeEntry.at d u a b c).setColor c' = .at d u a b c' := by cases d <;> rfl

end ItreeEntry

/-- The address of the root of a tree of addresses, null where it is empty. -/
def addr : RbTree ℕ → ℕ
  | .nil => 0
  | .node _ _ x _ => x

@[simp] theorem addr_nil : addr .nil = 0 := rfl

@[simp] theorem addr_mk (d : Dir) (c : Color) (a : RbTree ℕ) (x : ℕ) (b : RbTree ℕ) :
    addr (.mk d c a x b) = x := by cases d <;> rfl

/-- The node above the hole, null above the root. -/
def parent : List (Frame ℕ) → ℕ
  | [] => 0
  | f :: _ => f.elem

/-- The memory holds the tree `t` below the node `up`. -/
def TreeAt (m : ℕ → ItreeEntry) : ℕ → RbTree ℕ → Prop
  | _, .nil => True
  | up, .node c l x r =>
    x ≠ 0 ∧ m x = ⟨up, addr l, addr r, .of c⟩ ∧ TreeAt m x l ∧ TreeAt m x r

/-- The memory and the root pointer hold the frames around a hole at `hole`. -/
def CtxAt (m : ℕ → ItreeEntry) (root : ℕ) : List (Frame ℕ) → ℕ → Prop
  | [], hole => root = hole
  | f :: fs, hole =>
    f.elem ≠ 0 ∧ m f.elem = .at f.dir (parent fs) hole (addr f.sib) (.of f.color) ∧
      TreeAt m f.elem f.sib ∧ CtxAt m root fs f.elem

def ctxList : List (Frame ℕ) → List ℕ
  | [] => []
  | f :: fs => f.elem :: (f.sib.toList ++ ctxList fs)

def Rep (s : Itree) (fs : List (Frame ℕ)) (t : RbTree ℕ) : Prop :=
  CtxAt s.mem s.rbRoot fs (addr t) ∧ TreeAt s.mem (parent fs) t ∧
    (t.toList ++ ctxList fs).Nodup

@[simp] theorem treeAt_mk (m : ℕ → ItreeEntry) (u : ℕ) (d : Dir) (c : Color) (a : RbTree ℕ)
    (x : ℕ) (b : RbTree ℕ) :
    TreeAt m u (.mk d c a x b) ↔
      x ≠ 0 ∧ m x = .at d u (addr a) (addr b) (.of c) ∧ TreeAt m x a ∧ TreeAt m x b := by
  cases d with
  | left => rfl
  | right =>
    simp only [RbTree.mk, TreeAt, ItreeEntry.at]
    tauto

theorem toList_mk_perm (d : Dir) (c : Color) (a : RbTree ℕ) (x : ℕ) (b : RbTree ℕ) :
    (RbTree.mk d c a x b).toList.Perm (x :: (a.toList ++ b.toList)) := by
  cases d with
  | left => exact List.perm_middle
  | right => exact List.perm_middle.trans (List.Perm.cons _ List.perm_append_comm)

@[simp] theorem mem_toList_mk (d : Dir) (c : Color) (a : RbTree ℕ) (x : ℕ) (b : RbTree ℕ)
    (i : ℕ) : i ∈ (RbTree.mk d c a x b).toList ↔ i = x ∨ i ∈ a.toList ∨ i ∈ b.toList := by
  simp [(toList_mk_perm d c a x b).mem_iff]

theorem toList_plug_perm (fs : List (Frame ℕ)) (t : RbTree ℕ) :
    (plug fs t).toList.Perm (t.toList ++ ctxList fs) := by
  induction fs generalizing t with
  | nil => simp [plug, ctxList]
  | cons f fs ih =>
    refine (ih _).trans ?_
    refine ((toList_mk_perm ..).append_right _).trans ?_
    simp only [ctxList, List.cons_append, List.append_assoc]
    exact List.perm_middle.symm

theorem rep_cons (s : Itree) (f : Frame ℕ) (fs : List (Frame ℕ)) (t : RbTree ℕ) :
    Rep s (f :: fs) t ↔ Rep s fs (.mk f.dir f.color t f.elem f.sib) := by
  have hperm : (t.toList ++ ctxList (f :: fs)).Perm
      ((RbTree.mk f.dir f.color t f.elem f.sib).toList ++ ctxList fs) := by
    refine List.Perm.trans ?_ ((toList_mk_perm ..).append_right _).symm
    simp only [ctxList, List.cons_append, List.append_assoc]
    exact List.perm_middle
  simp only [Rep, CtxAt, addr_mk, treeAt_mk, parent, hperm.nodup_iff]
  tauto

theorem rep_sib (s : Itree) (f : Frame ℕ) (fs : List (Frame ℕ)) (t : RbTree ℕ) :
    Rep s (f :: fs) t ↔ Rep s (⟨f.dir.other, f.color, f.elem, t⟩ :: fs) f.sib := by
  rw [rep_cons, rep_cons, RbTree.mk_other]

theorem rep_plug (s : Itree) (fs : List (Frame ℕ)) (t : RbTree ℕ) :
    Rep s fs t ↔ Rep s [] (plug fs t) := by
  induction fs generalizing t with
  | nil => rfl
  | cons f fs ih => rw [rep_cons, ih, plug]

variable {m m' : ℕ → ItreeEntry} {t : RbTree ℕ}

theorem TreeAt.congr {u : ℕ} (h : TreeAt m u t)
    (heq : ∀ i ∈ t.toList, m' i = m i) : TreeAt m' u t := by
  induction t generalizing u with
  | nil => trivial
  | node c l x r ihl ihr =>
    obtain ⟨hx, hm, hl, hr⟩ := h
    refine ⟨hx, (heq x (by simp [RbTree.toList])).trans hm, ihl hl ?_, ihr hr ?_⟩
    · exact fun i hi => heq i (by simp [RbTree.toList, hi])
    · exact fun i hi => heq i (by simp [RbTree.toList, hi])

theorem CtxAt.congr {root hole : ℕ} {fs : List (Frame ℕ)}
    (h : CtxAt m root fs hole) (heq : ∀ i ∈ ctxList fs, m' i = m i) : CtxAt m' root fs hole := by
  induction fs generalizing hole with
  | nil => exact h
  | cons f fs ih =>
    obtain ⟨hx, hm, hs, hc⟩ := h
    refine ⟨hx, (heq _ (by simp [ctxList])).trans hm, hs.congr ?_, ih hc ?_⟩
    · exact fun i hi => heq i (by simp [ctxList, hi])
    · exact fun i hi => heq i (by simp [ctxList, hi])

theorem addr_mem (h : addr t ≠ 0) : addr t ∈ t.toList := by
  cases t with
  | nil => exact absurd rfl h
  | node c l x r => simp [addr, RbTree.toList]

theorem TreeAt.ne_zero {u : ℕ} (h : TreeAt m u t) : ∀ i ∈ t.toList, i ≠ 0 := by
  induction t generalizing u with
  | nil => simp [RbTree.toList]
  | node c l x r ihl ihr =>
    obtain ⟨hx, _, hl, hr⟩ := h
    intro i hi
    simp only [RbTree.toList, List.mem_append, List.mem_cons] at hi
    rcases hi with hi | rfl | hi
    · exact ihl hl i hi
    · exact hx
    · exact ihr hr i hi

theorem CtxAt.ne_zero {root hole : ℕ} {fs : List (Frame ℕ)}
    (h : CtxAt m root fs hole) : ∀ i ∈ ctxList fs, i ≠ 0 := by
  induction fs generalizing hole with
  | nil => simp [ctxList]
  | cons f fs ih =>
    obtain ⟨hx, _, hs, hc⟩ := h
    intro i hi
    simp only [ctxList, List.mem_cons, List.mem_append] at hi
    rcases hi with rfl | hi | hi
    · exact hx
    · exact hs.ne_zero i hi
    · exact ih hc i hi

theorem addr_eq_zero {u : ℕ} (h : TreeAt m u t) : addr t = 0 ↔ t = .nil := by
  cases t with
  | nil => simp
  | node c l x r =>
    simp only [addr, reduceCtorEq, iff_false]
    exact h.1

theorem TreeAt.setUp {u v : ℕ} (h : TreeAt m u t)
    (hnd : t.toList.Nodup) (hroot : addr t ≠ 0 → m' (addr t) = (m (addr t)).setUp v)
    (heq : ∀ i ∈ t.toList, i ≠ addr t → m' i = m i) : TreeAt m' v t := by
  cases t with
  | nil => trivial
  | node c l x r =>
    obtain ⟨hx, hm, hl, hr⟩ := h
    simp only [RbTree.toList, List.nodup_append, List.nodup_cons, List.mem_cons] at hnd
    obtain ⟨_, ⟨hxr, _⟩, hdisj⟩ := hnd
    have hroot' : m' x = (m x).setUp v := hroot hx
    rw [hm] at hroot'
    refine ⟨hx, hroot', hl.congr ?_, hr.congr ?_⟩
    · intro i hi
      exact heq i (by simp [RbTree.toList, hi]) (fun h => hdisj i hi x (Or.inl rfl) h)
    · intro i hi
      refine heq i (by simp [RbTree.toList, hi]) ?_
      rintro rfl
      exact hxr hi

end Sfslite.Async
