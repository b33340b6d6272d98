import Mathlib.Data.Finset.Card
import Sfslite.Async.ItreeDelete
import Sfslite.Lib.PostorderSkip

/-!
`rctree.h`: a tree of nodes that hold references to the elements. Nodes and elements are named by
their addresses; a failed assertion, an access through a null pointer and a loop that runs out of
fuel answer `none`.

`clear` removes the elements while it walks the tree in postorder, and gets to all of them exactly
when every node off the left edge has two children or none.
-/

namespace Sfslite.Async

namespace Itree

/-- The loop of `min_postorder`. -/
def minPostorderLoop (s : Itree) : ℕ → ℕ → Option ℕ
  | 0, _ => none
  | fuel + 1, n =>
    let nn := s.child .left n
    if nn ≠ 0 then minPostorderLoop s fuel nn
    else
      let nn := s.child .right n
      if nn ≠ 0 then minPostorderLoop s fuel nn else some n

def minPostorder (fuel : ℕ) (s : Itree) (n : ℕ) : Option ℕ :=
  if n ≠ 0 then minPostorderLoop s fuel n else some n

def nextPostorder (fuel : ℕ) (s : Itree) (n : ℕ) : Option ℕ :=
  let nn := s.up n
  let nnr := s.child .right nn
  if nn ≠ 0 ∧ nnr ≠ 0 ∧ n ≠ nnr then minPostorder fuel s nnr else some nn

end Itree

/-- The tree and its nodes. `key` and `elm` are `_key` and `_elm` of a node, `node` is `_node` of
the entry of an element, `nodes` are the nodes there are, and `refs` counts the references to an
element. -/
structure Rctree (K : Type) where
  tree : Itree
  key : ℕ → K
  elm : ℕ → ℕ
  node : ℕ → Option ℕ
  nodes : Finset ℕ
  refs : ℕ → ℕ

namespace Rctree

variable {K : Type}

/-- An empty tree, whatever the memory holds. The program has `held e` references to the
element `e`. -/
def init (mem : ℕ → ItreeEntry) (key : ℕ → K) (held : ℕ → ℕ) : Rctree K where
  tree := ⟨0, mem⟩
  key := key
  elm _ := 0
  node _ := none
  nodes := ∅
  refs := held

/-- `mynode_t (k, n)` for the element `e`; the node gets the memory at `x`. -/
def newNode (s : Rctree K) (x : ℕ) (k : K) (e : ℕ) : Option (Rctree K) :=
  if x = 0 ∨ x ∈ s.nodes then none
  -- assert (!_node)
  else if s.node e ≠ none then none
  else some { s with
    key := Function.update s.key x k
    elm := Function.update s.elm x e
    node := Function.update s.node e (some x)
    nodes := insert x s.nodes
    refs := Function.update s.refs e (s.refs e + 1) }

def insert (cmp : K → K → Int) (fuel : ℕ) (s : Rctree K) (x : ℕ) (k : K) (e : ℕ) :
    Option (Rctree K) := do
  let s ← s.newNode x k e
  let tree ← s.tree.itreeInsert (fun a b => cmp (s.key a) (s.key b)) fuel x
  return { s with tree }

/-- `remove`, with `remove_from_tree` and the destructor of the node. -/
def remove (fuel : ℕ) (s : Rctree K) (p : ℕ) : Option (Rctree K) := do
  let n ← s.node p
  let tree ← s.tree.itreeDelete fuel n
  return { s with
    tree
    node := Function.update s.node p none
    nodes := s.nodes.erase n
    refs := Function.update s.refs (s.elm n) (s.refs (s.elm n) - 1) }

/-- The loop of `clear` from the node `n` on. -/
def clearLoop (fuel : ℕ) : ℕ → Rctree K → ℕ → Option (Rctree K)
  | 0, _, _ => none
  | k + 1, s, n =>
    if n = 0 then some s
    else do
      let nn ← s.tree.nextPostorder fuel n
      let s ← s.remove fuel (s.elm n)
      clearLoop fuel k s nn

def clear (fuel : ℕ) (s : Rctree K) : Option (Rctree K) := do
  let n ← s.tree.minPostorder fuel s.tree.rbRoot
  let s ← clearLoop fuel fuel s n
  return { s with tree := s.tree.clear }

/-- The calls. A new node gets the memory at `x`. -/
inductive Op (K : Type) where
  | insert (x : ℕ) (k : K) (e : ℕ)
  | remove (e : ℕ)
  | clear
deriving DecidableEq, Repr

def step (cmp : K → K → Int) (fuel : ℕ) (s : Rctree K) : Op K → Option (Rctree K)
  | .insert x k e => s.insert cmp fuel x k e
  | .remove e => s.remove fuel e
  | .clear => s.clear fuel

def Op.contents (l : List ℕ) : Op K → List ℕ
  | .insert _ _ e => e :: l
  | .remove e => l.erase e
  | .clear => []

/-- What is removed is in the tree. -/
def Op.Legal (l : List ℕ) : Op K → Prop
  | .remove e => e ∈ l
  | .insert _ _ _ | .clear => True

instance (l : List ℕ) : (op : Op K) → Decidable (op.Legal l)
  | .remove e => inferInstanceAs (Decidable (e ∈ l))
  | .insert _ _ _ | .clear => inferInstanceAs (Decidable True)

def LegalRun : List ℕ → List (Op K) → Prop
  | _, [] => True
  | l, op :: ops => op.Legal l ∧ LegalRun (op.contents l) ops

end Rctree

open Sfslite.Lib.RedBlack

namespace Itree

variable {s : Itree} {fs : List (Frame ℕ)} {t l r : RbTree ℕ} {c : Color} {u x fuel : ℕ}

theorem minPostorderLoop_spec (h : TreeAt s.mem u t) (ht : t ≠ .nil)
    (hfuel : t.toList.length < fuel) :
    minPostorderLoop s fuel (addr t) = some (t.postFirst.getD 0) := by
  induction t generalizing u fuel with
  | nil => exact absurd rfl ht
  | node c l x r ihl ihr =>
    obtain ⟨hx, hm, hl, hr⟩ := h
    simp only [RbTree.toList, List.length_append, List.length_cons] at hfuel
    obtain ⟨fuel, rfl⟩ : ∃ k, fuel = k + 1 := ⟨fuel - 1, by omega⟩
    have hleft : s.child .left x = addr l := by rw [child, hm]; rfl
    have hright : s.child .right x = addr r := by rw [child, hm]; rfl
    have haddr : addr (.node c l x r) = x := rfl
    rw [haddr, minPostorderLoop]
    simp only [hleft, hright, ne_eq, addr_eq_zero hl, addr_eq_zero hr]
    by_cases hl0 : l = .nil
    · subst hl0
      by_cases hr0 : r = .nil
      · subst hr0
        simp
      · rw [if_neg (by simp), if_pos hr0, ihr hr hr0 (by omega), RbTree.postFirst_right hr0]
    · rw [if_pos hl0, ihl hl hl0 (by omega), RbTree.postFirst_left hl0]

theorem minPostorder_spec (h : TreeAt s.mem u t) (hfuel : t.toList.length < fuel) :
    s.minPostorder fuel (addr t) = some (t.postFirst.getD 0) := by
  unfold minPostorder
  simp only [ne_eq, addr_eq_zero h]
  by_cases ht : t = .nil
  · subst ht
    rfl
  · rw [if_pos ht, minPostorderLoop_spec h ht hfuel]

theorem nextPostorder_spec (h : Rep s fs (.node c l x r))
    (hfuel : (plug fs (.node c l x r)).toList.length < fuel) :
    s.nextPostorder fuel x = some ((postNext fs).getD 0) := by
  have hup : s.up x = parent fs := h.up_focus RbTree.node_ne_nil
  unfold nextPostorder
  rw [hup]
  cases fs with
  | nil => simp [parent, postNext]
  | cons f fs =>
    obtain ⟨hf0, hm⟩ := h.frame
    have hsib := h.1.2.2.1
    have hpar : parent (f :: fs) = f.elem := rfl
    rw [hpar]
    cases hd : f.dir with
    | left =>
      have hright : s.child .right f.elem = addr f.sib := by
        rw [child, hm, hd]
        rfl
      have hne : x ≠ addr f.sib := h.addr_ne_sib (Or.inl RbTree.node_ne_nil)
      have hlen : f.sib.toList.length < fuel := by
        rw [toList_plug_eq] at hfuel
        simp only [rightOf, hd, List.length_append, List.length_cons] at hfuel
        omega
      simp only [hright, minPostorder_spec hsib hlen]
      by_cases hs : f.sib = .nil
      · simp [postNext, hd, hs]
      · have h0 : addr f.sib ≠ 0 := fun h0 => hs ((addr_eq_zero hsib).mp h0)
        simp only [postNext, hd, postFirst_or hs]
        rw [if_pos ⟨hf0, h0, hne⟩]
    | right =>
      have hright : s.child .right f.elem = x := by
        rw [child, hm, hd]
        rfl
      simp [hright, postNext, hd]

end Itree

namespace Rctree

variable {K : Type} {s s' : Rctree K} {t t' : RbTree ℕ} {held : ℕ → ℕ} {l : List ℕ}
variable {c : Color} {p e x fuel k : ℕ}

/-- The tree in memory is `t`, its nodes hold the elements that point back at them, and a node
counts for one reference. -/
structure Inv (held : ℕ → ℕ) (s : Rctree K) (t : RbTree ℕ) : Prop where
  rep : Rep s.tree [] t
  rb : RB t
  linked : ∀ x ∈ t.toList, s.node (s.elm x) = some x
  node : ∀ e x, s.node e = some x → x ∈ s.nodes ∧ s.elm x = e
  refs : ∀ e, s.refs e = held e + (s.node e).isSome.toNat

theorem Inv.nodup (h : Inv held s t) : t.toList.Nodup := by
  simpa [ctxList] using h.rep.2.2

theorem Inv.ne_zero (h : Inv held s t) (hx : x ∈ t.toList) : x ≠ 0 :=
  h.rep.2.1.ne_zero x hx

theorem mem_split {before after : List ℕ} {x y : ℕ} :
    y ∈ before ++ x :: after ↔ y = x ∨ y ∈ before ++ after :=
  List.perm_middle.mem_iff.trans List.mem_cons

/-- What taking the node `x` out does: the tree is `t'` without `x`, and the element of `x` has no
node and a reference less. -/
theorem Inv.remove {before after : List ℕ} {tree : Itree} (h : Inv held s t)
    (hx : t.toList = before ++ x :: after) (hdel : s.tree.itreeDelete fuel x = some tree)
    (hrep : Rep tree [] t') (hrb : RB t') (ht' : t'.toList = before ++ after) :
    ∃ s', s.remove fuel (s.elm x) = some s' ∧ Inv held s' t' ∧ s'.elm = s.elm ∧
      s'.node = Function.update s.node (s.elm x) none := by
  have hxt : x ∈ t.toList := by simp [hx]
  have hnode := h.linked x hxt
  have hnd := h.nodup
  have hnotin : x ∉ t'.toList := by
    rw [hx, List.nodup_middle, List.nodup_cons, ← ht'] at hnd
    exact hnd.1
  have hsub : ∀ y ∈ t'.toList, y ∈ t.toList := by
    intro y hy
    rw [hx]
    exact mem_split.mpr (.inr (ht' ▸ hy))
  refine ⟨{ s with
    tree
    node := Function.update s.node (s.elm x) none
    nodes := s.nodes.erase x
    refs := Function.update s.refs (s.elm x) (s.refs (s.elm x) - 1) }, ?_, ?_, rfl, rfl⟩
  · simp only [Rctree.remove, hnode, Option.bind_eq_bind, Option.bind_some, hdel]
    rfl
  · exact
      { rep := hrep
        rb := hrb
        linked := by
          intro y hy
          have hne : s.elm y ≠ s.elm x := by
            intro heq
            have hlink := h.linked y (hsub y hy)
            rw [heq, hnode] at hlink
            cases hlink
            exact hnotin hy
          simp only [Function.update_of_ne hne]
          exact h.linked y (hsub y hy)
        node := by
          intro e y hy
          simp only at hy ⊢
          by_cases he : e = s.elm x
          · subst he
            rw [Function.update_self] at hy
            cases hy
          · rw [Function.update_of_ne he] at hy
            obtain ⟨hmem, helm⟩ := h.node e y hy
            refine ⟨Finset.mem_erase.mpr ⟨?_, hmem⟩, helm⟩
            rintro rfl
            exact he helm.symm
        refs := by
          intro e
          by_cases he : e = s.elm x
          · subst he
            simp [h.refs, hnode]
          · simp [Function.update_of_ne he, h.refs] }

/-- Taking a node out, with what the walk does next: the rest of it empties the new tree exactly
when the walk empties the old one. -/
theorem walk_step (h : Inv held s t) (hx : x ∈ t.toList) (hfuel : t.toList.length < fuel) :
    ∃ fs c l r tree t', t = plug fs (.node c l x r) ∧ s.tree.itreeDelete fuel x = some tree ∧
      Rep tree [] t' ∧ Deleted fs (.node c l x r) t' ∧
      (postNext fs = t'.postFirst ∧ t'.EdgeFull ↔ some x = t.postFirst ∧ t.EdgeFull) := by
  by_cases hfirst : t.postFirst = some x
  · obtain ⟨fs, c, rfl, hwalk⟩ := walk_first h.rb h.nodup hfirst
    have hfoc := (rep_plug ..).mpr h.rep
    have hlen := Nat.lt_of_le_of_lt (length_le_toList_plug fs _) hfuel
    obtain ⟨tree, hdel, hrep⟩ := Itree.itreeDelete_one (d := .left) hfoc h.rb hlen
    refine ⟨fs, c, .nil, .nil, tree, _, rfl, hdel, hrep, .one fs .left c x .nil, ?_⟩
    rw [hwalk, hfirst]
    simp
  · obtain ⟨fs, c, l, r, rfl⟩ := exists_focus hx
    obtain ⟨tree, t', hdel, hrep, hcut⟩ :=
      Itree.itreeDelete_focus ((rep_plug ..).mpr h.rep) h.rb hfuel
    have hnd : t'.toList.Nodup := by simpa [ctxList] using hrep.2.2
    refine ⟨fs, c, l, r, tree, t', rfl, hdel, hrep, hcut, ?_⟩
    have hskip := skip_step h.rb hnd hcut hfirst
    constructor
    · exact fun hnext => absurd hnext.1 hskip
    · exact fun hnext => absurd hnext.1.symm hfirst

/-- What the loop of `clear` does from the node `n` on: it takes out some of the nodes, and all of
them exactly when `n` is the first one and the tree is full off its left edge. -/
theorem clearLoop_spec (h : Inv held s t) {n : Option ℕ} (hn : ∀ x ∈ n, x ∈ t.toList)
    (hlen : t.toList.length < k) (hfuel : t.toList.length < fuel) :
    ∃ s' t', clearLoop fuel k s (n.getD 0) = some s' ∧ Inv held s' t' ∧
      (t' = .nil ↔ n = t.postFirst ∧ t.EdgeFull) ∧ s'.elm = s.elm ∧
      (∀ e, s.node e = none → s'.node e = none) ∧ (∀ x ∈ t'.toList, x ∈ t.toList) ∧
      ∀ x ∈ t.toList, x ∉ t'.toList → s'.node (s.elm x) = none := by
  induction k generalizing s t n with
  | zero => omega
  | succ k ih =>
    cases n with
    | none =>
      refine ⟨s, t, rfl, h, ?_, rfl, fun _ he => he, fun _ hx => hx,
        fun x hx hx' => absurd hx hx'⟩
      constructor
      · rintro rfl
        exact ⟨rfl, trivial⟩
      · exact fun hnext => RbTree.postFirst_eq_none.mp hnext.1.symm
    | some x =>
      have hx := hn x rfl
      obtain ⟨fs, c, l, r, tree, t₁, rfl, hdel, hrep, hcut, hwalk⟩ := walk_step h hx hfuel
      obtain ⟨hrb, hsplit, hlist⟩ := hcut.split h.rb
      obtain ⟨s₁, hrem, h₁, helm, hnode⟩ := h.remove hsplit hdel hrep hrb hlist
      have hnext := Itree.nextPostorder_spec ((rep_plug ..).mpr h.rep) hfuel
      have hlen₁ : t₁.toList.length + 1 = (plug fs (.node c l x r)).toList.length := by
        rw [hsplit, hlist]
        simp only [List.length_append, List.length_cons]
        omega
      have hn₁ : ∀ y ∈ postNext fs, y ∈ t₁.toList := by
        intro y hy
        rw [hlist]
        rcases postNext_mem hy with hmem | hmem
        · exact List.mem_append_left _ (List.mem_append_left _ hmem)
        · exact List.mem_append_right _ (List.mem_append_right _ hmem)
      obtain ⟨s', t', hloop, h', hiff, helm', hnone, hsub, hout⟩ :=
        ih h₁ hn₁ (by omega) (by omega)
      refine ⟨s', t', ?_, h', hiff.trans hwalk, helm'.trans helm, ?_, ?_, ?_⟩
      · have hx0 := h.ne_zero hx
        rw [Option.getD_some, clearLoop, if_neg hx0, hnext]
        simp only [Option.bind_eq_bind, Option.bind_some, hrem]
        exact hloop
      · intro e he
        apply hnone
        rw [hnode, Function.update_apply, he, ite_self]
      · intro y hy
        rw [hsplit]
        exact mem_split.mpr (.inr (hlist ▸ hsub y hy))
      · intro y hy hy'
        rw [hsplit] at hy
        rcases mem_split.mp hy with rfl | hy₁
        · apply hnone
          rw [hnode, Function.update_self]
        · rw [← helm]
          exact hout y (hlist ▸ hy₁) hy'

/-- After `clear` no node is in the tree, and the elements of the tree `t` are removed: they have no
node, and a reference less. -/
structure Cleared (s : Rctree K) (t : RbTree ℕ) (s' : Rctree K) : Prop where
  empty : s'.tree.rbRoot = 0
  unlinked : ∀ x ∈ t.toList, s'.node (s.elm x) = none
  dropped : ∀ x ∈ t.toList, s'.refs (s.elm x) + 1 = s.refs (s.elm x)

theorem Inv.clear (h : Inv held s t) (hfuel : t.toList.length < fuel) :
    ∃ s', s.clear fuel = some s' ∧ Inv held s' .nil ∧ (Cleared s t s' ↔ t.EdgeFull) := by
  have hroot : s.tree.rbRoot = addr t := h.rep.1
  have hfirst := Itree.minPostorder_spec h.rep.2.1 hfuel
  obtain ⟨s', t', hloop, h', hiff, helm, hnone, hsub, hout⟩ :=
    clearLoop_spec h (fun x hx => RbTree.postFirst_mem hx) hfuel hfuel
  refine ⟨{ s' with tree := s'.tree.clear }, ?_, ?_, ?_⟩
  · simp only [Rctree.clear, hroot, hfirst, Option.bind_eq_bind, Option.bind_some, hloop]
    rfl
  · exact
      { rep := ⟨rfl, trivial, List.nodup_nil⟩
        rb := ⟨rfl, 0, rfl⟩
        linked := fun x hx => absurd hx List.not_mem_nil
        node := h'.node
        refs := h'.refs }
  · have hall : t' = .nil ↔ t.EdgeFull := by
      rw [hiff]
      exact and_iff_right rfl
    rw [← hall]
    constructor
    · intro hclear
      by_contra hnil
      obtain ⟨x, hx⟩ := List.exists_mem_of_ne_nil _ fun h => hnil (RbTree.toList_eq_nil.mp h)
      have hlink := h'.linked x hx
      have hun := hclear.unlinked x (hsub x hx)
      rw [helm] at hlink
      exact nomatch hlink.symm.trans hun
    · rintro rfl
      have hun : ∀ x ∈ t.toList, s'.node (s.elm x) = none :=
        fun x hx => hout x hx List.not_mem_nil
      exact
        { empty := rfl
          unlinked := hun
          dropped := by
            intro x hx
            simp [h.refs, h'.refs, h.linked x hx, hun x hx] }

variable {cmp : K → K → Int} {mem : ℕ → ItreeEntry} {key : ℕ → K} {op : Op K} {ops : List (Op K)}

theorem inv_init (mem : ℕ → ItreeEntry) (key : ℕ → K) (held : ℕ → ℕ) :
    Inv held (init mem key held) .nil where
  rep := ⟨rfl, trivial, List.nodup_nil⟩
  rb := ⟨rfl, 0, rfl⟩
  linked _ hx := absurd hx List.not_mem_nil
  node _ _ hx := nomatch hx
  refs _ := rfl

/-- The tree is in memory, and its elements are those of `l`. -/
def Contains (held : ℕ → ℕ) (s : Rctree K) (t : RbTree ℕ) (l : List ℕ) : Prop :=
  Inv held s t ∧ (t.toList.map s.elm).Perm l

theorem Contains.insert {key : K} (h : Contains held s t l)
    (hs : s.insert cmp fuel x key e = some s') (hfuel : l.length < fuel) :
    ∃ t', Contains held s' t' (e :: l) := by
  obtain ⟨hinv, hperm⟩ := h
  have hlen : t.toList.length < fuel := by
    rwa [← List.length_map (f := s.elm), hperm.length_eq]
  obtain ⟨s₁, hnew, hins⟩ := Option.bind_eq_some_iff.mp hs
  obtain ⟨tree, htree, heq⟩ := Option.bind_eq_some_iff.mp hins
  cases heq
  unfold newNode at hnew
  split_ifs at hnew with hx hnode
  cases hnew
  rw [not_or] at hx
  have hfree : s.node e = none := not_not.mp hnode
  have hxt : x ∉ t.toList := fun hmem => hx.2 (hinv.node _ _ (hinv.linked x hmem)).1
  obtain ⟨tree', t', htree', hrep, hrb, ⟨before, after, ht, ht'⟩, -⟩ :=
    Itree.itreeInsert_spec (fun a b => cmp (Function.update s.key x key a)
      (Function.update s.key x key b)) hinv.rep hinv.rb hx.1 hxt hlen
  obtain rfl : tree' = tree := Option.some.inj (htree'.symm.trans htree)
  have hold : ∀ y ∈ t.toList, y ≠ x ∧ s.elm y ≠ e := by
    intro y hy
    constructor
    · rintro rfl
      exact hxt hy
    · rintro rfl
      exact nomatch hfree.symm.trans (hinv.linked y hy)
  have hmem : ∀ y, y ∈ t'.toList ↔ y = x ∨ y ∈ t.toList := by
    intro y
    rw [ht, ht']
    exact mem_split
  refine ⟨t', ?_, ?_⟩
  · exact
      { rep := hrep
        rb := hrb
        linked := by
          intro y hy
          rcases (hmem y).mp hy with rfl | hy
          · simp
          · obtain ⟨hyx, hye⟩ := hold y hy
            simp [Function.update_of_ne hyx, Function.update_of_ne hye, hinv.linked y hy]
        node := by
          intro a y hy
          simp only at hy ⊢
          by_cases ha : a = e
          · subst ha
            rw [Function.update_self] at hy
            cases hy
            simp
          · rw [Function.update_of_ne ha] at hy
            obtain ⟨hyn, helm⟩ := hinv.node a y hy
            have hyx : y ≠ x := by
              rintro rfl
              exact hx.2 hyn
            rw [Function.update_of_ne hyx]
            exact ⟨Finset.mem_insert_of_mem hyn, helm⟩
        refs := by
          intro a
          by_cases ha : a = e
          · subst ha
            simp [hinv.refs, hfree]
          · simp [Function.update_of_ne ha, hinv.refs] }
  · have hsame : ∀ ys : List ℕ, (∀ y ∈ ys, y ∈ t.toList) →
        ys.map (Function.update s.elm x e) = ys.map s.elm := by
      intro ys hys
      exact List.map_congr_left fun y hy => Function.update_of_ne (hold y (hys y hy)).1 _ _
    have hbefore := hsame before fun y hy => by simp [ht, hy]
    have hafter := hsame after fun y hy => by simp [ht, hy]
    rw [ht, List.map_append] at hperm
    simp only [ht', List.map_append, List.map_cons, hbefore, hafter, Function.update_self]
    exact List.perm_middle.trans (hperm.cons e)

theorem Contains.remove (h : Contains held s t l) (he : e ∈ l) (hfuel : l.length < fuel) :
    ∃ s' t', s.remove fuel e = some s' ∧ Contains held s' t' (l.erase e) := by
  obtain ⟨hinv, hperm⟩ := h
  have hlen : t.toList.length < fuel := by
    rwa [← List.length_map (f := s.elm), hperm.length_eq]
  obtain ⟨x, hx, rfl⟩ := List.mem_map.mp (hperm.mem_iff.mpr he)
  obtain ⟨tree, t', hdel, hrep, hrb, before, after, ht, ht'⟩ :=
    Itree.itreeDelete_spec hinv.rep hinv.rb hx hlen
  obtain ⟨s', hrem, hinv', helm, -⟩ := hinv.remove ht hdel hrep hrb ht'
  refine ⟨s', t', hrem, hinv', ?_⟩
  rw [ht, List.map_append, List.map_cons] at hperm
  have herase := (List.perm_middle.symm.trans hperm).erase (s.elm x)
  rw [List.erase_cons_head, ← List.map_append, ← ht'] at herase
  rwa [helm]

theorem Contains.step (h : Contains held s t l) (hop : op.Legal l)
    (hs : s.step cmp fuel op = some s') (hfuel : l.length < fuel) :
    ∃ t', Contains held s' t' (op.contents l) := by
  cases op with
  | insert x k e => exact h.insert hs hfuel
  | remove e =>
    obtain ⟨s₁, t', hrem, h'⟩ := h.remove hop hfuel
    obtain rfl : s₁ = s' := Option.some.inj (hrem.symm.trans hs)
    exact ⟨t', h'⟩
  | clear =>
    obtain ⟨hinv, hperm⟩ := h
    have hlen : t.toList.length < fuel := by
      rwa [← List.length_map (f := s.elm), hperm.length_eq]
    obtain ⟨s₁, hclear, hinv', -⟩ := hinv.clear hlen
    obtain rfl : s₁ = s' := Option.some.inj (hclear.symm.trans hs)
    exact ⟨.nil, hinv', .nil⟩

theorem length_contents (op : Op K) (l : List ℕ) : (op.contents l).length ≤ l.length + 1 := by
  cases op with
  | insert x k e => simp [Op.contents]
  | remove e =>
    have hle := List.length_erase_le (a := e) (l := l)
    simp only [Op.contents]
    omega
  | clear => simp [Op.contents]

theorem Contains.run (h : Contains held s t l) (hops : LegalRun l ops)
    (hs : ops.foldlM (Rctree.step cmp fuel) s = some s') (hfuel : l.length + ops.length < fuel) :
    ∃ t', Contains held s' t' (ops.foldl Op.contents l) ∧
      (ops.foldl Op.contents l).length < fuel := by
  induction ops generalizing s t l with
  | nil =>
    cases hs
    exact ⟨t, h, by simpa using hfuel⟩
  | cons op ops ih =>
    obtain ⟨hop, hops⟩ := hops
    rw [List.foldlM_cons] at hs
    obtain ⟨s₁, hstep, hrest⟩ := Option.bind_eq_some_iff.mp hs
    rw [List.length_cons] at hfuel
    obtain ⟨t₁, h₁⟩ := h.step hop hstep (by omega)
    have hle := length_contents op l
    exact ih h₁ hops hrest (by omega)

/-- After any calls, `clear` removes all the elements of the tree exactly when every node off the
left edge of the tree has two children or none. -/
theorem clear_iff (hops : LegalRun [] ops) (hfuel : ops.length < fuel)
    (hs : ops.foldlM (step cmp fuel) (init mem key held) = some s) :
    ∃ t s', Rep s.tree [] t ∧ (t.toList.map s.elm).Perm (ops.foldl Op.contents []) ∧
      s.clear fuel = some s' ∧ (Cleared s t s' ↔ t.EdgeFull) := by
  have hstart : Contains held (init mem key held) .nil [] := ⟨inv_init mem key held, .nil⟩
  obtain ⟨t, ⟨hinv, hperm⟩, hlen⟩ :=
    hstart.run hops hs (by rw [List.length_nil]; omega)
  have hlen' : t.toList.length < fuel := by
    rwa [← List.length_map (f := s.elm), hperm.length_eq]
  obtain ⟨s', hclear, -, hiff⟩ := hinv.clear hlen'
  exact ⟨t, s', hinv.rep, hperm, hclear, hiff⟩

def emptyTree : Rctree ℤ := init (fun _ => ⟨0, 0, 0, .invalid⟩) (fun _ => 0) fun _ => 1

/-- Three elements, one of them removed and inserted again. -/
theorem clear_iff_three :
    ∃ s, [Op.insert 1 10 1, .insert 2 20 2, .remove 1, .insert 3 30 3, .insert 1 20 1].foldlM
        (step (fun a b => a - b) 6) emptyTree = some s ∧
      ∃ t s', Rep s.tree [] t ∧ (t.toList.map s.elm).Perm [1, 3, 2] ∧
        s.clear 6 = some s' ∧ (Cleared s t s' ↔ t.EdgeFull) := by
  have hsome : ([Op.insert 1 10 1, .insert 2 20 2, .remove 1, .insert 3 30 3,
      .insert 1 20 1].foldlM (step (fun a b => a - b) 6) emptyTree).isSome := by
    decide +kernel
  obtain ⟨s, hs⟩ := Option.isSome_iff_exists.mp hsome
  refine ⟨s, hs, ?_⟩
  exact clear_iff (by simp [LegalRun, Op.Legal, Op.contents]) (by decide) hs

/-- Four elements with increasing keys: the second one keeps its node, and cannot be inserted
again. -/
theorem clear_four :
    ∃ s s', [Op.insert 1 10 1, .insert 2 20 2, .insert 3 30 3, .insert 4 40 4].foldlM
        (step (fun a b => a - b) 5) emptyTree = some s ∧ s.node 2 = some 2 ∧
      s.clear 5 = some s' ∧ s'.node 2 = some 2 ∧
      s'.insert (fun a b => a - b) 5 5 20 2 = none := by
  have hrun : (([Op.insert 1 10 1, .insert 2 20 2, .insert 3 30 3, .insert 4 40 4].foldlM
      (step (fun a b => a - b) 5) emptyTree).bind fun s => (s.clear 5).bind fun s' =>
        some (s.node 2, s'.node 2, (s'.insert (fun a b => a - b) 5 5 20 2).isNone)) =
      some (some 2, some 2, true) := by
    decide +kernel
  obtain ⟨s, hs, hrest⟩ := Option.bind_eq_some_iff.mp hrun
  obtain ⟨s', hclear, heq⟩ := Option.bind_eq_some_iff.mp hrest
  obtain ⟨hnode, hnode', hins⟩ : s.node 2 = some 2 ∧ s'.node 2 = some 2 ∧
      (s'.insert (fun a b => a - b) 5 5 20 2).isNone := by simpa using heq
  exact ⟨s, s', hs, hnode, hclear, hnode', Option.isNone_iff_eq_none.mp hins⟩

end Rctree

end Sfslite.Async
