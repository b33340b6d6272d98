import Mathlib.Data.Finset.Card
import Sfslite.Lib.Run
import Sfslite.Lib.TailQueue

/-!
`rctailq.h`: a tail queue of nodes that hold references to the elements. Nodes and elements are
named by their addresses. A failed assertion and an access through a null pointer answer `none`.
-/

namespace Sfslite.Async

open Sfslite.Lib Sfslite.Lib.Hlist

/-- The queue and its nodes. `elm` is `_elm` of a node, `node` is `_node` of the entry of an
element, `nodes` are the nodes there are, and `refs` counts the references to an element. -/
structure Rctailq where
  lst : Queues Unit ℕ
  elm : ℕ → ℕ
  node : ℕ → Option ℕ
  nodes : Finset ℕ
  refs : ℕ → ℕ

namespace Rctailq

/-- An empty queue. The program holds `held e` references to the element `e`. -/
def init (held : ℕ → ℕ) : Rctailq where
  lst := ⟨⟨fun _ => none, fun _ => none, fun _ => .head ()⟩, .head⟩
  elm _ := 0
  node _ := none
  nodes := ∅
  refs := held

/-- `rctailq_node_t (e)`, with `put_in_list`; the node gets the memory at `x`. -/
def newNode (s : Rctailq) (x e : ℕ) : Option Rctailq :=
  if x ∈ s.nodes then none
  -- assert (!_node)
  else if s.node e ≠ none then none
  else some { s with
    elm := Function.update s.elm x e
    node := Function.update s.node e (some x)
    nodes := insert x s.nodes
    refs := Function.update s.refs e (s.refs e + 1) }

def insertHead (s : Rctailq) (x p : ℕ) : Option Rctailq := do
  let s ← s.newNode x p
  return { s with lst := s.lst.prepend () x }

def insertTail (s : Rctailq) (x p : ℕ) : Option Rctailq := do
  let s ← s.newNode x p
  return { s with lst := s.lst.append () x }

/-- `remove`, with `remove_from_list` and the destructor of the node. -/
def remove (s : Rctailq) (p : ℕ) : Option Rctailq := do
  let x ← s.node p
  return { s with
    lst := s.lst.remove () x
    node := Function.update s.node p none
    nodes := s.nodes.erase x
    refs := Function.update s.refs (s.elm x) (s.refs (s.elm x) - 1) }

def first (s : Rctailq) : Option ℕ :=
  (s.lst.links.head ()).map s.elm

/-- `last`: the element of `*_lst.plast`. -/
def last (s : Rctailq) : Option ℕ :=
  (s.lst.links.get (s.lst.last ())).map s.elm

def next (s : Rctailq) (p : ℕ) : Option (Option ℕ) := do
  let x ← s.node p
  return (s.lst.links.next x).map s.elm

/-- The loop of `traverse` from the pointer `p` on: the elements that the callback gets. -/
def traverseLoop (s : Rctailq) : ℕ → Option ℕ → Option (List ℕ)
  | _, none => some []
  | 0, some _ => none
  | fuel + 1, some p => do
      let es ← s.traverseLoop fuel (s.lst.links.next p)
      return s.elm p :: es

def traverse (s : Rctailq) : Option (List ℕ) :=
  s.traverseLoop s.nodes.card (s.lst.links.head ())

/-- The calls. A new node gets the memory at `x`. -/
inductive Op where
  | insertHead (x p : ℕ)
  | insertTail (x p : ℕ)
  | remove (p : ℕ)
deriving DecidableEq, Repr

def step (s : Rctailq) : Op → Option Rctailq
  | .insertHead x p => s.insertHead x p
  | .insertTail x p => s.insertTail x p
  | .remove p => s.remove p

def Op.contents (l : List ℕ) : Op → List ℕ
  | .insertHead _ p => p :: l
  | .insertTail _ p => l ++ [p]
  | .remove p => l.erase p

/-- The queue has the nodes `ns`, which hold the elements that point back at them. -/
structure Inv (held : ℕ → ℕ) (s : Rctailq) (ns : List ℕ) : Prop where
  hold : s.lst.Hold fun _ => ns
  nodes : ∀ x, x ∈ s.nodes ↔ x ∈ ns
  node : ∀ e x, s.node e = some x ↔ x ∈ ns ∧ s.elm x = e
  refs : ∀ e, s.refs e = held e + (s.node e).isSome.toNat

variable {held : ℕ → ℕ} {s s' : Rctailq} {ns l : List ℕ} {x p e : ℕ}

theorem inv_init (held : ℕ → ℕ) : Inv held (init held) [] where
  hold := by
    constructor
    · exact fun _ => rfl
    · exact fun _ => rfl
    · exact fun _ => List.nodup_nil
    · exact fun _ _ _ h => absurd h List.not_mem_nil
  nodes x := by simp [init]
  node e x := by simp [init]
  refs e := by simp [init]

theorem Inv.nodup (h : Inv held s ns) : ns.Nodup := h.hold.nodup ()

theorem Inv.newNode (h : Inv held s ns) (hs : s.newNode x p = some s') :
    x ∉ ns ∧ s'.lst = s.lst ∧ (∀ y ∈ ns, s'.elm y = s.elm y) ∧ s'.elm x = p ∧
      ∀ ns' : List ℕ, (∀ y, y ∈ ns' ↔ y = x ∨ y ∈ ns) →
        (∀ y, y ∈ s'.nodes ↔ y ∈ ns') ∧
        (∀ e y, s'.node e = some y ↔ y ∈ ns' ∧ s'.elm y = e) ∧
        ∀ e, s'.refs e = held e + (s'.node e).isSome.toNat := by
  unfold Rctailq.newNode at hs
  split_ifs at hs with hx hnode
  cases hs
  have hnot : x ∉ ns := fun hmem => hx ((h.nodes x).mpr hmem)
  have hnull : s.node p = none := not_not.mp hnode
  have hkeep (y : ℕ) (hy : y ∈ ns) : Function.update s.elm x p y = s.elm y :=
    Function.update_of_ne (ne_of_mem_of_not_mem hy hnot) _ _
  refine ⟨hnot, rfl, hkeep, Function.update_self .., ?_⟩
  intro ns' hns'
  refine ⟨?_, ?_, ?_⟩
  · intro y
    rw [hns' y, Finset.mem_insert, h.nodes y]
  · intro e y
    simp only
    by_cases he : e = p
    · subst he
      rw [Function.update_self, Option.some.injEq, hns' y]
      constructor
      · rintro rfl
        exact ⟨Or.inl rfl, Function.update_self ..⟩
      · rintro ⟨rfl | hy, helm⟩
        · rfl
        · -- No other node holds the element.
          rw [hkeep y hy] at helm
          have hsome := (h.node e y).mpr ⟨hy, helm⟩
          rw [hnull] at hsome
          cases hsome
    · rw [Function.update_of_ne he, h.node e y, hns' y]
      constructor
      · rintro ⟨hy, helm⟩
        exact ⟨Or.inr hy, (hkeep y hy).trans helm⟩
      · rintro ⟨rfl | hy, helm⟩
        · rw [Function.update_self] at helm
          exact absurd helm.symm he
        · exact ⟨hy, (hkeep y hy).symm.trans helm⟩
  · intro e
    simp only
    by_cases he : e = p
    · subst he
      rw [Function.update_self, Function.update_self, h.refs e, hnull]
      rfl
    · rw [Function.update_of_ne he, Function.update_of_ne he, h.refs e]

theorem Inv.insertHead (h : Inv held s ns) (hs : s.insertHead x p = some s') :
    Inv held s' (x :: ns) ∧ (x :: ns).map s'.elm = p :: ns.map s.elm := by
  obtain ⟨s₁, hnew, hs⟩ := Option.bind_eq_some_iff.mp hs
  cases hs
  obtain ⟨hx, hlst, hkeep, hown, hrest⟩ := h.newNode hnew
  obtain ⟨hnodes, hnode, hrefs⟩ := hrest (x :: ns) (fun y => List.mem_cons)
  refine ⟨⟨?_, hnodes, hnode, hrefs⟩, ?_⟩
  · have hhold := h.hold.prepend () (a := x) fun _ => hx
    rw [← hlst] at hhold
    convert hhold using 1
    exact (Function.update_eq_iff.mpr ⟨rfl, fun j hj => absurd rfl hj⟩).symm
  · exact congrArg₂ List.cons hown (List.map_congr_left hkeep)

theorem Inv.insertTail (h : Inv held s ns) (hs : s.insertTail x p = some s') :
    Inv held s' (ns ++ [x]) ∧ (ns ++ [x]).map s'.elm = ns.map s.elm ++ [p] := by
  obtain ⟨s₁, hnew, hs⟩ := Option.bind_eq_some_iff.mp hs
  cases hs
  obtain ⟨hx, hlst, hkeep, hown, hrest⟩ := h.newNode hnew
  obtain ⟨hnodes, hnode, hrefs⟩ := hrest (ns ++ [x]) (fun y => by simp [or_comm])
  refine ⟨⟨?_, hnodes, hnode, hrefs⟩, ?_⟩
  · have hhold := h.hold.append () (a := x) fun _ => hx
    rw [← hlst] at hhold
    convert hhold using 1
    exact (Function.update_eq_iff.mpr ⟨rfl, fun j hj => absurd rfl hj⟩).symm
  · rw [List.map_append, List.map_congr_left hkeep]
    exact congrArg _ (congrArg (fun a => [a]) hown)

theorem Inv.node_elm (h : Inv held s ns) (hx : x ∈ ns) : s.node (s.elm x) = some x :=
  (h.node _ x).mpr ⟨hx, rfl⟩

theorem Inv.nodup_map (h : Inv held s ns) : (ns.map s.elm).Nodup := by
  apply h.nodup.map_on
  intro x hx y hy helm
  have hxy := h.node_elm hx
  rw [helm, h.node_elm hy] at hxy
  exact (Option.some.inj hxy).symm

theorem Inv.remove (h : Inv held s ns) (hs : s.remove p = some s') :
    ∃ x ∈ ns, Inv held s' (ns.erase x) ∧ (ns.erase x).map s'.elm = (ns.map s.elm).erase p := by
  obtain ⟨x, hnode, hs⟩ := Option.bind_eq_some_iff.mp hs
  cases hs
  obtain ⟨hx, rfl⟩ := (h.node p x).mp hnode
  refine ⟨x, hx, ⟨?_, ?_, ?_, ?_⟩, ?_⟩
  · have hhold := h.hold.remove (k := ()) hx
    convert hhold using 1
    exact (Function.update_eq_iff.mpr ⟨rfl, fun j hj => absurd rfl hj⟩).symm
  · intro y
    rw [Finset.mem_erase, h.nodes y, h.nodup.mem_erase_iff]
  · intro e y
    simp only
    rw [h.nodup.mem_erase_iff]
    by_cases he : e = s.elm x
    · subst he
      rw [Function.update_self]
      constructor
      · rintro ⟨⟩
      · rintro ⟨⟨hyx, hy⟩, helm⟩
        have hxy := h.node_elm hy
        rw [helm, hnode] at hxy
        exact absurd (Option.some.inj hxy).symm hyx
    · rw [Function.update_of_ne he, h.node e y]
      constructor
      · rintro ⟨hy, rfl⟩
        exact ⟨⟨fun hyx => he (congrArg _ hyx), hy⟩, rfl⟩
      · rintro ⟨⟨-, hy⟩, helm⟩
        exact ⟨hy, helm⟩
  · intro e
    simp only
    by_cases he : e = s.elm x
    · subst he
      have hrefs := h.refs (s.elm x)
      rw [hnode] at hrefs
      rw [Function.update_self, Function.update_self, hrefs]
      rfl
    · rw [Function.update_of_ne he, Function.update_of_ne he, h.refs e]
  · obtain ⟨before, after, rfl⟩ := List.append_of_mem hx
    have hnd := h.nodup
    have hndm := h.nodup_map
    have hnot : x ∉ before := fun hmem =>
      (List.nodup_append.mp hnd).2.2 x hmem x List.mem_cons_self rfl
    rw [List.map_append, List.map_cons] at hndm ⊢
    have hnotm : s.elm x ∉ before.map s.elm := fun hmem =>
      (List.nodup_append.mp hndm).2.2 _ hmem _ List.mem_cons_self rfl
    rw [List.erase_append_right _ hnot, List.erase_cons_head, List.erase_append_right _ hnotm,
      List.erase_cons_head, List.map_append]

theorem Inv.step (h : Inv held s ns) {op : Op} (hs : s.step op = some s') :
    ∃ ns', Inv held s' ns' ∧ ns'.map s'.elm = op.contents (ns.map s.elm) := by
  cases op with
  | insertHead x p => exact ⟨_, h.insertHead hs⟩
  | insertTail x p => exact ⟨_, h.insertTail hs⟩
  | remove p =>
    obtain ⟨x, -, hremove⟩ := h.remove hs
    exact ⟨_, hremove⟩

theorem inv_run (ops : List Op) (h : Inv held s ns) (hrun : ops.foldlM step s = some s') :
    ∃ ns', Inv held s' ns' ∧ ns'.map s'.elm = ops.foldl Op.contents (ns.map s.elm) := by
  induction ops generalizing s ns with
  | nil =>
    cases hrun
    exact ⟨ns, h, rfl⟩
  | cons op ops ih =>
    rw [List.foldlM_cons] at hrun
    obtain ⟨s₁, hstep, hrest⟩ := Option.bind_eq_some_iff.mp hrun
    obtain ⟨ns₁, h₁, hcontents⟩ := h.step hstep
    obtain ⟨ns', h', hlast⟩ := ih h₁ hrest
    refine ⟨ns', h', ?_⟩
    rw [List.foldl_cons, ← hcontents]
    exact hlast

theorem Inv.first_eq (h : Inv held s ns) : s.first = (ns.map s.elm).head? := by
  rw [first, h.hold.head_eq, List.head?_map]

theorem Inv.next_eq (h : Inv held s ns) {before after : List ℕ}
    (hp : ns.map s.elm = before ++ p :: after) : s.next p = some after.head? := by
  obtain ⟨ns₁, ns₂, hns, -, hafter⟩ := List.map_eq_append_iff.mp hp
  obtain ⟨x, ns₃, rfl, rfl, rfl⟩ := List.map_eq_cons_iff.mp hafter
  have hx : x ∈ ns := by
    rw [hns]
    simp
  have hlist := hns ▸ h.hold.isList ()
  have hlinks : s.lst.links.next x = ns₃.head? := hlist.next_eq
  rw [Rctailq.next, h.node_elm hx]
  simp [hlinks]

theorem traverseLoop_eq {o : Option ℕ} {fuel : ℕ} (hpath : s.lst.links.Path o ns)
    (hfuel : ns.length ≤ fuel) : s.traverseLoop fuel o = some (ns.map s.elm) := by
  induction ns generalizing o fuel with
  | nil =>
    cases hpath
    cases fuel <;> rfl
  | cons x ns ih =>
    obtain ⟨rfl, hrest⟩ := hpath
    rw [List.length_cons] at hfuel
    obtain ⟨fuel, rfl⟩ : ∃ k, fuel = k + 1 := ⟨fuel - 1, by omega⟩
    rw [traverseLoop, ih hrest (by omega)]
    rfl

theorem Inv.traverse_eq (h : Inv held s ns) : s.traverse = some (ns.map s.elm) := by
  have hcard : s.nodes.card = ns.length := by
    have heq : s.nodes = ns.toFinset := by
      ext x
      rw [h.nodes x, List.mem_toFinset]
    rw [heq, List.toFinset_card_of_nodup h.nodup]
  exact traverseLoop_eq (h.hold.isList ()).path (Nat.le_of_eq hcard.symm)

theorem Inv.last_eq (h : Inv held s ns) : s.last = none := by
  rw [last, h.hold.get_last, Option.map_none]

/-- After any calls the first element, the elements that follow one another and the traversal are
those of the sequence held. The last element is that of the sequence only where there is none. -/
theorem rctailq_run {held : ℕ → ℕ} {ops : List Op} {s : Rctailq}
    (hrun : ops.foldlM step (init held) = some s) :
    let l := ops.foldl Op.contents []
    s.first = l.head? ∧
      (∀ before p after, l = before ++ p :: after → s.next p = some after.head?) ∧
      s.traverse = some l ∧ (s.last = l.getLast? ↔ l = []) := by
  obtain ⟨ns, h, hl⟩ := inv_run ops (inv_init held) hrun
  rw [List.map_nil] at hl
  rw [← hl]
  refine ⟨h.first_eq, fun before p after hp => h.next_eq hp, h.traverse_eq, ?_⟩
  rw [h.last_eq, eq_comm, List.getLast?_eq_none_iff]

/-- Two elements go in and the first comes out. -/
theorem rctailq_run_two :
    let ops : List Op := [.insertTail 100 1, .insertHead 200 2, .remove 2]
    ∃ s, ops.foldlM step (init fun _ => 1) = some s ∧
      let l := ops.foldl Op.contents []
      s.first = l.head? ∧
        (∀ before p after, l = before ++ p :: after → s.next p = some after.head?) ∧
        s.traverse = some l ∧ (s.last = l.getLast? ↔ l = []) := by
  intro ops
  have hsome : (ops.foldlM step (init fun _ => 1)).isSome := by decide
  obtain ⟨s, hs⟩ := Option.isSome_iff_exists.mp hsome
  exact ⟨s, hs, rctailq_run hs⟩

/-- The only element of a queue is not found at its tail. -/
theorem rctailq_last_one :
    ∃ s, [Op.insertTail 100 1].foldlM step (init fun _ => 1) = some s ∧
      s.last ≠ ([Op.insertTail 100 1].foldl Op.contents []).getLast? := by
  have hsome : ([Op.insertTail 100 1].foldlM step (init fun _ => 1)).isSome := by decide
  obtain ⟨s, hs⟩ := Option.isSome_iff_exists.mp hsome
  obtain ⟨ns, h, -⟩ := inv_run _ (inv_init fun _ => 1) hs
  refine ⟨s, hs, ?_⟩
  rw [h.last_eq]
  exact nofun

end Rctailq

end Sfslite.Async
