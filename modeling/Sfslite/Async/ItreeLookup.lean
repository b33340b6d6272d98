import Mathlib.Order.Lattice
import Mathlib.Order.Nat
import Sfslite.Async.ItreeRun

/-!
Lookups by key and walks in both directions. The keys are ordered by a comparison of the program,
and containers with equal keys may lie anywhere around each other in the tree. A walk to the left
is a walk to the right in the mirrored tree.
-/

namespace Sfslite.Async

open Sfslite.Lib.RedBlack

namespace Itree

def itreeMaximum (s : Itree) : ℕ → ℕ → Option ℕ
  | 0, _ => none
  | fuel + 1, x =>
    let y := s.child .right x
    if y ≠ 0 then itreeMaximum s fuel y else some x

/-- The climb of `itree_predecessor`, while `x` is a left child of `y`. -/
def itreePredecessorClimb (s : Itree) : ℕ → (x y : ℕ) → Option ℕ
  | 0, _, _ => none
  | fuel + 1, x, y =>
    if y ≠ 0 ∧ x = s.child .left y then itreePredecessorClimb s fuel y (s.up y)
    else some y

def itreePredecessor (fuel : ℕ) (s : Itree) (x : ℕ) : Option ℕ :=
  let y := s.child .left x
  if y ≠ 0 then itreeMaximum s fuel y
  else itreePredecessorClimb s fuel x (s.up x)

/-- The loop of `lower_bound_impl`. -/
def lowerBoundLoop (cb : ℕ → Int) (s : Itree) : ℕ → (n ret : ℕ) → Option ℕ
  | 0, _, _ => none
  | fuel + 1, n, ret =>
    if n = 0 then some ret
    else if cb n ≤ 0 then lowerBoundLoop cb s fuel (s.child .left n) n
    else lowerBoundLoop cb s fuel (s.child .right n) ret

def lowerBoundImpl (cb : ℕ → Int) (fuel : ℕ) (s : Itree) : Option ℕ :=
  lowerBoundLoop cb s fuel s.rbRoot 0

/-- The containers that a loop sees that starts at `n` and goes on with `next`. -/
def walk (next : ℕ → Option ℕ) : ℕ → ℕ → Option (List ℕ)
  | 0, _ => none
  | fuel + 1, n =>
    if n = 0 then some []
    else do
      let nn ← next n
      let rest ← walk next fuel nn
      return n :: rest

/-- The containers that `traverse` runs its callback on. -/
def traverse (fuel : ℕ) (s : Itree) : Option (List ℕ) := do
  let n ← s.itreeFirst fuel
  walk (itreeSuccessor fuel s) fuel n

variable {K : Type*}

/-- `operator[]`, for a comparison `kcmp` of keys. -/
def get (kcmp : K → K → Int) (key : ℕ → K) (fuel : ℕ) (s : Itree) (k : K) : Option ℕ :=
  s.itreeSearch (fun v => kcmp k (key v)) fuel

def lowerBound (kcmp : K → K → Int) (key : ℕ → K) (fuel : ℕ) (s : Itree) (k : K) : Option ℕ :=
  s.lowerBoundImpl (fun v => kcmp k (key v)) fuel

/-- The comparison of `keyfunc.h`. -/
def compare [LinearOrder K] (a b : K) : Int :=
  if a < b then -1 else if b < a then 1 else 0

end Itree

def ItreeEntry.mirror (e : ItreeEntry) : ItreeEntry :=
  ⟨e.rbeUp, e.rbeRight, e.rbeLeft, e.rbeColor⟩

def Itree.mirror (s : Itree) : Itree :=
  ⟨s.rbRoot, fun n => (s.mem n).mirror⟩

def mirrorTree : RbTree ℕ → RbTree ℕ
  | .nil => .nil
  | .node c l x r => .node c (mirrorTree r) x (mirrorTree l)

theorem toList_mirrorTree (t : RbTree ℕ) : (mirrorTree t).toList = t.toList.reverse := by
  induction t with
  | nil => rfl
  | node c l x r ihl ihr => simp [mirrorTree, RbTree.toList, ihl, ihr]

theorem addr_mirrorTree (t : RbTree ℕ) : addr (mirrorTree t) = addr t := by
  cases t with
  | nil => rfl
  | node c l x r => rfl

theorem TreeAt.mirror {m : ℕ → ItreeEntry} {u : ℕ} {t : RbTree ℕ} (h : TreeAt m u t) :
    TreeAt (fun n => (m n).mirror) u (mirrorTree t) := by
  induction t generalizing u with
  | nil => trivial
  | node c l x r ihl ihr =>
    obtain ⟨hx, hm, hl, hr⟩ := h
    refine ⟨hx, ?_, ihr hr, ihl hl⟩
    dsimp only
    rw [hm, addr_mirrorTree, addr_mirrorTree]
    rfl

theorem Rep.mirror {s : Itree} {t : RbTree ℕ} (h : Rep s [] t) :
    Rep s.mirror [] (mirrorTree t) := by
  obtain ⟨hroot, htree, hnodup⟩ := h
  refine ⟨hroot.trans (addr_mirrorTree t).symm, htree.mirror, ?_⟩
  rw [toList_mirrorTree, ctxList, List.append_nil, List.nodup_reverse]
  simpa [ctxList] using hnodup

namespace Itree

variable {s : Itree} {t : RbTree ℕ} {fuel : ℕ}

theorem itreeMaximum_eq (n : ℕ) : itreeMaximum s fuel n = itreeMinimum s.mirror fuel n := by
  induction fuel generalizing n with
  | zero => rfl
  | succ fuel ih =>
    have hchild : s.mirror.child .left n = s.child .right n := rfl
    rw [itreeMaximum, itreeMinimum, hchild]
    simp only [ih]

theorem itreePredecessorClimb_eq (x y : ℕ) :
    itreePredecessorClimb s fuel x y = itreeSuccessorClimb s.mirror fuel x y := by
  induction fuel generalizing x y with
  | zero => rfl
  | succ fuel ih =>
    have hchild : s.mirror.child .right y = s.child .left y := rfl
    have hup : s.mirror.up y = s.up y := rfl
    rw [itreePredecessorClimb, itreeSuccessorClimb, hchild, hup, ih]

theorem itreePredecessor_eq (x : ℕ) :
    itreePredecessor fuel s x = itreeSuccessor fuel s.mirror x := by
  have hchild : s.mirror.child .right x = s.child .left x := rfl
  have hup : s.mirror.up x = s.up x := rfl
  rw [itreePredecessor, itreeSuccessor, hchild, hup]
  simp only [itreeMaximum_eq, itreePredecessorClimb_eq]

theorem itreePredecessor_spec (h : Rep s [] t) {before after : List ℕ} {x : ℕ}
    (hx : t.toList = before ++ x :: after) (hfuel : t.toList.length < fuel) :
    itreePredecessor fuel s x = some (before.reverse.headD 0) := by
  rw [itreePredecessor_eq]
  apply itreeSuccessor_spec h.mirror
  · rw [toList_mirrorTree, hx, List.reverse_append, List.reverse_cons, List.append_assoc,
      List.singleton_append]
  · rwa [toList_mirrorTree, List.length_reverse]

theorem walk_eq {next : ℕ → Option ℕ} {xs : List ℕ} (hne : ∀ x ∈ xs, x ≠ 0)
    (hnext : ∀ before x after, xs = before ++ x :: after → next x = some (after.headD 0))
    {before after : List ℕ} (hxs : xs = before ++ after) (hfuel : after.length < fuel) :
    walk next fuel (after.headD 0) = some after := by
  induction after generalizing before fuel with
  | nil =>
    obtain ⟨fuel, rfl⟩ : ∃ k, fuel = k + 1 := ⟨fuel - 1, by omega⟩
    rfl
  | cons x after ih =>
    rw [List.length_cons] at hfuel
    obtain ⟨fuel, rfl⟩ : ∃ k, fuel = k + 1 := ⟨fuel - 1, by omega⟩
    have hx : x ≠ 0 := hne x (by simp [hxs])
    have hxs' : xs = (before ++ [x]) ++ after := by simp [hxs]
    have hrest : walk next fuel (after.headD 0) = some after := ih hxs' (by omega)
    rw [List.headD_cons, walk, if_neg hx, hnext before x after hxs]
    simp only [Option.bind_eq_bind, Option.bind_some, hrest]
    rfl

theorem traverse_spec (h : Rep s [] t) (hfuel : t.toList.length < fuel) :
    traverse fuel s = some t.toList := by
  rw [traverse, itreeFirst_spec h hfuel]
  have hnext : ∀ before x after, t.toList = before ++ x :: after →
      itreeSuccessor fuel s x = some (after.headD 0) :=
    fun before x after hx => itreeSuccessor_spec h hx hfuel
  exact walk_eq h.2.1.ne_zero hnext (List.nil_append _).symm hfuel

theorem walk_prev_spec (h : Rep s [] t) (hfuel : t.toList.length < fuel) :
    walk (itreePredecessor fuel s) fuel (t.toList.reverse.headD 0) = some t.toList.reverse := by
  have hlen : t.toList.reverse.length < fuel := by
    rwa [List.length_reverse]
  have hne : ∀ x ∈ t.toList.reverse, x ≠ 0 :=
    fun x hx => h.2.1.ne_zero x (List.mem_reverse.mp hx)
  refine walk_eq hne (fun before x after hx => ?_) (List.nil_append _).symm hlen
  have hlist : t.toList = after.reverse ++ x :: before.reverse := by
    rw [← List.reverse_reverse t.toList, hx]
    simp
  rw [itreePredecessor_spec h hlist hfuel, List.reverse_reverse]

theorem lowerBoundLoop_spec {cb : ℕ → Int} {u ret : ℕ} (h : TreeAt s.mem u t)
    (hcb : t.toList.Pairwise fun a b => cb a ≤ 0 → cb b ≤ 0) (hfuel : t.toList.length < fuel) :
    lowerBoundLoop cb s fuel (addr t) ret =
      some ((t.toList.find? fun a => cb a ≤ 0).getD ret) := by
  induction t generalizing u ret fuel with
  | nil =>
    obtain ⟨fuel, rfl⟩ : ∃ k, fuel = k + 1 := ⟨fuel - 1, by omega⟩
    simp [lowerBoundLoop, RbTree.toList]
  | node c l x r ihl ihr =>
    simp only [RbTree.toList, List.length_append, List.length_cons] at hfuel
    obtain ⟨fuel, rfl⟩ : ∃ k, fuel = k + 1 := ⟨fuel - 1, by omega⟩
    obtain ⟨hx, hm, hl, hr⟩ := h
    have hleft : s.child .left x = addr l := by rw [child, hm]; rfl
    have hright : s.child .right x = addr r := by rw [child, hm]; rfl
    obtain ⟨hfl, hfr, hlr⟩ := List.pairwise_append.mp hcb
    obtain ⟨-, hfr⟩ := List.pairwise_cons.mp hfr
    have hx' : addr (.node c l x r) = x := rfl
    rw [hx', lowerBoundLoop, if_neg hx, hleft, hright]
    split_ifs with hle
    · rw [ihl hl hfl (by omega), RbTree.toList, List.find?_append,
        List.find?_cons_of_pos (by simpa using hle)]
      cases l.toList.find? fun a => cb a ≤ 0 <;> rfl
    · -- nothing up to `x` is a bound
      have hnone : l.toList.find? (fun a => cb a ≤ 0) = none := by
        rw [List.find?_eq_none]
        intro a ha hcba
        exact hle (hlr a ha x List.mem_cons_self (by simpa using hcba))
      rw [ihr hr hfr (by omega), RbTree.toList, List.find?_append, hnone, Option.none_or,
        List.find?_cons_of_neg (by simpa using hle)]

theorem lowerBoundImpl_spec {cb : ℕ → Int} (h : Rep s [] t)
    (hcb : t.toList.Pairwise fun a b => cb a ≤ 0 → cb b ≤ 0) (hfuel : t.toList.length < fuel) :
    lowerBoundImpl cb fuel s = some ((t.toList.find? fun a => cb a ≤ 0).getD 0) := by
  have hroot : s.rbRoot = addr t := h.1
  rw [lowerBoundImpl, hroot]
  exact lowerBoundLoop_spec h.2.1 hcb hfuel

end Itree

section Keys

variable {K : Type*} {kcmp : K → K → Int} {key : ℕ → K}

/-- What a comparison of keys must satisfy: it changes sign with its arguments, and "not above"
is transitive. -/
structure KeyOrder (kcmp : K → K → Int) : Prop where
  neg_iff : ∀ a b, kcmp a b < 0 ↔ 0 < kcmp b a
  trans : ∀ a b c, kcmp a b ≤ 0 → kcmp b c ≤ 0 → kcmp a c ≤ 0

theorem keyOrder_compare [LinearOrder K] : KeyOrder (Itree.compare (K := K)) := by
  have hle : ∀ a b : K, Itree.compare a b ≤ 0 ↔ a ≤ b := by
    intro a b
    unfold Itree.compare
    split_ifs with hab hba
    · simp [hab.le]
    · simp [hba]
    · simp [not_lt.mp hba]
  have hlt : ∀ a b : K, Itree.compare a b < 0 ↔ a < b := by
    intro a b
    unfold Itree.compare
    split_ifs with hab hba
    · simp [hab]
    · simp [hab]
    · simp [hab]
  refine ⟨fun a b => ?_, fun a b c hab hbc => ?_⟩
  · rw [hlt, ← not_le, ← hle, Int.not_le]
  · rw [hle] at hab hbc ⊢
    exact hab.trans hbc

variable (hk : KeyOrder kcmp)

include hk

theorem KeyOrder.cmpOrder (key : ℕ → K) : CmpOrder fun a b => kcmp (key a) (key b) := by
  refine ⟨fun a b hab => ?_, fun a b c => hk.trans _ _ _⟩
  have hneg := hk.neg_iff (key a) (key b)
  omega

theorem KeyOrder.falling {xs : List ℕ} (hsorted : Sorted (fun a b => kcmp (key a) (key b)) xs)
    (k : K) : Itree.Falling (fun v => kcmp k (key v)) xs := by
  refine hsorted.imp fun {a b} hab => ⟨fun ha => ?_, fun hb => ?_⟩
  · dsimp only at hab ha ⊢
    have hswap := hk.neg_iff k (key b)
    have hswap' := hk.neg_iff k (key a)
    by_contra hge
    have hba : kcmp (key b) k ≤ 0 := by
      omega
    have hak := hk.trans _ _ _ hab hba
    omega
  · dsimp only at hab hb ⊢
    by_contra hle
    have hkb := hk.trans k (key a) (key b) (by omega) hab
    omega

theorem KeyOrder.split {xs : List ℕ} (hsorted : Sorted (fun a b => kcmp (key a) (key b)) xs)
    (k : K) : ∃ before run after, xs = before ++ run ++ after ∧
      (∀ a ∈ before, 0 < kcmp k (key a)) ∧ (∀ a ∈ run, kcmp k (key a) = 0) ∧
      ∀ a ∈ after, kcmp k (key a) < 0 := by
  have hfall := hk.falling hsorted k
  clear hsorted
  induction xs with
  | nil => exact ⟨[], [], [], rfl, by simp, by simp, by simp⟩
  | cons x xs ih =>
    obtain ⟨hx, hrest⟩ := List.pairwise_cons.mp hfall
    obtain ⟨before, run, after, rfl, hbefore, hrun, hafter⟩ := ih hrest
    rcases Int.lt_trichotomy (kcmp k (key x)) 0 with hlt | heq | hgt
    · refine ⟨[], [], x :: (before ++ run ++ after), rfl, by simp, by simp, ?_⟩
      intro a ha
      rcases List.mem_cons.mp ha with rfl | ha
      · exact hlt
      · exact (hx a ha).1 hlt
    · have hnil : before = [] := by
        rw [List.eq_nil_iff_forall_not_mem]
        intro a ha
        have hpos : 0 < kcmp k (key x) := (hx a (by simp [ha])).2 (hbefore a ha)
        omega
      subst hnil
      refine ⟨[], x :: run, after, rfl, by simp, ?_, hafter⟩
      intro a ha
      rcases List.mem_cons.mp ha with rfl | ha
      · exact heq
      · exact hrun a ha
    · refine ⟨x :: before, run, after, rfl, ?_, hrun, hafter⟩
      intro a ha
      rcases List.mem_cons.mp ha with rfl | ha
      · exact hgt
      · exact hbefore a ha

end Keys

/-- After any run of insertions and deletions the containers stand in an order of their keys.
`traverse` sees them in that order and a walk with `prev` in the opposite one. `operator[]` answers
the first one with an equal key, `lower_bound` the first one whose key is not below, and both null
where there is none. -/
theorem itree_lookups {K : Type*} {kcmp : K → K → Int} (hk : KeyOrder kcmp) (key : ℕ → K)
    (s : Itree) (ops : List ItreeOp) (hops : LegalRun [] ops) (fuel : ℕ)
    (hfuel : ops.length < fuel) :
    ∃ s' xs, ops.foldlM (Itree.step (fun a b => kcmp (key a) (key b)) fuel) s.clear = some s' ∧
      xs.Perm (ops.foldl ItreeOp.contents []) ∧ xs.Nodup ∧
      xs.Pairwise (fun a b => kcmp (key a) (key b) ≤ 0) ∧
      (∀ k, ∃ before run after, xs = before ++ run ++ after ∧
        (∀ a ∈ before, 0 < kcmp k (key a)) ∧ (∀ a ∈ run, kcmp k (key a) = 0) ∧
        ∀ a ∈ after, kcmp k (key a) < 0) ∧
      s'.traverse fuel = some xs ∧
      Itree.walk (Itree.itreePredecessor fuel s') fuel (xs.getLast?.getD 0) = some xs.reverse ∧
      ∀ k, s'.get kcmp key fuel k = some ((xs.find? fun v => kcmp k (key v) = 0).getD 0) ∧
        s'.lowerBound kcmp key fuel k = some ((xs.find? fun v => kcmp k (key v) ≤ 0).getD 0) := by
  obtain ⟨s', t, hrun, h⟩ := valid_run (hk.cmpOrder key) ops (valid_clear _ s) hops
    (show List.length [] + ops.length < fuel by simpa using hfuel)
  have hlen : t.toList.length < fuel := by
    have hle := length_contents ops []
    rw [List.length_nil] at hle
    rw [h.perm.length_eq]
    omega
  have hnodup : t.toList.Nodup := by
    simpa [ctxList] using h.rep.2.2
  have hback := Itree.walk_prev_spec h.rep hlen
  rw [List.headD_eq_head?_getD, List.head?_reverse] at hback
  refine ⟨s', t.toList, hrun, h.perm, hnodup, h.sorted, hk.split h.sorted,
    Itree.traverse_spec h.rep hlen, hback, fun k => ?_⟩
  have hfall := hk.falling h.sorted k
  refine ⟨Itree.itreeSearch_spec h.rep hfall hlen, ?_⟩
  refine Itree.lowerBoundImpl_spec h.rep (hfall.imp fun {a b} hab ha => ?_) hlen
  dsimp only at hab ha ⊢
  by_contra hb
  have hpos := hab.2 (by omega)
  omega

/-- Five containers whose keys are their halves, with two pairs of equal keys. -/
theorem itree_lookups_halves :
    let ops : List ItreeOp := [.insert 2, .insert 5, .insert 3, .insert 6, .insert 4, .delete 6]
    ∃ s' xs, ops.foldlM (Itree.step (fun a b => Itree.compare (a / 2) (b / 2)) 7)
        (Itree.clear ⟨0, fun _ => ⟨0, 0, 0, .invalid⟩⟩) = some s' ∧
      xs.Perm (ops.foldl ItreeOp.contents []) ∧ xs.Nodup ∧
      xs.Pairwise (fun a b => Itree.compare (a / 2) (b / 2) ≤ 0) ∧
      (∀ k : ℕ, ∃ before run after, xs = before ++ run ++ after ∧
        (∀ a ∈ before, 0 < Itree.compare k (a / 2)) ∧ (∀ a ∈ run, Itree.compare k (a / 2) = 0) ∧
        ∀ a ∈ after, Itree.compare k (a / 2) < 0) ∧
      s'.traverse 7 = some xs ∧
      Itree.walk (Itree.itreePredecessor 7 s') 7 (xs.getLast?.getD 0) = some xs.reverse ∧
      ∀ k : ℕ, s'.get Itree.compare (· / 2) 7 k =
          some ((xs.find? fun v => Itree.compare k (v / 2) = 0).getD 0) ∧
        s'.lowerBound Itree.compare (· / 2) 7 k =
          some ((xs.find? fun v => Itree.compare k (v / 2) ≤ 0).getD 0) := by
  intro ops
  exact itree_lookups keyOrder_compare (· / 2) _ ops
    (by simp [ops, LegalRun, ItreeOp.Legal, ItreeOp.contents]) 7 (by simp [ops])

end Sfslite.Async
