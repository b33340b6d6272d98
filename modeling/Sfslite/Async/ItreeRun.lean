import Sfslite.Async.ItreeDelete

/-!
Runs of insertions and deletions. Every run whose insertions bring new nodes and whose deletions
name nodes of the tree ends in a red-black search tree on the nodes inserted and not deleted, and
the program's own check accepts it.
-/

namespace Sfslite.Async

open Sfslite.Lib.RedBlack

inductive ItreeOp where
  | insert (z : ℕ)
  | delete (z : ℕ)
  deriving DecidableEq, Repr

def ItreeOp.contents (l : List ℕ) : ItreeOp → List ℕ
  | .insert z => z :: l
  | .delete z => l.erase z

/-- What the caller must keep to: new nodes go in, present nodes come out. -/
def ItreeOp.Legal (l : List ℕ) : ItreeOp → Prop
  | .insert z => z ≠ 0 ∧ z ∉ l
  | .delete z => z ∈ l

instance (l : List ℕ) : (op : ItreeOp) → Decidable (op.Legal l)
  | .insert z => inferInstanceAs (Decidable (z ≠ 0 ∧ z ∉ l))
  | .delete z => inferInstanceAs (Decidable (z ∈ l))

/-- Every operation is legal where it comes. -/
def LegalRun : List ℕ → List ItreeOp → Prop
  | _, [] => True
  | l, op :: ops => op.Legal l ∧ LegalRun (op.contents l) ops

def Itree.step (cmpfn : ℕ → ℕ → Int) (fuel : ℕ) (s : Itree) : ItreeOp → Option Itree
  | .insert z => s.itreeInsert cmpfn fuel z
  | .delete z => s.itreeDelete fuel z

/-- A tree in memory: the pointers are right, the colors and heights balance, the keys
do not decrease, and the nodes are those of `l`. -/
structure Valid (cmpfn : ℕ → ℕ → Int) (l : List ℕ) (s : Itree) (t : RbTree ℕ) : Prop where
  rep : Rep s [] t
  rb : RB t
  sorted : Sorted cmpfn t.toList
  perm : t.toList.Perm l

variable {cmpfn : ℕ → ℕ → Int} {l : List ℕ} {s : Itree} {t : RbTree ℕ}

theorem valid_clear (cmpfn : ℕ → ℕ → Int) (s : Itree) : Valid cmpfn [] s.clear .nil where
  rep := ⟨rfl, trivial, List.nodup_nil⟩
  rb := ⟨rfl, 0, rfl⟩
  sorted := List.Pairwise.nil
  perm := .nil

theorem Valid.step (hcmp : CmpOrder cmpfn) (h : Valid cmpfn l s t) {op : ItreeOp}
    (hop : op.Legal l) {fuel : ℕ} (hfuel : l.length < fuel) :
    ∃ s' t', s.step cmpfn fuel op = some s' ∧ Valid cmpfn (op.contents l) s' t' := by
  have hlen : t.toList.length < fuel := by rwa [h.perm.length_eq]
  cases op with
  | insert z =>
    obtain ⟨hz, hzl⟩ := hop
    obtain ⟨s', t', hins, hrep, hrb, ⟨before, after, ht, ht'⟩, hsorted⟩ :=
      Itree.itreeInsert_spec (z := z) (cmpfn) h.rep h.rb hz
        (fun hzt => hzl (h.perm.mem_iff.mp hzt)) hlen
    refine ⟨s', t', hins, hrep, hrb, hsorted hcmp h.sorted, ?_⟩
    rw [ht']
    exact List.perm_middle.trans ((ht ▸ h.perm).cons z)
  | delete z =>
    obtain ⟨s', t', hdel, hrep, hrb, before, after, ht, ht'⟩ :=
      Itree.itreeDelete_spec h.rep h.rb (h.perm.mem_iff.mpr hop) hlen
    have hperm : (before ++ z :: after).Perm l := ht ▸ h.perm
    refine ⟨s', t', hdel, hrep, hrb, ?_, ?_⟩
    · rw [ht']
      have hsorted := h.sorted
      rw [ht] at hsorted
      exact hsorted.sublist (List.Sublist.append_left (List.sublist_cons_self z after) before)
    · rw [ht']
      have herase := (List.perm_middle.symm.trans hperm).erase z
      rwa [List.erase_cons_head] at herase

theorem length_contents (ops : List ItreeOp) (l : List ℕ) :
    (ops.foldl ItreeOp.contents l).length ≤ l.length + ops.length := by
  induction ops generalizing l with
  | nil => simp
  | cons op ops ih =>
    have hle := ih (op.contents l)
    have hop : (op.contents l).length ≤ l.length + 1 := by
      cases op with
      | insert z => simp [ItreeOp.contents]
      | delete z =>
        have hle := List.length_erase_le (a := z) (l := l)
        simp only [ItreeOp.contents]
        omega
    rw [List.foldl_cons, List.length_cons]
    omega

theorem valid_run (hcmp : CmpOrder cmpfn) (ops : List ItreeOp) (h : Valid cmpfn l s t)
    (hops : LegalRun l ops) {fuel : ℕ} (hfuel : l.length + ops.length < fuel) :
    ∃ s' t', ops.foldlM (Itree.step cmpfn fuel) s = some s' ∧
      Valid cmpfn (ops.foldl ItreeOp.contents l) s' t' := by
  induction ops generalizing l s t with
  | nil => exact ⟨s, t, rfl, h⟩
  | cons op ops ih =>
    obtain ⟨hop, hops⟩ := hops
    rw [List.length_cons] at hfuel
    obtain ⟨s₁, t₁, hstep, h₁⟩ := h.step hcmp hop (show l.length < fuel by omega)
    have hlen := length_contents [op] l
    simp only [List.foldl_cons, List.foldl_nil, List.length_singleton] at hlen
    obtain ⟨s', t', hrun, h'⟩ := ih h₁ hops (by omega)
    refine ⟨s', t', ?_, h'⟩
    rw [List.foldlM_cons, hstep]
    exact hrun

theorem itreeCheckNode_eq_true {u n fuel low high : ℕ} {bd lbd : Int}
    (htree : TreeAt s.mem u t) (hbal : t.Bal n) (hsorted : Sorted cmpfn t.toList)
    (hlow : ∀ a ∈ t.toList, low = 0 ∨ cmpfn low a ≤ 0)
    (hhigh : ∀ a ∈ t.toList, high = 0 ∨ cmpfn a high ≤ 0)
    (hfuel : t.toList.length < fuel) (hbd : bd + n + 1 = lbd) :
    s.itreeCheckNode cmpfn lbd fuel (addr t) low high bd = true := by
  obtain ⟨fuel, rfl⟩ : ∃ k, fuel = k + 1 := ⟨fuel - 1, by omega⟩
  induction t generalizing u n fuel low high bd with
  | nil =>
    have hn : n = 0 := hbal
    subst hn
    simp only [Itree.itreeCheckNode, Itree.color, addr_nil, if_true, decide_eq_true_eq]
    omega
  | node c l x r ihl ihr =>
    have hcol : s.color x = .of c := by
      have hcol := color_addr htree
      simpa [addr, RbTree.color] using hcol
    obtain ⟨hx, hm, hl, hr⟩ := htree
    have hleft : s.child .left x = addr l := by rw [Itree.child, hm]; rfl
    have hright : s.child .right x = addr r := by rw [Itree.child, hm]; rfl
    have hup : ∀ w : RbTree ℕ, TreeAt s.mem x w → addr w = 0 ∨ s.up (addr w) = x := by
      intro w hw
      cases w with
      | nil => exact Or.inl rfl
      | node c' l' y r' => exact Or.inr (by simp [Itree.up, addr, hw.2.1])
    simp only [RbTree.toList, Sorted, List.pairwise_append, List.pairwise_cons,
      List.mem_append, List.mem_cons] at hsorted hlow hhigh
    obtain ⟨hsl, ⟨hxr, hsr⟩, hlr⟩ := hsorted
    simp only [RbTree.toList, List.length_append, List.length_cons] at hfuel
    obtain ⟨fuel, rfl⟩ : ∃ k, fuel = k + 1 := ⟨fuel - 1, by omega⟩
    have hdown : ∃ m, l.Bal m ∧ r.Bal m ∧
        (if s.color x = .black then bd + 1 else bd) + m + 1 = lbd ∧
        (c = .black ∨ (l.color = .black ∧ r.color = .black)) := by
      cases c with
      | black =>
        obtain ⟨m, rfl, hbl, hbr⟩ := hbal
        refine ⟨m, hbl, hbr, ?_, Or.inl rfl⟩
        rw [if_pos (by simp [hcol])]
        omega
      | red =>
        obtain ⟨hlc, hrc, hbl, hbr⟩ := hbal
        refine ⟨n, hbl, hbr, ?_, Or.inr ⟨hlc, hrc⟩⟩
        rwa [if_neg (by simp [hcol])]
    obtain ⟨m, hbl, hbr, hcount, hred⟩ := hdown
    have hcheckl := ihl hl hbl hsl (fun a ha => hlow a (Or.inl ha))
      (fun a ha => Or.inr (hlr a ha x (Or.inl rfl))) hcount fuel (by omega)
    have hcheckr := ihr hr hbr hsr (fun a ha => Or.inr (hxr a ha))
      (fun a ha => hhigh a (Or.inr (Or.inr ha))) hcount fuel (by omega)
    have hcx : s.color x = .black ∨ s.color x = .red := by
      rw [hcol]
      cases c <;> simp [ItreeColor.of]
    have hkids : s.color x = .black ∨
        (s.color (addr l) = .black ∧ s.color (addr r) = .black) := by
      simpa [hcol, color_addr hl, color_addr hr] using hred
    have hx' : addr (.node c l x r) = x := rfl
    rw [hx', Itree.itreeCheckNode]
    simp only [if_neg hx, hleft, hright, hcheckl, hcheckr, Bool.and_eq_true,
      decide_eq_true_eq, and_true]
    exact ⟨⟨⟨⟨⟨hup l hl, hup r hr⟩, hcx⟩, hkids⟩, hlow x (Or.inr (Or.inl rfl))⟩,
      hhigh x (Or.inr (Or.inl rfl))⟩

/-- The count along the left side is the black height, and one more below a red node:
the null pointer at the end counts. -/
theorem itreeLeftDepth_eq {u n fuel : ℕ} {lbd : Int} (htree : TreeAt s.mem u t)
    (hbal : t.Bal n) (hfuel : t.toList.length < fuel) :
    s.itreeLeftDepth fuel (addr t) lbd =
      some (lbd + n + (if t.color = .black then 0 else 1)) := by
  obtain ⟨fuel, rfl⟩ : ∃ k, fuel = k + 1 := ⟨fuel - 1, by omega⟩
  induction t generalizing u n fuel lbd with
  | nil =>
    have hn : n = 0 := hbal
    simp [Itree.itreeLeftDepth, hn, RbTree.color]
  | node c l x r ihl ihr =>
    obtain ⟨hx, hm, hl, hr⟩ := htree
    have hleft : s.child .left x = addr l := by rw [Itree.child, hm]; rfl
    have hlc : s.color (addr l) = .black ↔ l.color = .black := by simp [color_addr hl]
    simp only [RbTree.toList, List.length_append, List.length_cons] at hfuel
    obtain ⟨fuel, rfl⟩ : ∃ k, fuel = k + 1 := ⟨fuel - 1, by omega⟩
    have hx' : addr (.node c l x r) = x := rfl
    rw [hx', Itree.itreeLeftDepth, if_neg hx]
    simp only [hleft, hlc]
    cases c with
    | black =>
      obtain ⟨m, rfl, hbl, -⟩ := hbal
      have hc : (RbTree.node .black l x r).color = .black := rfl
      rw [ihl hl hbl fuel (by omega), if_pos hc, Option.some.injEq]
      split <;> omega
    | red =>
      obtain ⟨hlb, -, hbl, -⟩ := hbal
      have hc : (RbTree.node .red l x r).color ≠ .black := by simp [RbTree.color]
      rw [ihl hl hbl fuel (by omega), if_neg hc, if_pos hlb, if_pos hlb, Option.some.injEq]
      omega

theorem Valid.itreeCheck (h : Valid cmpfn l s t) {fuel : ℕ} (hfuel : l.length < fuel) :
    s.itreeCheck cmpfn fuel = true := by
  obtain ⟨hblack, n, hbal⟩ := h.rb
  have hlen : t.toList.length < fuel := by rwa [h.perm.length_eq]
  have hroot : s.rbRoot = addr t := h.rep.1
  have hdepth : s.itreeLeftDepth fuel (addr t) 0 =
      some ((0 : Int) + n + (if t.color = .black then 0 else 1)) :=
    itreeLeftDepth_eq h.rep.2.1 hbal hlen
  rw [if_pos hblack] at hdepth
  have hcol : s.color (addr t) = .black := by simp [h.rep.color_focus, hblack]
  have hup : addr t = 0 ∨ s.up (addr t) = 0 := by
    by_cases ht : t = .nil
    · exact Or.inl (by rw [ht, addr_nil])
    · exact Or.inr (h.rep.up_focus ht)
  have hnode : s.itreeCheckNode cmpfn (-1 + n + 1) fuel (addr t) 0 0 (-1) = true :=
    itreeCheckNode_eq_true h.rep.2.1 hbal h.sorted (fun _ _ => Or.inl rfl)
      (fun _ _ => Or.inl rfl) hlen rfl
  rw [Itree.itreeCheck, hroot, hdepth]
  simp only [hcol, hup, Bool.and_eq_true, decide_eq_true_eq]
  refine ⟨⟨trivial, trivial⟩, ?_⟩
  rwa [show (0 : Int) + n + 0 = -1 + n + 1 by omega]

/-- Insertions and deletions in any order keep a red-black search tree: every legal run from an
empty tree succeeds, and leaves a tree whose pointers and colors are right, whose keys do not
decrease, whose nodes are those inserted and not deleted, and that passes the check of the program.
-/
theorem itree_run_valid {cmpfn : ℕ → ℕ → Int} (hcmp : CmpOrder cmpfn) (s : Itree)
    (ops : List ItreeOp) (hops : LegalRun [] ops) (fuel : ℕ) (hfuel : ops.length < fuel) :
    ∃ s' t, ops.foldlM (Itree.step cmpfn fuel) s.clear = some s' ∧
      Rep s' [] t ∧ RB t ∧ Sorted cmpfn t.toList ∧
      t.toList.Perm (ops.foldl ItreeOp.contents []) ∧ s'.itreeCheck cmpfn fuel = true := by
  obtain ⟨s', t, hrun, h⟩ := valid_run hcmp ops (valid_clear cmpfn s) hops
    (show List.length [] + ops.length < fuel by simpa using hfuel)
  have hlen : (ops.foldl ItreeOp.contents []).length < fuel := by
    have hle := length_contents ops []
    rw [List.length_nil] at hle
    omega
  exact ⟨s', t, hrun, h.rep, h.rb, h.sorted, h.perm, h.itreeCheck hlen⟩

/-- Six nodes in two classes of equal keys; a node with two children is deleted. -/
theorem itree_run_valid_parity :
    let cmpfn : ℕ → ℕ → Int := fun a b => (a % 2 : ℕ) - (b % 2 : ℕ)
    let ops : List ItreeOp :=
      [.insert 1, .insert 2, .insert 3, .insert 4, .delete 1, .insert 6, .insert 5, .delete 4]
    ∃ s' t, ops.foldlM (Itree.step cmpfn 9) (Itree.clear ⟨0, fun _ => ⟨0, 0, 0, .invalid⟩⟩) =
        some s' ∧ Rep s' [] t ∧ RB t ∧ Sorted cmpfn t.toList ∧
      t.toList.Perm (ops.foldl ItreeOp.contents []) ∧ s'.itreeCheck cmpfn 9 = true := by
  intro cmpfn ops
  have hcmp : CmpOrder cmpfn :=
    ⟨fun a b h => by simp only [cmpfn] at h ⊢; omega,
      fun a b c h h' => by simp only [cmpfn] at h h' ⊢; omega⟩
  exact itree_run_valid hcmp _ ops (by simp [ops, LegalRun, ItreeOp.Legal, ItreeOp.contents])
    9 (by simp [ops])

namespace Itree

def itreeFirst (fuel : ℕ) (s : Itree) : Option ℕ :=
  if s.rbRoot = 0 then some 0 else itreeMinimum s fuel s.rbRoot

/-- The loop of `search`; `cb` compares the key that is looked for with a node. -/
def itreeSearchLoop (cb : ℕ → Int) (s : Itree) : ℕ → (n ret : ℕ) → Option ℕ
  | 0, _, _ => none
  | fuel + 1, n, ret =>
    if n = 0 then some ret
    else if cb n < 0 then itreeSearchLoop cb s fuel (s.child .left n) ret
    else if cb n > 0 then itreeSearchLoop cb s fuel (s.child .right n) ret
    else itreeSearchLoop cb s fuel (s.child .left n) n

def itreeSearch (cb : ℕ → Int) (fuel : ℕ) (s : Itree) : Option ℕ :=
  itreeSearchLoop cb s fuel s.rbRoot 0

variable {s : Itree} {t : RbTree ℕ} {fuel : ℕ}

theorem itreeFirst_spec (h : Rep s [] t) (hfuel : t.toList.length < fuel) :
    itreeFirst fuel s = some (t.toList.headD 0) := by
  have hroot : s.rbRoot = addr t := h.1
  by_cases ht : t = .nil
  · subst ht
    rw [itreeFirst, if_pos (by rw [hroot, addr_nil])]
    rfl
  · have h0 : addr t ≠ 0 := fun h0 => ht ((addr_eq_zero h.2.1).mp h0)
    obtain ⟨gs, c, m, r, hmin, hplug, after, happ⟩ := itreeMinimum_spec h ht hfuel
    rw [itreeFirst, if_neg (by rwa [hroot]), hroot, hmin, ← hplug, happ]
    rfl

theorem itreeSuccessorClimb_spec (fs : List (Frame ℕ)) {t : RbTree ℕ} {fuel : ℕ}
    (h : Rep s fs t) (ht : t ≠ .nil) (hfuel : fs.length < fuel) :
    itreeSuccessorClimb s fuel (addr t) (parent fs) = some ((rightOf fs).headD 0) := by
  induction fs generalizing t fuel with
  | nil =>
    obtain ⟨fuel, rfl⟩ : ∃ k, fuel = k + 1 := ⟨fuel - 1, by omega⟩
    simp [itreeSuccessorClimb, parent, rightOf]
  | cons f fs ih =>
    rw [List.length_cons] at hfuel
    obtain ⟨fuel, rfl⟩ : ∃ k, fuel = k + 1 := ⟨fuel - 1, by omega⟩
    obtain ⟨hx, hm⟩ := h.frame
    have hnext := ih ((rep_cons ..).mp h) RbTree.mk_ne_nil (by omega : fs.length < fuel)
    rw [addr_mk] at hnext
    cases hd : f.dir with
    | left =>
      have hright : s.child .right f.elem = addr f.sib := by
        rw [child, hm, hd]
        rfl
      have hne : addr t ≠ s.child .right f.elem := by
        rw [hright]
        exact h.addr_ne_sib (Or.inl ht)
      simp only [parent, itreeSuccessorClimb, hne, and_false, if_false, rightOf, hd]
      rfl
    | right =>
      have hright : s.child .right f.elem = addr t := by
        rw [child, hm, hd]
        rfl
      have hup : s.up f.elem = parent fs := by rw [up, hm, ItreeEntry.rbeUp_at]
      have hpar : parent (f :: fs) = f.elem := rfl
      have hof : rightOf (f :: fs) = rightOf fs := by simp only [rightOf, hd]
      rw [hpar, hof, itreeSuccessorClimb, if_pos ⟨hx, hright.symm⟩, hup, hnext]

theorem itreeSuccessor_spec (h : Rep s [] t) {before after : List ℕ} {x : ℕ}
    (hx : t.toList = before ++ x :: after) (hfuel : t.toList.length < fuel) :
    itreeSuccessor fuel s x = some (after.headD 0) := by
  obtain ⟨fs, c, l, r, rfl⟩ := exists_focus (show x ∈ t.toList by simp [hx])
  have hfoc := (rep_plug ..).mpr h
  have hnd : (plug fs (.node c l x r)).toList.Nodup := by simpa [ctxList] using h.2.2
  have hlen := Nat.lt_of_le_of_lt (length_le_toList_plug fs (.node c l x r)) hfuel
  obtain ⟨front, hfront⟩ := toList_plug_rightOf fs
  have hafter : after = r.toList ++ rightOf fs := by
    rw [hfront] at hx hnd
    have hsplit : (front ++ l.toList) ++ x :: (r.toList ++ rightOf fs) = before ++ x :: after := by
      rw [← hx]
      simp [RbTree.toList]
    have hnd' : ((front ++ l.toList) ++ x :: (r.toList ++ rightOf fs)).Nodup := by
      have heq : (front ++ l.toList) ++ x :: (r.toList ++ rightOf fs) =
          front ++ (RbTree.node c l x r).toList ++ rightOf fs := by simp [RbTree.toList]
      rwa [heq]
    exact (eq_of_nodup_split hsplit hnd').2.symm
  have hright : s.child .right x = addr r := by
    have hfoc' : Rep s fs (.mk .left c l x r) := hfoc
    rw [child, hfoc'.focus.2]
    rfl
  rw [itreeSuccessor, hright, hafter]
  by_cases hr : r = .nil
  · subst hr
    have hup : s.up x = parent fs := hfoc.up_focus (by simp)
    simp only [addr_nil, ne_eq, not_true_eq_false, if_false, hup]
    exact itreeSuccessorClimb_spec fs hfoc (by simp) hlen
  · have h0 : addr r ≠ 0 := fun h0 => hr ((addr_eq_zero hfoc.2.1.2.2.2).mp h0)
    have hrep : Rep s (⟨.right, c, x, l⟩ :: fs) r := (rep_cons ..).mpr hfoc
    have hrlen : r.toList.length < fuel := by
      rw [hfront] at hfuel
      simp only [RbTree.toList, List.length_append, List.length_cons] at hfuel
      omega
    obtain ⟨gs, cm, m, rm, hmin, hplug, tail, happ⟩ := itreeMinimum_spec hrep hr hrlen
    simp only [if_pos h0, hmin]
    rw [← hplug, happ]
    rfl

/-- What `search` asks of a comparison with its key: the answers do not increase from left to
right. -/
def Falling (cb : ℕ → Int) (l : List ℕ) : Prop :=
  l.Pairwise fun a b => (cb a < 0 → cb b < 0) ∧ (0 < cb b → 0 < cb a)

theorem itreeSearchLoop_spec {cb : ℕ → Int} {u : ℕ} {ret : ℕ} (h : TreeAt s.mem u t)
    (hcb : Falling cb t.toList) (hfuel : t.toList.length < fuel) :
    itreeSearchLoop cb s fuel (addr t) ret =
      some ((t.toList.find? fun a => cb a = 0).getD ret) := by
  induction t generalizing u ret fuel with
  | nil =>
    obtain ⟨fuel, rfl⟩ : ∃ k, fuel = k + 1 := ⟨fuel - 1, by omega⟩
    simp [itreeSearchLoop, RbTree.toList]
  | node c l x r ihl ihr =>
    simp only [RbTree.toList, List.length_append, List.length_cons] at hfuel
    obtain ⟨fuel, rfl⟩ : ∃ k, fuel = k + 1 := ⟨fuel - 1, by omega⟩
    obtain ⟨hx, hm, hl, hr⟩ := h
    have hleft : s.child .left x = addr l := by rw [child, hm]; rfl
    have hright : s.child .right x = addr r := by rw [child, hm]; rfl
    obtain ⟨hfl, hfr, hlr⟩ := List.pairwise_append.mp hcb
    obtain ⟨hxr, hfr⟩ := List.pairwise_cons.mp hfr
    have hx' : addr (.node c l x r) = x := rfl
    rw [hx', itreeSearchLoop, if_neg hx, hleft, hright]
    rcases Int.lt_trichotomy (cb x) 0 with hlt | heq | hgt
    · -- nothing from `x` on has the key
      have hnone : (x :: r.toList).find? (fun a => cb a = 0) = none := by
        rw [List.find?_eq_none]
        intro a ha
        have hneg : cb a < 0 := by
          rcases List.mem_cons.mp ha with rfl | ha
          · exact hlt
          · exact (hxr a ha).1 hlt
        simp only [decide_eq_true_eq]
        omega
      rw [if_pos hlt, ihl hl hfl (by omega), RbTree.toList, List.find?_append, hnone,
        Option.or_none]
    · rw [if_neg (by omega), if_neg (by omega), ihl hl hfl (by omega), RbTree.toList,
        List.find?_append, List.find?_cons_of_pos (by simpa using heq)]
      cases l.toList.find? fun a => cb a = 0 <;> rfl
    · -- nothing up to `x` has the key
      have hnone : l.toList.find? (fun a => cb a = 0) = none := by
        rw [List.find?_eq_none]
        intro a ha
        have hpos : 0 < cb a := (hlr a ha x List.mem_cons_self).2 hgt
        simp only [decide_eq_true_eq]
        omega
      rw [if_neg (by omega), if_pos hgt, ihr hr hfr (by omega), RbTree.toList,
        List.find?_append, hnone, Option.none_or,
        List.find?_cons_of_neg (by simp only [decide_eq_true_eq]; omega)]

theorem itreeSearch_spec {cb : ℕ → Int} (h : Rep s [] t) (hcb : Falling cb t.toList)
    (hfuel : t.toList.length < fuel) :
    itreeSearch cb fuel s = some ((t.toList.find? fun a => cb a = 0).getD 0) := by
  have hroot : s.rbRoot = addr t := h.1
  rw [itreeSearch, hroot]
  exact itreeSearchLoop_spec h.2.1 hcb hfuel

end Itree

end Sfslite.Async
