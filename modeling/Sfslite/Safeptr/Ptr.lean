import Mathlib.Algebra.Group.Nat.Defs
import Mathlib.Data.Finset.Card

/-!
`sp::gc::ptr`: pointers that count the references to their objects (`sp_gc.h`). An object may
have pointers as members, which its destructor destroys.

What `rc_dec` does: the objects that lose their last pointer are destroyed, one after the other.
-/

namespace Sfslite.Safeptr

/-- Where a pointer stands: a variable, or member `i` of object `o`. -/
inductive Loc
  | root (r : ℕ)
  | field (o i : ℕ)
deriving DecidableEq

def Loc.owner : Loc → Option ℕ
  | .root _ => none
  | .field o _ => some o

structure Heap where
  /-- The pointers there are. -/
  ptrs : Finset Loc
  /-- `_redir_ptr`; `none` is `NONE`. -/
  redir : Loc → Option ℕ
  /-- `count ()` of the objects there are. -/
  count : ℕ → Option ℕ
  /-- The number of pointers among the members of an object. -/
  members : ℕ → ℕ

namespace Heap

/-- `none` where the memory of the pointer has been given back. -/
def read (h : Heap) (l : Loc) : Option (Option ℕ) :=
  if l ∈ h.ptrs then some (h.redir l) else none

def write (h : Heap) (l : Loc) (v : Option ℕ) : Option Heap :=
  if l ∈ h.ptrs then some { h with redir := Function.update h.redir l v } else none

def setCount (h : Heap) (o c : ℕ) : Heap :=
  { h with count := Function.update h.count o (some c) }

def deallocate (h : Heap) (o : ℕ) : Heap :=
  { h with
    ptrs := h.ptrs.filter fun l => l.owner ≠ some o
    count := Function.update h.count o none }

section

variable (h : Heap) {o p : ℕ} (c : ℕ)

@[simp] theorem count_setCount_self : (h.setCount o c).count o = some c := Function.update_self ..

theorem count_setCount_of_ne (hne : p ≠ o) : (h.setCount o c).count p = h.count p :=
  Function.update_of_ne hne ..

@[simp] theorem count_deallocate_self : (h.deallocate o).count o = none := Function.update_self ..

theorem count_deallocate_of_ne (hne : p ≠ o) : (h.deallocate o).count p = h.count p :=
  Function.update_of_ne hne ..

theorem mem_ptrs_deallocate {l : Loc} :
    l ∈ (h.deallocate o).ptrs ↔ l ∈ h.ptrs ∧ l.owner ≠ some o := Finset.mem_filter

end

/-- `ptr::rc_inc`, where `v` is `_redir_ptr`; `none` also where the count, an `int32_t`,
overflows. -/
def rcInc (v : Option ℕ) (h : Heap) : Option Heap :=
  match v with
  | none => some h
  | some o => do
      let c ← h.count o
      if c + 1 < 2 ^ 31 then some (h.setCount o (c + 1)) else none

/-- `ptr::rc_dec`; `none` where the assertion fails. An object without a pointer left has its
members destroyed, the last one first. -/
def rcDec : ℕ → Loc → Heap → Option Heap
  | 0, _, _ => none
  | fuel + 1, l, h => do
      match ← h.read l with
      | none => some h
      | some o =>
        match h.count o with
        | some (c + 1) =>
          let h := h.setCount o c
          if c = 0 then do
            -- `obj()->~T()`
            let h ← (List.range (h.members o)).reverse.foldlM
              (fun h i => rcDec fuel (.field o i) h) h
            (h.deallocate o).write l none
          else some h
        | _ => none

def newRoot (h : Heap) (r : ℕ) (v : Option ℕ) : Heap :=
  { h with ptrs := insert (.root r) h.ptrs, redir := Function.update h.redir (.root r) v }

/-- A new object, whose `k` pointers are null. -/
def newObj (h : Heap) (o k : ℕ) : Heap where
  ptrs := h.ptrs ∪ (Finset.range k).image (Loc.field o)
  redir l := if l.owner = some o then none else h.redir l
  count := Function.update h.count o (some 0)
  members := Function.update h.members o k

end Heap

inductive Op
  /-- `ptr<T> r;`, also where an allocation fails. -/
  | make (r : ℕ)
  /-- `ptr<T> r = alloc<T> ();`, which gets the memory of `o`. -/
  | alloc (r o k : ℕ)
  | copy (r : ℕ) (src : Loc)
  | assign (dst src : Loc)
  /-- `*dst = NULL`. -/
  | null (dst : Loc)
  | destroy (r : ℕ)

open Heap in
def step (h : Heap) : Op → Option Heap
  | .make r => some (h.newRoot r none)
  | .alloc r o k => ((h.newObj o k).newRoot r (some o)).rcInc (some o)
  | .copy r src => do
      let v ← h.read src
      (h.newRoot r v).rcInc v
  | .assign dst src => do
      let h ← h.rcDec (h.ptrs.card + 1) dst
      let v ← h.read src
      let h ← h.write dst v
      h.rcInc v
  | .null dst => do
      let h ← h.rcDec (h.ptrs.card + 1) dst
      h.write dst none
  | .destroy r => do
      let h ← h.rcDec (h.ptrs.card + 1) (.root r)
      some { h with ptrs := h.ptrs.erase (.root r) }

/-- `operator==`: the redirectors are compared as what `operator bool` makes of them. -/
def baseEq (h : Heap) (l l' : Loc) : Option Bool := do
  let v ← h.read l
  let v' ← h.read l'
  some (v.isSome == v'.isSome)

namespace Heap

/-- The pointers that refer to `o`. -/
def refs (h : Heap) (o : ℕ) : Finset Loc := h.ptrs.filter fun l => h.redir l = some o

/-- Object `o` is destroyed together with `d`: every pointer to it is a member of an object that
is. -/
inductive Falls (h : Heap) (d : ℕ) : ℕ → Prop
  | last : Falls h d d
  | member {o : ℕ} (w : Loc → ℕ) (hw : ∀ l ∈ h.refs o, l.owner = some (w l))
      (hfalls : ∀ l ∈ h.refs o, Falls h d (w l)) : Falls h d o

/-- What holds between the calls of `rc_dec`. -/
structure Inv (h : Heap) : Prop where
  count : ∀ o c, h.count o = some c → c = (h.refs o).card ∧ 0 < c
  live : ∀ o, ∀ l ∈ h.refs o, h.count o ≠ none
  fields : ∀ o i, Loc.field o i ∈ h.ptrs ↔ h.count o ≠ none ∧ i < h.members o

/-- The pointers to `o` that have not let go of it. -/
def holders (h₀ h : Heap) (S : Finset Loc) (o : ℕ) : Finset Loc :=
  (h.ptrs \ S).filter fun l => h₀.redir l = some o

/-- What holds within a call that began with the heap `h₀` and the pointer `dst`. The pointers in
`S` have let go of their objects, the objects in `Z` are being destroyed, and only objects in `F`
are. -/
structure Mid (h₀ : Heap) (F : ℕ → Prop) (dst : Loc) (h : Heap) (S : Finset Loc)
    (Z : Finset ℕ) : Prop where
  sub : h.ptrs ⊆ h₀.ptrs
  redir : ∀ l ∈ h.ptrs, l ∉ S → h.redir l = h₀.redir l
  members : h.members = h₀.members
  count : ∀ o c, h.count o = some c → c = (holders h₀ h S o).card
  live : ∀ l ∈ h.ptrs, l ∉ S → ∀ o, h₀.redir l = some o → h.count o ≠ none
  fields : ∀ o i, Loc.field o i ∈ h.ptrs ↔ h.count o ≠ none ∧ i < h₀.members o
  zero : ∀ o, h.count o = some 0 ↔ o ∈ Z
  stale : ∀ l ∈ S, l ∈ h.ptrs → l = dst ∨ ∃ o ∈ Z, l.owner = some o
  kept : ∀ l ∈ h₀.ptrs, l ∉ h.ptrs → ∃ p, l.owner = some p ∧ F p
  stale_falls : ∀ l ∈ S, l = dst ∨ ∃ p, l.owner = some p ∧ F p

variable {h h₀ : Heap} {F : ℕ → Prop} {dst l : Loc} {S : Finset Loc} {Z : Finset ℕ} {d o c : ℕ}

theorem mem_refs {l : Loc} : l ∈ h.refs o ↔ l ∈ h.ptrs ∧ h.redir l = some o := Finset.mem_filter

theorem mem_holders {l : Loc} :
    l ∈ holders h₀ h S o ↔ (l ∈ h.ptrs ∧ l ∉ S) ∧ h₀.redir l = some o := by
  rw [holders, Finset.mem_filter, Finset.mem_sdiff]

theorem holders_insert : holders h₀ h (insert l S) o = (holders h₀ h S o).erase l := by
  ext l'
  simp only [mem_holders, Finset.mem_erase, Finset.mem_insert, not_or]
  tauto

theorem Inv.mid (hinv : Inv h) (F : ℕ → Prop) (dst : Loc) : Mid h F dst h ∅ ∅ where
  sub := Finset.Subset.refl _
  redir _ _ _ := rfl
  members := rfl
  count o c hc := by
    rw [holders, Finset.sdiff_empty]
    exact (hinv.count o c hc).1
  live l hl _ o ho := hinv.live o l (mem_refs.mpr ⟨hl, ho⟩)
  fields := hinv.fields
  zero o := by
    refine ⟨fun hzero => ?_, fun hmem => absurd hmem (Finset.notMem_empty o)⟩
    exact absurd (hinv.count o 0 hzero).2 (Nat.lt_irrefl 0)
  stale l hl := absurd hl (Finset.notMem_empty l)
  kept l hl hno := absurd hl hno
  stale_falls l hl := absurd hl (Finset.notMem_empty l)

theorem Mid.insert_null (hm : Mid h₀ F dst h S Z) (hnull : h₀.redir l = none)
    (hl : l = dst ∨ ∃ o ∈ Z, l.owner = some o ∧ F o) : Mid h₀ F dst h (insert l S) Z where
  sub := hm.sub
  redir l' hl' hno := hm.redir l' hl' fun hin => hno (Finset.mem_insert_of_mem hin)
  members := hm.members
  count o c hc := by
    have hnot : l ∉ holders h₀ h S o := by
      intro hmem
      have ho := (mem_holders.mp hmem).2
      rw [hnull] at ho
      cases ho
    rw [holders_insert, Finset.erase_eq_of_notMem hnot]
    exact hm.count o c hc
  live l' hl' hno := hm.live l' hl' fun hin => hno (Finset.mem_insert_of_mem hin)
  fields := hm.fields
  zero := hm.zero
  stale l' hl' hin := by
    rcases Finset.mem_insert.mp hl' with rfl | hS
    · rcases hl with heq | ⟨o, hZ, howner, -⟩
      · exact Or.inl heq
      · exact Or.inr ⟨o, hZ, howner⟩
    · exact hm.stale l' hS hin
  kept := hm.kept
  stale_falls l' hl' := by
    rcases Finset.mem_insert.mp hl' with rfl | hS
    · rcases hl with heq | ⟨o, -, howner, hF⟩
      · exact Or.inl heq
      · exact Or.inr ⟨o, howner, hF⟩
    · exact hm.stale_falls l' hS

theorem Mid.dec (hm : Mid h₀ F dst h S Z) (hin : l ∈ h.ptrs) (hno : l ∉ S)
    (ho : h₀.redir l = some o) (hc : h.count o = some (c + 1))
    (hl : l = dst ∨ ∃ p ∈ Z, l.owner = some p ∧ F p) :
    Mid h₀ F dst (h.setCount o c) (insert l S) (if c = 0 then insert o Z else Z) where
  sub := hm.sub
  redir l' hl' hno := hm.redir l' hl' fun hin => hno (Finset.mem_insert_of_mem hin)
  members := hm.members
  count o' c' hc' := by
    have hsame : holders h₀ (h.setCount o c) (insert l S) o' = (holders h₀ h S o').erase l :=
      holders_insert
    rw [hsame]
    rcases eq_or_ne o' o with rfl | hne
    · have hmem : l ∈ holders h₀ h S o' := mem_holders.mpr ⟨⟨hin, hno⟩, ho⟩
      have hcard := hm.count o' (c + 1) hc
      rw [count_setCount_self] at hc'
      rw [Finset.card_erase_of_mem hmem, ← hcard, ← Option.some.inj hc', Nat.add_sub_cancel]
    · have hnot : l ∉ holders h₀ h S o' := by
        intro hmem
        have ho' := (mem_holders.mp hmem).2
        rw [ho] at ho'
        exact hne (Option.some.inj ho').symm
      rw [count_setCount_of_ne h c hne] at hc'
      rw [Finset.erase_eq_of_notMem hnot]
      exact hm.count o' c' hc'
  live l' hl' hno' o' ho' := by
    rcases eq_or_ne o' o with rfl | hne
    · simp
    · rw [count_setCount_of_ne h c hne]
      exact hm.live l' hl' (fun hin => hno' (Finset.mem_insert_of_mem hin)) o' ho'
  fields o' i := by
    have hfield : Loc.field o' i ∈ (h.setCount o c).ptrs ↔ _ := hm.fields o' i
    rw [hfield]
    rcases eq_or_ne o' o with rfl | hne
    · simp [hc]
    · rw [count_setCount_of_ne h c hne]
  zero o' := by
    rcases eq_or_ne o' o with rfl | hne
    · have hnotZ : o' ∉ Z := by
        intro hZ
        rw [(hm.zero o').mpr hZ] at hc
        cases hc
      rw [count_setCount_self]
      split
      · rename_i hzero
        simp [hzero]
      · rename_i hpos
        simp [hpos, hnotZ]
    · rw [count_setCount_of_ne h c hne, hm.zero]
      split
      · simp [hne]
      · rfl
  stale l' hl' hin' := by
    have hZ : ∀ p ∈ Z, p ∈ (if c = 0 then insert o Z else Z) := by
      intro p hp
      split
      · exact Finset.mem_insert_of_mem hp
      · exact hp
    rcases Finset.mem_insert.mp hl' with rfl | hS
    · rcases hl with heq | ⟨p, hp, howner, -⟩
      · exact Or.inl heq
      · exact Or.inr ⟨p, hZ p hp, howner⟩
    · rcases hm.stale l' hS hin' with heq | ⟨p, hp, howner⟩
      · exact Or.inl heq
      · exact Or.inr ⟨p, hZ p hp, howner⟩
  kept := hm.kept
  stale_falls l' hl' := by
    rcases Finset.mem_insert.mp hl' with rfl | hS
    · rcases hl with heq | ⟨p, -, howner, hF⟩
      · exact Or.inl heq
      · exact Or.inr ⟨p, howner, hF⟩
    · exact hm.stale_falls l' hS

theorem Mid.deallocate (hm : Mid h₀ F dst h S (insert o Z)) (hZ : o ∉ Z) (hF : F o)
    {S' : Finset Loc} (hsub : S' ⊆ S) (hS : ∀ l ∈ S, l ∈ S' ∨ l.owner = some o)
    (hmem : ∀ i, i < h₀.members o → Loc.field o i ∈ S) : Mid h₀ F dst (h.deallocate o) S' Z := by
  have hzero : h.count o = some 0 := (hm.zero o).mpr (Finset.mem_insert_self o Z)
  have hout : ∀ l ∈ h.ptrs, l.owner = some o → l ∈ S := by
    intro l hl howner
    cases l with
    | root r => cases howner
    | field p i =>
      obtain rfl : p = o := Option.some.inj howner
      exact hmem i ((hm.fields p i).mp hl).2
  have hin : ∀ l ∈ (h.deallocate o).ptrs, l ∉ S' → l ∈ h.ptrs ∧ l ∉ S := by
    intro l hl hno
    obtain ⟨hin, howner⟩ := (mem_ptrs_deallocate h).mp hl
    refine ⟨hin, fun hinS => ?_⟩
    rcases hS l hinS with hinS' | hown
    · exact hno hinS'
    · exact howner hown
  refine ⟨?_, ?_, hm.members, ?_, ?_, ?_, ?_, ?_, ?_, ?_⟩
  · exact fun l hl => hm.sub ((mem_ptrs_deallocate h).mp hl).1
  · exact fun l hl hno => hm.redir l (hin l hl hno).1 (hin l hl hno).2
  · intro p c hc
    have hne : p ≠ o := by
      rintro rfl
      rw [count_deallocate_self] at hc
      cases hc
    rw [count_deallocate_of_ne h hne] at hc
    rw [hm.count p c hc]
    congr 1
    ext l
    simp only [mem_holders]
    constructor
    · rintro ⟨⟨hl, hno⟩, hr⟩
      have howner : l.owner ≠ some o := fun howner => hno (hout l hl howner)
      exact ⟨⟨(mem_ptrs_deallocate h).mpr ⟨hl, howner⟩, fun hl' => hno (hsub hl')⟩, hr⟩
    · rintro ⟨⟨hl, hno⟩, hr⟩
      exact ⟨hin l hl hno, hr⟩
  · intro l hl hno p hr
    obtain ⟨hl', hno'⟩ := hin l hl hno
    have hne : p ≠ o := by
      rintro rfl
      have hcard := hm.count p 0 hzero
      have hpos := Finset.card_pos.mpr ⟨l, mem_holders.mpr ⟨⟨hl', hno'⟩, hr⟩⟩
      omega
    rw [count_deallocate_of_ne h hne]
    exact hm.live l hl' hno' p hr
  · intro p i
    rw [mem_ptrs_deallocate, hm.fields p i]
    rcases eq_or_ne p o with rfl | hne
    · simp [Loc.owner]
    · simp [Loc.owner, hne, count_deallocate_of_ne h hne]
  · intro p
    rcases eq_or_ne p o with rfl | hne
    · simp [hZ]
    · rw [count_deallocate_of_ne h hne, hm.zero, Finset.mem_insert]
      simp [hne]
  · intro l hl hl'
    obtain ⟨hin', howner⟩ := (mem_ptrs_deallocate h).mp hl'
    rcases hm.stale l (hsub hl) hin' with heq | ⟨p, hp, hown⟩
    · exact Or.inl heq
    · rcases Finset.mem_insert.mp hp with rfl | hp
      · exact absurd hown howner
      · exact Or.inr ⟨p, hp, hown⟩
  · intro l hl hno
    rcases em (l ∈ h.ptrs) with hin' | hout'
    · refine ⟨o, ?_, hF⟩
      by_contra hne
      exact hno ((mem_ptrs_deallocate h).mpr ⟨hin', hne⟩)
    · exact hm.kept l hl hout'
  · exact fun l hl => hm.stale_falls l (hsub hl)

theorem Mid.update (hm : Mid h₀ F dst h S Z) (hl : l ∈ S) (v : Option ℕ) :
    Mid h₀ F dst { h with redir := Function.update h.redir l v } S Z where
  sub := hm.sub
  redir l' hl' hno := by
    have hne : l' ≠ l := fun heq => hno (heq ▸ hl)
    exact (Function.update_of_ne hne ..).trans (hm.redir l' hl' hno)
  members := hm.members
  count := hm.count
  live := hm.live
  fields := hm.fields
  zero := hm.zero
  stale := hm.stale
  kept := hm.kept
  stale_falls := hm.stale_falls

theorem Mid.falls {d : ℕ} (hm : Mid h₀ (Falls h₀ d) dst h S Z) (hd : h₀.redir dst = some d)
    (hnone : holders h₀ h S o = ∅) : Falls h₀ d o := by
  rcases eq_or_ne o d with rfl | hne
  · exact .last
  · have howner : ∀ l ∈ h₀.refs o, ∃ p, l.owner = some p ∧ Falls h₀ d p := by
      intro l hl
      obtain ⟨hin, hr⟩ := mem_refs.mp hl
      rcases em (l ∈ h.ptrs) with hin' | hout
      · have hS : l ∈ S := by
          by_contra hno
          have hmem : l ∈ holders h₀ h S o := mem_holders.mpr ⟨⟨hin', hno⟩, hr⟩
          rw [hnone] at hmem
          exact Finset.notMem_empty l hmem
        rcases hm.stale_falls l hS with rfl | hfalls
        · rw [hd] at hr
          exact absurd (Option.some.inj hr).symm hne
        · exact hfalls
      · exact hm.kept l hin hout
    refine .member (fun l => l.owner.getD 0) (fun l hl => ?_) (fun l hl => ?_)
    · obtain ⟨p, hp, -⟩ := howner l hl
      rw [hp]
      rfl
    · obtain ⟨p, hp, hfalls⟩ := howner l hl
      rw [hp]
      exact hfalls

/-- What a call of `rc_dec` does that has `fuel` left. -/
def Drops (h₀ : Heap) (d : ℕ) (dst : Loc) (fuel : ℕ) : Prop :=
  ∀ (h : Heap) (S : Finset Loc) (Z : Finset ℕ) (l : Loc), Mid h₀ (Falls h₀ d) dst h S Z →
    l ∈ h.ptrs → l ∉ S → (l = dst ∨ ∃ p ∈ Z, l.owner = some p ∧ Falls h₀ d p) →
    (h.ptrs \ S).card < fuel →
    ∃ h', h.rcDec fuel l = some h' ∧ Mid h₀ (Falls h₀ d) dst h' (insert l S) Z ∧
      h'.ptrs ⊆ h.ptrs

theorem foldlM_members {fuel : ℕ} (hdrops : Drops h₀ d dst fuel) (hoZ : o ∈ Z)
    (hF : Falls h₀ d o) (is : List ℕ) (hnodup : is.Nodup) (h : Heap) (S : Finset Loc)
    (hm : Mid h₀ (Falls h₀ d) dst h S Z)
    (his : ∀ i ∈ is, i < h₀.members o ∧ Loc.field o i ∉ S) (hfuel : (h.ptrs \ S).card < fuel) :
    ∃ h', is.foldlM (fun h i => rcDec fuel (.field o i) h) h = some h' ∧
      Mid h₀ (Falls h₀ d) dst h' (S ∪ is.toFinset.image (Loc.field o)) Z ∧
      h'.ptrs ⊆ h.ptrs := by
  induction is generalizing h S with
  | nil => exact ⟨h, rfl, by simpa using hm, Finset.Subset.refl _⟩
  | cons i is ih =>
    obtain ⟨hnot, hnodup⟩ := List.nodup_cons.mp hnodup
    obtain ⟨hlt, hno⟩ := his i List.mem_cons_self
    have hin : Loc.field o i ∈ h.ptrs := by
      rw [hm.fields, (hm.zero o).mpr hoZ]
      exact ⟨by simp, hlt⟩
    obtain ⟨h₁, hstep, hm₁, hsub₁⟩ := hdrops h S Z (.field o i) hm hin hno
      (Or.inr ⟨o, hoZ, rfl, hF⟩) hfuel
    have hcard : (h₁.ptrs \ insert (.field o i) S).card ≤ (h.ptrs \ S).card :=
      Finset.card_le_card (Finset.sdiff_subset_sdiff hsub₁ (Finset.subset_insert _ _))
    obtain ⟨h₂, hrest, hm₂, hsub₂⟩ := ih hnodup h₁ _ hm₁ (fun j hj => by
      obtain ⟨hjlt, hjno⟩ := his j (List.mem_cons_of_mem _ hj)
      refine ⟨hjlt, fun hjin => ?_⟩
      rcases Finset.mem_insert.mp hjin with heq | hjS
      · obtain rfl := (Loc.field.inj heq).2
        exact hnot hj
      · exact hjno hjS) (by omega)
    refine ⟨h₂, ?_, ?_, hsub₂.trans hsub₁⟩
    · rw [List.foldlM_cons, hstep]
      exact hrest
    · convert hm₂ using 1
      rw [List.toFinset_cons, Finset.image_insert, Finset.union_insert, Finset.insert_union]

theorem drops (hd : h₀.redir dst = some d)
    (hown : ∀ p, dst.owner = some p → ¬ Falls h₀ d p) (fuel : ℕ) : Drops h₀ d dst fuel := by
  induction fuel with
  | zero => exact fun _ _ _ _ _ _ _ _ hfuel => absurd hfuel (Nat.not_lt_zero _)
  | succ fuel ih =>
    intro h S Z l hm hin hno hl hfuel
    have hread : h.read l = some (h₀.redir l) := by
      rw [read, if_pos hin, hm.redir l hin hno]
    rw [rcDec, hread]
    simp only [Option.bind_eq_bind, Option.bind_some]
    cases ho : h₀.redir l with
    | none => exact ⟨h, rfl, hm.insert_null ho hl, Finset.Subset.refl _⟩
    | some o =>
      have hmem : l ∈ holders h₀ h S o := mem_holders.mpr ⟨⟨hin, hno⟩, ho⟩
      obtain ⟨c, hc⟩ : ∃ c, h.count o = some (c + 1) := by
        obtain ⟨c, hc⟩ := Option.ne_none_iff_exists'.mp (hm.live l hin hno o ho)
        have hpos := Finset.card_pos.mpr ⟨l, hmem⟩
        rw [← hm.count o c hc] at hpos
        exact ⟨c - 1, by rw [hc, Nat.sub_add_cancel hpos]⟩
      have hdec := hm.dec hin hno ho hc hl
      simp only [hc]
      split
      · rename_i hzero
        subst hzero
        rw [if_pos rfl] at hdec
        have hnone : holders h₀ (h.setCount o 0) (insert l S) o = ∅ := by
          apply Finset.card_eq_zero.mp
          exact (hdec.count o 0 (count_setCount_self h 0)).symm
        have hF := hdec.falls hd hnone
        have hoZ : o ∉ Z := by
          intro hoZ
          rw [(hm.zero o).mpr hoZ] at hc
          cases hc
        have hlo : l.owner ≠ some o := by
          intro howner
          rcases hl with rfl | ⟨p, hp, howner', -⟩
          · exact hown o howner hF
          · rw [howner] at howner'
            exact hoZ (Option.some.inj howner' ▸ hp)
        have hfields : ∀ i, i < h₀.members o → Loc.field o i ∉ insert l S := by
          intro i hi hfield
          rcases Finset.mem_insert.mp hfield with heq | hS
          · exact hlo (heq ▸ rfl)
          · have hin' : Loc.field o i ∈ h.ptrs := by
              rw [hm.fields, hc]
              exact ⟨by simp, hi⟩
            rcases hm.stale _ hS hin' with heq | ⟨p, hp, howner⟩
            · exact hown o (heq ▸ rfl) hF
            · exact hoZ ((Option.some.inj howner) ▸ hp)
        have hcard : ((h.setCount o 0).ptrs \ insert l S).card < fuel := by
          have hmem' : l ∈ h.ptrs \ S := Finset.mem_sdiff.mpr ⟨hin, hno⟩
          have hlt := Finset.card_erase_lt_of_mem hmem'
          rw [Finset.sdiff_insert]
          exact Nat.lt_of_lt_of_le hlt (Nat.le_of_lt_succ hfuel)
        obtain ⟨h₂, hfold, hm₂, hsub₂⟩ := foldlM_members ih (Finset.mem_insert_self o Z) hF
          (List.range (h₀.members o)).reverse (List.nodup_reverse.mpr List.nodup_range)
          (h.setCount o 0) (insert l S) hdec
          (fun i hi => by
            have hlt : i < h₀.members o := by simpa using hi
            exact ⟨hlt, hfields i hlt⟩) hcard
        have hl₂ : l ∈ h₂.ptrs := by
          rcases hl with rfl | ⟨p, hp, howner, -⟩
          · by_contra hout
            obtain ⟨p, howner, hfalls⟩ := hm₂.kept l (hm.sub hin) hout
            exact hown p howner hfalls
          · cases l with
            | root r => cases howner
            | field q i =>
              obtain rfl : q = p := Option.some.inj howner
              rw [hm₂.fields, (hm₂.zero q).mpr (Finset.mem_insert_of_mem hp)]
              exact ⟨by simp, ((hm.fields q i).mp hin).2⟩
        have hm₃ := hm₂.deallocate hoZ hF (Finset.subset_union_left)
          (fun l' hl' => by
            rcases Finset.mem_union.mp hl' with hS | himage
            · exact Or.inl hS
            · obtain ⟨i, -, rfl⟩ := Finset.mem_image.mp himage
              exact Or.inr rfl)
          (fun i hi => Finset.mem_union_right _
            (Finset.mem_image.mpr ⟨i, by simpa using hi, rfl⟩))
        have hl₃ : l ∈ (h₂.deallocate o).ptrs := (mem_ptrs_deallocate h₂).mpr ⟨hl₂, hlo⟩
        have hmembers : (h.setCount o 0).members o = h₀.members o := congrFun hm.members o
        refine ⟨_, ?_, hm₃.update (Finset.mem_insert_self l S) none, ?_⟩
        · rw [hmembers, hfold]
          exact if_pos hl₃
        · exact fun l' hl' => hsub₂ ((mem_ptrs_deallocate h₂).mp hl').1
      · rename_i hpos
        rw [if_neg hpos] at hdec
        exact ⟨_, rfl, hdec, Finset.Subset.refl _⟩

end Heap

end Sfslite.Safeptr
