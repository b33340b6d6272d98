import Sfslite.Safeptr.Ptr

/-!
Runs of a program over the pointers: the counts, the objects that are there, and what an
assignment leaves.
-/

namespace Sfslite.Safeptr

namespace Heap

/-- Object `p` is destroyed when `dst` lets go of its object. -/
def Released (h : Heap) (dst : Loc) (p : ℕ) : Prop :=
  ∃ d, h.redir dst = some d ∧ h.count d = some 1 ∧ Falls h d p

variable {h h₀ : Heap} {F F' : ℕ → Prop} {dst l : Loc} {S : Finset Loc} {Z : Finset ℕ}
  {v : Option ℕ}

theorem Mid.mono (hm : Mid h₀ F dst h S Z) (hF : ∀ p, F p → F' p) : Mid h₀ F' dst h S Z where
  sub := hm.sub
  redir := hm.redir
  members := hm.members
  count := hm.count
  live := hm.live
  fields := hm.fields
  zero := hm.zero
  stale := hm.stale
  kept l hl hno := by
    obtain ⟨p, howner, hp⟩ := hm.kept l hl hno
    exact ⟨p, howner, hF p hp⟩
  stale_falls l hl := by
    rcases hm.stale_falls l hl with heq | ⟨p, howner, hp⟩
    · exact Or.inl heq
    · exact Or.inr ⟨p, howner, hF p hp⟩

theorem Inv.rcDec (hinv : Inv h) (hdst : dst ∈ h.ptrs)
    (hown : ∀ p, Released h dst p → dst.owner ≠ some p) :
    ∃ h', h.rcDec (h.ptrs.card + 1) dst = some h' ∧
      Mid h (Released h dst) dst h' (insert dst ∅) ∅ ∧
      ((∀ o, h.redir dst = some o → h.count o ≠ some 1) → h'.redir = h.redir ∧
        ∀ o, h.redir dst = some o → h'.count o ≠ none) := by
  have hread : h.read dst = some (h.redir dst) := if_pos hdst
  cases hd : h.redir dst with
  | none =>
    refine ⟨h, ?_, (hinv.mid _ dst).insert_null hd (Or.inl rfl), fun _ => ⟨rfl, ?_⟩⟩
    · rw [Heap.rcDec, hread, hd]
      rfl
    · intro o ho
      cases ho
  | some d =>
    have hmem : dst ∈ h.refs d := mem_refs.mpr ⟨hdst, hd⟩
    obtain ⟨c, hc⟩ := Option.ne_none_iff_exists'.mp (hinv.live d dst hmem)
    have hpos := (hinv.count d c hc).2
    obtain ⟨c, rfl⟩ : ∃ e, c = e + 1 := ⟨c - 1, (Nat.sub_add_cancel hpos).symm⟩
    rcases Nat.eq_zero_or_pos c with rfl | hshared
    · have hrel : ∀ p, Falls h d p → Released h dst p := fun p hp => ⟨d, hd, hc, hp⟩
      obtain ⟨h', hdec, hm, -⟩ := drops hd (fun p howner hp => hown p (hrel p hp) howner)
        (h.ptrs.card + 1) h ∅ ∅ dst (hinv.mid _ dst) hdst (Finset.notMem_empty dst)
        (Or.inl rfl) (by rw [Finset.sdiff_empty]; exact Nat.lt_succ_self _)
      exact ⟨h', hdec, hm.mono hrel, fun hno => absurd hc (hno d rfl)⟩
    · have hm := (hinv.mid (Released h dst) dst).dec hdst (Finset.notMem_empty dst) hd hc
        (Or.inl rfl)
      rw [if_neg (Nat.ne_of_gt hshared)] at hm
      refine ⟨h.setCount d c, ?_, hm, fun _ => ⟨rfl, ?_⟩⟩
      · rw [Heap.rcDec, hread, hd]
        simp only [Option.bind_eq_bind, Option.bind_some, hc]
        rw [if_neg (Nat.ne_of_gt hshared)]
      · intro o ho
        obtain rfl := Option.some.inj ho
        simp

/-- All is well but that nobody has counted the pointer `l`. -/
structure Loose (h : Heap) (l : Loc) : Prop where
  count : ∀ o c, h.count o = some c →
    c = ((h.refs o).erase l).card ∧ (0 < c ∨ h.redir l = some o)
  live : ∀ o, ∀ l' ∈ h.refs o, l' ≠ l → h.count o ≠ none
  fields : ∀ o i, Loc.field o i ∈ h.ptrs ↔ h.count o ≠ none ∧ i < h.members o

theorem Loose.rcInc (hloose : Loose h l) (hin : l ∈ h.ptrs)
    (hlive : ∀ o, h.redir l = some o → h.count o ≠ none)
    (hroom : ∀ o c, h.redir l = some o → h.count o = some c → c + 1 < 2 ^ 31) :
    ∃ h', h.rcInc (h.redir l) = some h' ∧ Inv h' ∧ h'.ptrs = h.ptrs ∧ h'.redir = h.redir ∧
      ∀ o, h.redir l = some o → h'.count o = (h.count o).map (· + 1) := by
  cases hv : h.redir l with
  | none =>
    refine ⟨h, rfl, ?_, rfl, rfl, fun o ho => by cases ho⟩
    have hnot : ∀ o, l ∉ h.refs o := by
      intro o hl
      have ho := (mem_refs.mp hl).2
      rw [hv] at ho
      cases ho
    refine ⟨fun o c hc => ?_, fun o l' hl' => ?_, hloose.fields⟩
    · obtain ⟨hcard, hor⟩ := hloose.count o c hc
      rw [Finset.erase_eq_of_notMem (hnot o)] at hcard
      rw [hv] at hor
      exact ⟨hcard, hor.resolve_right (by simp)⟩
    · exact hloose.live o l' hl' fun heq => hnot o (heq ▸ hl')
  | some o =>
    obtain ⟨c, hc⟩ := Option.ne_none_iff_exists'.mp (hlive o hv)
    have hmem : l ∈ h.refs o := mem_refs.mpr ⟨hin, hv⟩
    refine ⟨h.setCount o (c + 1), ?_, ⟨?_, ?_, ?_⟩, rfl, rfl, ?_⟩
    · rw [Heap.rcInc]
      simp only [hc, if_pos (hroom o c hv hc), Option.bind_eq_bind, Option.bind_some]
    · intro p c' hc'
      have hrefs : (h.setCount o (c + 1)).refs p = h.refs p := rfl
      rw [hrefs]
      rcases eq_or_ne p o with rfl | hne
      · obtain ⟨hcard, -⟩ := hloose.count p c hc
        have hpos := Finset.card_pos.mpr ⟨l, hmem⟩
        rw [Finset.card_erase_of_mem hmem] at hcard
        rw [count_setCount_self, Option.some.injEq] at hc'
        omega
      · rw [count_setCount_of_ne h _ hne] at hc'
        have hnot : l ∉ h.refs p := by
          intro hl
          have ho := (mem_refs.mp hl).2
          rw [hv] at ho
          exact hne (Option.some.inj ho).symm
        obtain ⟨hcard, hor⟩ := hloose.count p c' hc'
        rw [Finset.erase_eq_of_notMem hnot] at hcard
        refine ⟨hcard, hor.resolve_right fun heq => ?_⟩
        rw [hv] at heq
        exact hne (Option.some.inj heq).symm
    · intro p l' hl'
      rcases eq_or_ne p o with rfl | hne
      · simp
      · rw [count_setCount_of_ne h _ hne]
        refine hloose.live p l' hl' fun heq => ?_
        have ho : h.redir l' = some p := (mem_refs.mp hl').2
        rw [heq, hv] at ho
        exact hne (Option.some.inj ho).symm
    · intro p i
      have hfield : Loc.field p i ∈ (h.setCount o (c + 1)).ptrs ↔ _ := hloose.fields p i
      rw [hfield]
      rcases eq_or_ne p o with rfl | hne
      · simp [hc, setCount]
      · rw [count_setCount_of_ne h _ hne]
        rfl
    · intro p hp
      obtain rfl := Option.some.inj hp
      rw [count_setCount_self, hc]
      rfl

theorem Mid.refs_erase (hm : Mid h₀ F dst h (insert dst ∅) Z) (v : Option ℕ) (o : ℕ) :
    (({ h with redir := Function.update h.redir dst v } : Heap).refs o).erase dst =
      holders h₀ h (insert dst ∅) o := by
  ext l
  simp only [mem_refs, Finset.mem_erase, mem_holders, Finset.mem_insert, Finset.notMem_empty,
    or_false]
  constructor
  · rintro ⟨hne, hin, hr⟩
    rw [Function.update_of_ne hne] at hr
    exact ⟨⟨hin, hne⟩, (hm.redir l hin (by simpa using hne)) ▸ hr⟩
  · rintro ⟨⟨hin, hne⟩, hr⟩
    refine ⟨hne, hin, ?_⟩
    rw [Function.update_of_ne hne, hm.redir l hin (by simpa using hne), hr]

theorem Mid.loose (hm : Mid h₀ F dst h (insert dst ∅) ∅) (v : Option ℕ) :
    Loose { h with redir := Function.update h.redir dst v } dst where
  count o c hc := by
    rw [hm.refs_erase v o]
    refine ⟨hm.count o c hc, Or.inl (Nat.pos_of_ne_zero ?_)⟩
    rintro rfl
    exact absurd ((hm.zero o).mp hc) (Finset.notMem_empty o)
  live o l hl hne := by
    have hmem : l ∈ holders h₀ h (insert dst ∅) o := by
      rw [← hm.refs_erase v o]
      exact Finset.mem_erase.mpr ⟨hne, hl⟩
    obtain ⟨⟨hin, hno⟩, hr⟩ := mem_holders.mp hmem
    exact hm.live l hin hno o hr
  fields o i := by
    have hfield : Loc.field o i ∈ h.ptrs ↔ _ := hm.fields o i
    rw [← hm.members] at hfield
    exact hfield

theorem Mid.count_released (hinv : Inv h₀) (hdst : dst ∈ h₀.ptrs)
    (hm : Mid h₀ F dst h (insert dst ∅) ∅) {p : ℕ} (hp : Released h₀ dst p) : h.count p = none := by
  obtain ⟨d, hd, hone, hfalls⟩ := hp
  have hnone : ∀ o, (∀ l ∈ holders h₀ h (insert dst ∅) o, False) → h.count o = none := by
    intro o hempty
    by_contra hne
    obtain ⟨c, hc⟩ := Option.ne_none_iff_exists'.mp hne
    have hcard := hm.count o c hc
    rw [Finset.eq_empty_of_forall_notMem hempty, Finset.card_empty] at hcard
    subst hcard
    exact absurd ((hm.zero o).mp hc) (Finset.notMem_empty o)
  induction hfalls with
  | last =>
    apply hnone
    intro l hl
    obtain ⟨⟨hin, hno⟩, hr⟩ := mem_holders.mp hl
    have hcard : (h₀.refs d).card = 1 := (hinv.count d 1 hone).1.symm
    obtain ⟨l', hl'⟩ := Finset.card_eq_one.mp hcard
    have hmem : l ∈ h₀.refs d := mem_refs.mpr ⟨hm.sub hin, hr⟩
    have hne : l ≠ dst := by simpa using hno
    have hmem' : dst ∈ h₀.refs d := mem_refs.mpr ⟨hdst, hd⟩
    rw [hl', Finset.mem_singleton] at hmem hmem'
    exact hne (hmem.trans hmem'.symm)
  | member w hw _ ih =>
    apply hnone
    intro l hl
    obtain ⟨⟨hin, -⟩, hr⟩ := mem_holders.mp hl
    have hmem := mem_refs.mpr ⟨hm.sub hin, hr⟩
    have howner := hw l hmem
    cases l with
    | root r => cases howner
    | field q i =>
      have hgone := ih _ hmem
      rw [← Option.some.inj howner] at hgone
      exact ((hm.fields q i).mp hin).1 hgone

theorem Mid.mem_ptrs (hm : Mid h₀ F dst h S Z) (hl : l ∈ h₀.ptrs)
    (hown : ∀ p, F p → l.owner ≠ some p) : l ∈ h.ptrs := by
  by_contra hout
  obtain ⟨p, howner, hp⟩ := hm.kept l hl hout
  exact hown p hp howner

theorem Inv.newRoot (hinv : Inv h) {r : ℕ} (hr : .root r ∉ h.ptrs) (v : Option ℕ) :
    Loose (h.newRoot r v) (.root r) := by
  have hrefs : ∀ o, ((h.newRoot r v).refs o).erase (.root r) = h.refs o := by
    intro o
    ext l
    simp only [Finset.mem_erase, mem_refs]
    simp only [Heap.newRoot, Finset.mem_insert]
    constructor
    · rintro ⟨hne, hin, hv⟩
      rw [Function.update_of_ne hne] at hv
      exact ⟨hin.resolve_left hne, hv⟩
    · rintro ⟨hin, hv⟩
      have hne : l ≠ .root r := fun heq => hr (heq ▸ hin)
      rw [Function.update_of_ne hne]
      exact ⟨hne, Or.inr hin, hv⟩
  refine ⟨fun o c hc => ?_, fun o l hl hne => ?_, fun o i => ?_⟩
  · rw [hrefs]
    obtain ⟨hcard, hpos⟩ := hinv.count o c hc
    exact ⟨hcard, Or.inl hpos⟩
  · apply hinv.live o l
    rw [← hrefs]
    exact Finset.mem_erase.mpr ⟨hne, hl⟩
  · have hfield : Loc.field o i ∈ (h.newRoot r v).ptrs ↔ Loc.field o i ∈ h.ptrs := by
      simp [Heap.newRoot]
    rw [hfield]
    exact hinv.fields o i

theorem Inv.newObj (hinv : Inv h) {r o k : ℕ} (hr : .root r ∉ h.ptrs) (ho : h.count o = none) :
    Loose ((h.newObj o k).newRoot r (some o)) (.root r) := by
  have hnofield : ∀ i, Loc.field o i ∉ h.ptrs := by
    intro i hin
    exact ((hinv.fields o i).mp hin).1 ho
  have hold : ∀ l ∈ h.ptrs, l.owner ≠ some o := by
    intro l hl howner
    cases l with
    | root q => cases howner
    | field q i =>
      obtain rfl : q = o := Option.some.inj howner
      exact hnofield i hl
  have hnoref : h.refs o = ∅ := by
    apply Finset.eq_empty_of_forall_notMem
    intro l hl
    exact hinv.live o l hl ho
  have hrefs : ∀ p, (((h.newObj o k).newRoot r (some o)).refs p).erase (.root r) = h.refs p := by
    intro p
    ext l
    simp only [Finset.mem_erase, mem_refs]
    simp only [Heap.newRoot, Heap.newObj, Finset.mem_insert, Finset.mem_union, Finset.mem_image,
      Finset.mem_range]
    constructor
    · rintro ⟨hne, hin, hv⟩
      rw [Function.update_of_ne hne] at hv
      split at hv
      · cases hv
      · rename_i howner
        rcases hin.resolve_left hne with hin | ⟨i, -, rfl⟩
        · exact ⟨hin, hv⟩
        · exact absurd rfl howner
    · rintro ⟨hin, hv⟩
      have hne : l ≠ .root r := fun heq => hr (heq ▸ hin)
      rw [Function.update_of_ne hne, if_neg (hold l hin)]
      exact ⟨hne, Or.inr (Or.inl hin), hv⟩
  refine ⟨fun p c hc => ?_, fun p l hl hne => ?_, fun p i => ?_⟩
  · rw [hrefs]
    rcases eq_or_ne p o with rfl | hne
    · have hzero : c = 0 := by
        simp only [Heap.newRoot, Heap.newObj, Function.update_self, Option.some.injEq] at hc
        exact hc.symm
      refine ⟨by rw [hzero, hnoref]; rfl, Or.inr ?_⟩
      simp [Heap.newRoot]
    · simp only [Heap.newRoot, Heap.newObj, Function.update_of_ne hne] at hc
      obtain ⟨hcard, hpos⟩ := hinv.count p c hc
      exact ⟨hcard, Or.inl hpos⟩
  · have hmem : l ∈ h.refs p := by
      rw [← hrefs]
      exact Finset.mem_erase.mpr ⟨hne, hl⟩
    have hcount := hinv.live p l hmem
    have hpo : p ≠ o := fun heq => hcount (heq ▸ ho)
    simpa [Heap.newRoot, Heap.newObj, Function.update_of_ne hpo] using hcount
  · rcases eq_or_ne p o with rfl | hne
    · simp [Heap.newRoot, Heap.newObj, hnofield]
    · have hmem : Loc.field p i ∈ ((h.newObj o k).newRoot r (some o)).ptrs ↔
          Loc.field p i ∈ h.ptrs := by
        simp [Heap.newRoot, Heap.newObj, hne.symm]
      rw [hmem, hinv.fields p i]
      simp [Heap.newRoot, Heap.newObj, hne]

end Heap

open Heap

/-- What a program may do: it names new variables and pointers that are there, and an allocation
gets memory that is free. -/
def Valid (h : Heap) : Op → Prop
  | .make r => .root r ∉ h.ptrs
  | .alloc r o _ => .root r ∉ h.ptrs ∧ h.count o = none
  | .copy r src => .root r ∉ h.ptrs ∧ src ∈ h.ptrs
  | .assign dst src => dst ∈ h.ptrs ∧ src ∈ h.ptrs
  | .null dst => dst ∈ h.ptrs
  | .destroy r => .root r ∈ h.ptrs

/-- There are fewer than `2 ^ 31 - 1` pointers to `o` besides `dst` and the members of the objects
that are destroyed when `dst` lets go of its object. -/
def Room (h : Heap) (dst : Loc) (o : ℕ) : Prop :=
  ∀ T ⊆ (h.refs o).erase dst, (∀ l ∈ T, ∀ p, Released h dst p → l.owner ≠ some p) →
    T.card + 1 < 2 ^ 31

/-- The release of the old object destroys neither the target nor the source of an assignment,
and the last pointer to an object is not assigned to itself. An object that gets a pointer has
fewer than `2 ^ 31 - 1` others. -/
def Safe (h : Heap) : Op → Prop
  | .copy _ src => ∀ o, h.redir src = some o → (h.refs o).card + 1 < 2 ^ 31
  | .assign dst src =>
    (dst = src → ∀ o, h.redir dst = some o → h.count o ≠ some 1) ∧
      (∀ p, Released h dst p → dst.owner ≠ some p ∧ src.owner ≠ some p) ∧
      ∀ o, h.redir src = some o → Room h dst o
  | .null dst => ∀ p, Released h dst p → dst.owner ≠ some p
  | _ => True

def Op.target : Op → Loc
  | .make r | .alloc r _ _ | .copy r _ | .destroy r => .root r
  | .assign dst _ | .null dst => dst

/-- What the target refers to behind the operation; `none` where it is destroyed. -/
def Op.value (h : Heap) : Op → Option (Option ℕ)
  | .make _ | .null _ => some none
  | .alloc _ o _ => some (some o)
  | .copy _ src | .assign _ src => some (h.redir src)
  | .destroy _ => none

structure Effect (h : Heap) (op : Op) (h' : Heap) : Prop where
  target : h'.read op.target = op.value h
  other : ∀ l ∈ h.ptrs, l ∈ h'.ptrs → l ≠ op.target → h'.redir l = h.redir l

variable {h h₀ h' : Heap} {F : ℕ → Prop} {dst : Loc} {v : Option ℕ}

theorem step_newRoot (hinv : Inv h) {r : ℕ} (hr : .root r ∉ h.ptrs)
    (hv : ∀ o, v = some o → h.count o ≠ none)
    (hroom : ∀ o, v = some o → (h.refs o).card + 1 < 2 ^ 31) :
    ∃ h', (h.newRoot r v).rcInc v = some h' ∧ Inv h' ∧ h'.read (.root r) = some v ∧
      ∀ l ∈ h.ptrs, h'.redir l = h.redir l := by
  have hself : (h.newRoot r v).redir (.root r) = v := Function.update_self ..
  obtain ⟨h', hinc, hinv', hptrs, hredir, -⟩ := (hinv.newRoot hr v).rcInc
    (Finset.mem_insert_self _ _) (fun o ho => hv o (hself.symm.trans ho))
    (fun o c ho hc => by
      rw [(hinv.count o c hc).1]
      exact hroom o (hself.symm.trans ho))
  rw [hself] at hinc
  refine ⟨h', hinc, hinv', ?_, fun l hl => ?_⟩
  · rw [Heap.read, if_pos (hptrs ▸ Finset.mem_insert_self _ _), hredir, hself]
  · have hne : l ≠ .root r := by
      rintro rfl
      exact hr hl
    rw [hredir]
    exact Function.update_of_ne hne ..

theorem step_newObj (hinv : Inv h) {r o : ℕ} (k : ℕ) (hr : .root r ∉ h.ptrs)
    (ho : h.count o = none) :
    ∃ h', ((h.newObj o k).newRoot r (some o)).rcInc (some o) = some h' ∧ Inv h' ∧
      h'.read (.root r) = some (some o) ∧
      ∀ l ∈ h.ptrs, l ≠ .root r → h'.redir l = h.redir l := by
  have hself : ((h.newObj o k).newRoot r (some o)).redir (.root r) = some o :=
    Function.update_self ..
  obtain ⟨h', hinc, hinv', hptrs, hredir, -⟩ := (hinv.newObj hr ho).rcInc
    (Finset.mem_insert_self _ _) (fun p hp => by
      rw [hself] at hp
      obtain rfl := Option.some.inj hp
      simp [Heap.newRoot, Heap.newObj])
    (fun p c hp hc => by
      rw [hself] at hp
      obtain rfl := Option.some.inj hp
      have hzero : c = 0 := by
        simpa [Heap.newRoot, Heap.newObj] using hc.symm
      rw [hzero]
      decide)
  rw [hself] at hinc
  refine ⟨h', hinc, hinv', ?_, fun l hl hne => ?_⟩
  · rw [Heap.read, if_pos (hptrs ▸ Finset.mem_insert_self _ _), hredir, hself]
  · have howner : l.owner ≠ some o := by
      intro howner
      cases l with
      | root q => cases howner
      | field q i =>
        obtain rfl := Option.some.inj howner
        exact ((hinv.fields q i).mp hl).1 ho
    rw [hredir]
    exact (Function.update_of_ne hne ..).trans (if_neg howner)

/-- `dst` has let go of its object and gets the value `v`. -/
theorem step_write (hm : Mid h₀ F dst h (insert dst ∅) ∅) (hdst : dst ∈ h.ptrs)
    (hv : ∀ o, v = some o → h.count o ≠ none)
    (hroom : ∀ o, v = some o → (holders h₀ h (insert dst ∅) o).card + 1 < 2 ^ 31) :
    ∃ h', (h.write dst v).bind (rcInc v) = some h' ∧ Inv h' ∧ h'.read dst = some v ∧
      ∀ l ∈ h'.ptrs, l ≠ dst → h'.redir l = h₀.redir l := by
  have hset : ({ h with redir := Function.update h.redir dst v } : Heap).redir dst = v :=
    Function.update_self ..
  obtain ⟨h', hinc, hinv', hptrs, hredir, -⟩ := (hm.loose v).rcInc hdst
    (fun o ho => hv o (hset.symm.trans ho)) (fun o c ho hc => by
      rw [hm.count o c hc]
      exact hroom o (hset.symm.trans ho))
  rw [hset] at hinc
  refine ⟨h', ?_, hinv', ?_, fun l hl hne => ?_⟩
  · rw [Heap.write, if_pos hdst]
    exact hinc
  · rw [Heap.read, if_pos (hptrs ▸ hdst), hredir, hset]
  · rw [hredir]
    exact (Function.update_of_ne hne ..).trans (hm.redir l (hptrs ▸ hl) (by simpa using hne))

theorem Room.holders {o : ℕ} (hroom : Room h₀ dst o) (hinv : Inv h₀) (hdst : dst ∈ h₀.ptrs)
    (hm : Mid h₀ F dst h (insert dst ∅) ∅) :
    (holders h₀ h (insert dst ∅) o).card + 1 < 2 ^ 31 := by
  refine hroom _ ?_ ?_
  · intro l hl
    obtain ⟨⟨hin, hno⟩, hr⟩ := mem_holders.mp hl
    exact Finset.mem_erase.mpr ⟨by simpa using hno, mem_refs.mpr ⟨hm.sub hin, hr⟩⟩
  · intro l hl p hp howner
    have hin := (mem_holders.mp hl).1.1
    cases l with
    | root r => cases howner
    | field q i =>
      obtain rfl := Option.some.inj howner
      exact ((hm.fields q i).mp hin).1 (hm.count_released hinv hdst hp)

theorem step_erase {r : ℕ} (hm : Mid h₀ F (.root r) h (insert (.root r) ∅) ∅) :
    Inv { h with ptrs := h.ptrs.erase (.root r) } := by
  have hrefs : ∀ o, ({ h with ptrs := h.ptrs.erase (.root r) } : Heap).refs o =
      holders h₀ h (insert (.root r) ∅) o := by
    intro o
    ext l
    simp only [mem_refs, mem_holders, Finset.mem_erase, Finset.mem_insert,
      Finset.notMem_empty, or_false]
    constructor
    · rintro ⟨⟨hne, hin⟩, hr⟩
      exact ⟨⟨hin, hne⟩, (hm.redir l hin (by simpa using hne)) ▸ hr⟩
    · rintro ⟨⟨hin, hne⟩, hr⟩
      exact ⟨⟨hne, hin⟩, (hm.redir l hin (by simpa using hne)).trans hr⟩
  refine ⟨fun o c hc => ?_, fun o l hl => ?_, fun o i => ?_⟩
  · rw [hrefs]
    refine ⟨hm.count o c hc, Nat.pos_of_ne_zero ?_⟩
    rintro rfl
    exact absurd ((hm.zero o).mp hc) (Finset.notMem_empty o)
  · rw [hrefs] at hl
    obtain ⟨⟨hin, hno⟩, hr⟩ := mem_holders.mp hl
    exact hm.live l hin hno o hr
  · have hfield : Loc.field o i ∈ h.ptrs ↔ _ := hm.fields o i
    rw [← hm.members] at hfield
    rw [Finset.mem_erase, hfield]
    simp

theorem step_spec (hinv : Inv h) (op : Op) (hvalid : Valid h op) (hsafe : Safe h op) :
    ∃ h', step h op = some h' ∧ Inv h' ∧ Effect h op h' := by
  cases op with
  | make r =>
    obtain ⟨h', hinc, hinv', hread, hother⟩ := step_newRoot (v := none) hinv hvalid
      (fun o ho => by cases ho) (fun o ho => by cases ho)
    exact ⟨h', hinc, hinv', hread, fun l hl _ _ => hother l hl⟩
  | alloc r o k =>
    obtain ⟨h', hinc, hinv', hread, hother⟩ := step_newObj hinv k hvalid.1 hvalid.2
    exact ⟨h', hinc, hinv', hread, fun l hl _ hne => hother l hl hne⟩
  | copy r src =>
    obtain ⟨hr, hsrc⟩ := hvalid
    have hread : h.read src = some (h.redir src) := if_pos hsrc
    obtain ⟨h', hinc, hinv', hread', hother⟩ := step_newRoot hinv hr
      (fun o ho => hinv.live o src (mem_refs.mpr ⟨hsrc, ho⟩)) hsafe
    refine ⟨h', ?_, hinv', hread', fun l hl _ _ => hother l hl⟩
    rw [step, hread]
    exact hinc
  | assign dst src =>
    obtain ⟨hdst, hsrc⟩ := hvalid
    obtain ⟨hself, hown, hroom⟩ := hsafe
    obtain ⟨h₁, hdec, hm, hshared⟩ := hinv.rcDec hdst fun p hp => (hown p hp).1
    have hsrc₁ := hm.mem_ptrs hsrc fun p hp => (hown p hp).2
    have hread : h₁.read src = some (h₁.redir src) := if_pos hsrc₁
    -- the release has left the source its value and the object
    have hvalue : h₁.redir src = h.redir src ∧
        ∀ o, h.redir src = some o → h₁.count o ≠ none := by
      rcases eq_or_ne dst src with rfl | hne
      · obtain ⟨hredir, hcount⟩ := hshared (hself rfl)
        exact ⟨congrFun hredir dst, hcount⟩
      · have hno : src ∉ insert dst (∅ : Finset Loc) := by simpa using hne.symm
        exact ⟨hm.redir src hsrc₁ hno, hm.live src hsrc₁ hno⟩
    obtain ⟨h', hinc, hinv', hread', hother⟩ := step_write hm
      (hm.mem_ptrs hdst fun p hp => (hown p hp).1) hvalue.2
      fun o ho => (hroom o ho).holders hinv hdst hm
    refine ⟨h', ?_, hinv', hread', fun l _ hl' hne => hother l hl' hne⟩
    rw [step, hdec]
    simp only [Option.bind_eq_bind, Option.bind_some, hread, hvalue.1]
    exact hinc
  | null dst =>
    obtain ⟨h₁, hdec, hm, -⟩ := hinv.rcDec hvalid hsafe
    have hdst₁ := hm.mem_ptrs hvalid hsafe
    obtain ⟨h', hinc, hinv', hread, hother⟩ := step_write (v := none) hm hdst₁
      (fun o ho => by cases ho) (fun o ho => by cases ho)
    refine ⟨h', ?_, hinv', hread, fun l _ hl' hne => hother l hl' hne⟩
    rw [Heap.write, if_pos hdst₁] at hinc
    rw [step, hdec]
    simp only [Option.bind_eq_bind, Option.bind_some]
    rw [Heap.write, if_pos hdst₁]
    exact hinc
  | destroy r =>
    obtain ⟨h₁, hdec, hm, -⟩ := hinv.rcDec hvalid fun p _ howner => by cases howner
    refine ⟨{ h₁ with ptrs := h₁.ptrs.erase (.root r) }, ?_, step_erase hm, ?_, ?_⟩
    · rw [step, hdec]
      rfl
    · exact if_neg (Finset.notMem_erase _ _)
    · intro l _ hl' hne
      exact hm.redir l (Finset.mem_erase.mp hl').2 (by simpa [Op.target] using hne)

def emptyHeap : Heap := ⟨∅, fun _ => none, fun _ => none, fun _ => 0⟩

/-- The heaps of the runs whose operations all satisfy `P`. -/
inductive Reaches (P : Heap → Op → Prop) : Heap → Prop
  | empty : Reaches P emptyHeap
  | step {h h' : Heap} (op : Op) : Reaches P h → P h op → step h op = some h' → Reaches P h'

theorem inv_emptyHeap : Inv emptyHeap where
  count o c hc := by cases hc
  live o l hl := absurd (mem_refs.mp hl).1 (Finset.notMem_empty l)
  fields o i := by simp [emptyHeap]

theorem Reaches.inv (hreach : Reaches (fun h op => Valid h op ∧ Safe h op) h) : Inv h := by
  induction hreach with
  | empty => exact inv_emptyHeap
  | step op _ hop hstep ih =>
    obtain ⟨h', hstep', hinv', -⟩ := step_spec ih op hop.1 hop.2
    rw [hstep] at hstep'
    exact Option.some.inj hstep' ▸ hinv'

theorem baseEq_iff {l l' : Loc} (hl : l ∈ h.ptrs) (hl' : l' ∈ h.ptrs) :
    baseEq h l l' = some (decide (h.redir l = h.redir l')) ↔
      ∀ a b, h.redir l = some a → h.redir l' = some b → a = b := by
  have hread : h.read l = some (h.redir l) := if_pos hl
  have hread' : h.read l' = some (h.redir l') := if_pos hl'
  unfold baseEq
  rw [hread, hread']
  simp only [Option.bind_eq_bind, Option.bind_some]
  cases h.redir l <;> cases h.redir l' <;> simp

/-- In runs without an operation that is not safe: the counts, the objects that are there, the
operations, and the comparisons. -/
theorem ptr_run (hreach : Reaches (fun h op => Valid h op ∧ Safe h op) h) :
    (∀ o c, h.count o = some c → c = (h.refs o).card) ∧
      (∀ o, h.count o ≠ none ↔ (h.refs o).Nonempty) ∧
      (∀ op, Valid h op → Safe h op → ∃ h', step h op = some h' ∧ Effect h op h') ∧
      ∀ l ∈ h.ptrs, ∀ l' ∈ h.ptrs,
        (baseEq h l l' = some (decide (h.redir l = h.redir l')) ↔
          ∀ a b, h.redir l = some a → h.redir l' = some b → a = b) := by
  have hinv := hreach.inv
  refine ⟨fun o c hc => (hinv.count o c hc).1, fun o => ⟨fun hne => ?_, ?_⟩,
    fun op hvalid hsafe => ?_, fun l hl l' hl' => baseEq_iff hl hl'⟩
  · obtain ⟨c, hc⟩ := Option.ne_none_iff_exists'.mp hne
    obtain ⟨hcard, hpos⟩ := hinv.count o c hc
    exact Finset.card_pos.mp (hcard ▸ hpos)
  · rintro ⟨l, hl⟩
    exact hinv.live o l hl
  · obtain ⟨h', hstep, -, heffect⟩ := step_spec hinv op hvalid hsafe
    exact ⟨h', hstep, heffect⟩

def oneObj : Heap := ((emptyHeap.newObj 0 0).newRoot 0 (some 0)).setCount 0 1

def twoObjs : Heap := ((oneObj.newObj 1 0).newRoot 1 (some 1)).setCount 1 1

theorem Room.of_card {o : ℕ} (hcard : h.ptrs.card + 1 < 2 ^ 31) : Room h dst o := by
  intro T hT _
  have hsub : T ⊆ h.ptrs :=
    hT.trans ((Finset.erase_subset _ _).trans (Finset.filter_subset _ _))
  exact Nat.lt_of_le_of_lt (Nat.add_le_add_right (Finset.card_le_card hsub) 1) hcard

/-- A copy of the pointer to object 0 is assigned the pointer to object 1, and with the other one
object 0 goes. -/
theorem ptr_run_goes :
    ∃ h, h.count 0 = none ∧ h.count 1 = some 2 ∧
      (∀ o c, h.count o = some c → c = (h.refs o).card) ∧
      (∀ o, h.count o ≠ none ↔ (h.refs o).Nonempty) ∧
      (∀ op, Valid h op → Safe h op → ∃ h', step h op = some h' ∧ Effect h op h') ∧
      ∀ l ∈ h.ptrs, ∀ l' ∈ h.ptrs,
        (baseEq h l l' = some (decide (h.redir l = h.redir l')) ↔
          ∀ a b, h.redir l = some a → h.redir l' = some b → a = b) := by
  have hone : Reaches (fun h op => Valid h op ∧ Safe h op) oneObj :=
    .step (.alloc 0 0 0) .empty ⟨⟨Finset.notMem_empty _, rfl⟩, trivial⟩ rfl
  have hroot : ∀ {h : Heap} {r : ℕ} p, Released h (.root r) p → (Loc.root r).owner ≠ some p := by
    rintro h r p - ⟨⟩
  have hcopy : ∀ o, oneObj.redir (.root 0) = some o → (oneObj.refs o).card + 1 < 2 ^ 31 :=
    fun o _ => Nat.lt_of_le_of_lt (Nat.add_le_add_right
      (Finset.card_le_card (Finset.filter_subset _ oneObj.ptrs)) 1) (by decide)
  have hcopied := Reaches.step (.copy 1 (.root 0)) hone ⟨⟨by decide, by decide⟩, hcopy⟩ rfl
  have hsecond := Reaches.step (.alloc 2 1 0) hcopied ⟨⟨by decide, rfl⟩, trivial⟩ rfl
  have hassigned := Reaches.step (.assign (.root 1) (.root 2)) hsecond
    ⟨⟨by decide, by decide⟩, fun heq => absurd heq (by decide),
      fun p hp => ⟨hroot p hp, by rintro ⟨⟩⟩, fun o _ => Room.of_card (by decide)⟩ rfl
  have hreleased := Reaches.step (.null (.root 0)) hassigned ⟨by rw [Valid]; decide, hroot⟩ rfl
  exact ⟨_, rfl, rfl, ptr_run hreleased⟩

/-- The last pointer assigned to itself becomes null, and pointers to two objects compare
equal. -/
theorem ptr_slips :
    (¬ ∀ h, Reaches Valid h → ∀ op, Valid h op → ∃ h', step h op = some h' ∧ Effect h op h') ∧
      ¬ ∀ h, Reaches Valid h → ∀ l ∈ h.ptrs, ∀ l' ∈ h.ptrs,
        baseEq h l l' = some (decide (h.redir l = h.redir l')) := by
  have hone : Reaches Valid oneObj :=
    .step (.alloc 0 0 0) .empty ⟨Finset.notMem_empty _, rfl⟩ rfl
  have hroot : Loc.root 0 ∈ oneObj.ptrs := by decide
  constructor
  · intro hall
    obtain ⟨h', hstep, heffect⟩ := hall oneObj hone (.assign (.root 0) (.root 0)) ⟨hroot, hroot⟩
    have hnull : (step oneObj (.assign (.root 0) (.root 0))).bind (·.read (.root 0)) =
        some none := by decide
    rw [hstep, Option.bind_some] at hnull
    have htarget := heffect.target
    rw [Op.target, hnull] at htarget
    cases htarget
  · intro hall
    have htwo : Reaches Valid twoObjs := .step (.alloc 1 1 0) hone ⟨by decide, rfl⟩ rfl
    have hcmp := hall twoObjs htwo (.root 0) (by decide) (.root 1) (by decide)
    exact absurd hcmp (by decide)

end Sfslite.Safeptr
