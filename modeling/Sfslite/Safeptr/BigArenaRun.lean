import Sfslite.Lib.Run
import Sfslite.Safeptr.BigArenaAlloc
import Sfslite.Safeptr.BigArenaCompact

/-!
Runs of a program over an arena: where its objects are, and that they keep their bytes.
-/

namespace Sfslite.Safeptr.Gc

open Lib

/-- An object as the program knows it. -/
structure Obj where
  size : ℕ
  byte : ℕ → UInt8

/-- The arena, and the objects of the program by their pointer slots. -/
structure State where
  arena : Arena
  objs : ℕ → Option Obj

/-- What the program does with an arena. -/
inductive Op where
  | aalloc (sz : ℕ)
  | deallocate (p : ℕ)
  | rcInc (p : ℕ)
  | rcDec (p : ℕ)
  | write (p i : ℕ) (b : UInt8)
  | compact (nl : ℕ)

/-- The byte `i` of the object of `p`. -/
def Arena.byte (a : Arena) (p i : ℕ) : UInt8 :=
  a.mem (Bigslot.dataAt a.gcp (Bigptr.memslot a.mem p) + i)

/-- An object has the bytes that were asked for, rounded up. They are what the program wrote last,
and before that what they were when `aalloc` was done. -/
def step (s : State) : Op → Option State
  | .aalloc sz => (s.arena.aalloc sz).map fun r =>
    match r.2 with
    | some p => ⟨r.1, Function.update s.objs p (some ⟨(sz + 7) / 8 * 8, r.1.byte p⟩)⟩
    | none => ⟨r.1, s.objs⟩
  | .deallocate p => (s.arena.deallocate p).map fun a => ⟨a, Function.update s.objs p none⟩
  | .rcInc p => (s.arena.rcInc p).map fun a => ⟨a, s.objs⟩
  | .rcDec p => (s.arena.rcDec p).map fun a => ⟨a, s.objs⟩
  | .write p i b => (s.arena.write p i b).map fun a =>
    ⟨a, Function.update s.objs p
      ((s.objs p).map fun o => { o with byte := Function.update o.byte i b })⟩
  | .compact nl => (s.arena.collectPtrslots.bind fun a => a.compactMemslots nl).map fun a =>
    ⟨a, s.objs⟩

/-- The program works with its own objects: it releases those without references, and writes within
their sizes. The list for a compaction is new memory. -/
def Allowed (s : State) : Op → Prop
  | .aalloc _ => True
  | .deallocate p => s.objs p ≠ none ∧ Bigptr.count s.arena.mem p = 0
  | .rcInc p => s.objs p ≠ none ∧ Bigptr.count s.arena.mem p + 1 < 2 ^ 31
  | .rcDec p => s.objs p ≠ none ∧ 0 < Bigptr.count s.arena.mem p
  | .write p i _ => ∃ o, s.objs p = some o ∧ i < o.size
  | .compact nl => Elsewhere s.arena nl

/-- No object is made whose size does not fit into a word together with the header. -/
def Meets (s : State) (op : Op) : Prop :=
  Allowed s op ∧ ∀ sz, op = .aalloc sz → s.arena.canFit sz = true →
    (sz + 7) / 8 * 8 + Bigslot.sizeof s.arena.gcp < 2 ^ 64

/-- The address behind the slot at `s`. -/
def Arena.slotEnd (a : Arena) (s : ℕ) : ℕ :=
  s + Bigslot.sz a.mem s + Bigslot.sizeof a.gcp

/-- The slots follow each other from `lo` to `hi`. -/
def Arena.Contiguous (a : Arena) : ℕ → List ℕ → ℕ → Prop
  | lo, [], hi => lo = hi
  | lo, s :: slots, hi => lo = s ∧ a.Contiguous (a.slotEnd s) slots hi

/-- The slots in the list are those of the objects, in address order, and the objects are in them.
-/
structure Sound (s : State) (slots : List ℕ) : Prop where
  listed : Tailq.IsQueue Bigslot.field s.arena.mem s.arena.memslots slots
  ordered : slots.Pairwise (fun t u => s.arena.slotEnd t ≤ u)
  inside : ∀ t ∈ slots, s.arena.base ≤ t ∧ s.arena.slotEnd t ≤ s.arena.base + s.arena.sz
  live : ∀ t, t ∈ slots ↔ ∃ p, s.objs p ≠ none ∧ Bigptr.memslot s.arena.mem p = t
  back : ∀ p, s.objs p ≠ none →
    Bigslot.ptrslot s.arena.mem (Bigptr.memslot s.arena.mem p) = p
  size : ∀ p o, s.objs p = some o →
    Bigslot.sz s.arena.mem (Bigptr.memslot s.arena.mem p) = o.size
  byte : ∀ p o, s.objs p = some o → ∀ i < o.size, s.arena.byte p i = o.byte i
  ptr_inside : ∀ p, s.objs p ≠ none →
    s.arena.base ≤ p ∧ p + Bigptr.sizeof ≤ s.arena.base + s.arena.sz
  ptr_apart : ∀ p q, s.objs p ≠ none → s.objs q ≠ none → p ≠ q →
    p + Bigptr.sizeof ≤ q ∨ q + Bigptr.sizeof ≤ p
  apart : ∀ t ∈ slots, ∀ p, s.objs p ≠ none → s.arena.slotEnd t ≤ p
  free : ∀ p ∈ s.arena.freePtrslots, s.objs p = none

/-- The objects are those in the slots. -/
structure Rep (objs : ℕ → Option Obj) (live : List Slot) : Prop where
  obj : ∀ r ∈ live, ∃ o, objs r.ptr = some o ∧ o.size = r.size ∧
    ∀ i < r.size, o.byte i = r.byte i
  absent : ∀ p, p ∉ live.map Slot.ptr → objs p = none

variable {s s' : State} {a b : Arena} {objs : ℕ → Option Obj} {live D R : List Slot}
  {r : Slot} {p i : ℕ} {o : Obj} {op : Op} {ops : List Op}

theorem Rep.mem (h : Rep objs live) (hp : objs p ≠ none) : ∃ r ∈ live, r.ptr = p := by
  by_contra hno
  apply hp
  apply h.absent
  intro hmem
  exact hno (List.mem_map.mp hmem)

theorem Inv.slotEnd_eq (h : Inv a live) (hr : r ∈ live) : a.slotEnd r.addr = r.stop a.gcp := by
  rw [Arena.slotEnd, (h.slot r hr).sz]
  rfl

theorem Inv.byte_eq (h : Inv a live) (hr : r ∈ live) (hi : i < r.size) :
    a.byte r.ptr i = r.byte i := by
  rw [Arena.byte, (h.ptr r hr).2.1]
  exact (h.slot r hr).byte i hi

theorem Inv.sound (h : Inv s.arena live) (hrep : Rep s.objs live) :
    Sound s (live.map Slot.addr) where
  listed := h.queue
  ordered := by
    rw [List.pairwise_map]
    refine h.placed.pairwise.imp_of_mem ?_
    intro r t hr ht hle
    rw [h.slotEnd_eq hr]
    exact hle
  inside t ht := by
    obtain ⟨r, hr, rfl⟩ := List.mem_map.mp ht
    have hin := h.stop_le hr
    have hroom := h.room
    have hgrid := h.grid
    have htop := h.top_eq
    rw [h.slotEnd_eq hr]
    omega
  live t := by
    constructor
    · intro ht
      obtain ⟨r, hr, rfl⟩ := List.mem_map.mp ht
      obtain ⟨o, ho, -⟩ := hrep.obj r hr
      refine ⟨r.ptr, ?_, (h.ptr r hr).2.1⟩
      rw [ho]
      exact Option.some_ne_none o
    · rintro ⟨p, hp, rfl⟩
      obtain ⟨r, hr, rfl⟩ := hrep.mem hp
      rw [(h.ptr r hr).2.1]
      exact List.mem_map.mpr ⟨r, hr, rfl⟩
  back p hp := by
    obtain ⟨r, hr, rfl⟩ := hrep.mem hp
    rw [(h.ptr r hr).2.1]
    exact (h.slot r hr).ptrslot
  size p o hp := by
    obtain ⟨r, hr, rfl⟩ := hrep.mem (hp ▸ Option.some_ne_none o)
    obtain ⟨o', ho', hsize, -⟩ := hrep.obj r hr
    have heq : o' = o := Option.some.inj (ho'.symm.trans hp)
    rw [(h.ptr r hr).2.1, (h.slot r hr).sz, ← heq, hsize]
  byte p o hp i hi := by
    obtain ⟨r, hr, rfl⟩ := hrep.mem (hp ▸ Option.some_ne_none o)
    obtain ⟨o', ho', hsize, hbyte⟩ := hrep.obj r hr
    have heq : o' = o := Option.some.inj (ho'.symm.trans hp)
    subst heq
    have hlt : i < r.size := hsize ▸ hi
    rw [h.byte_eq hr hlt, hbyte i hlt]
  ptr_inside p hp := by
    obtain ⟨r, hr, rfl⟩ := hrep.mem hp
    have hptr := (h.ptr r hr).1
    have hge := h.ptr_ge hptr
    have hbase := h.placed.le
    rw [← h.top_eq]
    exact ⟨hbase.trans hge, hptr.2.1⟩
  ptr_apart p q hp hq hne := by
    obtain ⟨r, hr, rfl⟩ := hrep.mem hp
    obtain ⟨t, ht, rfl⟩ := hrep.mem hq
    exact (h.ptr r hr).1.apart (h.ptr t ht).1 hne
  apart t ht p hp := by
    obtain ⟨r, hr, rfl⟩ := List.mem_map.mp ht
    obtain ⟨u, hu, rfl⟩ := hrep.mem hp
    rw [h.slotEnd_eq hr]
    exact (h.stop_le hr).2.1.trans (h.ptr_ge (h.ptr u hu).1)
  free p hp := by
    by_contra hne
    obtain ⟨r, hr, rfl⟩ := hrep.mem hne
    have hcount := (h.free _ hp).2
    have hlive := (h.ptr r hr).2.2
    omega

/-- The slots of an arena, with the objects of the program in them. -/
def Good (s : State) : Prop :=
  ∃ live, Inv s.arena live ∧ Rep s.objs live

theorem Rep.congr (h : Rep objs live) (hobjects : D.map Slot.object = live.map Slot.object) :
    Rep objs D := by
  constructor
  · intro r hr
    have hmem : r.object ∈ live.map Slot.object := hobjects ▸ List.mem_map.mpr ⟨r, hr, rfl⟩
    obtain ⟨t, ht, heq⟩ := List.mem_map.mp hmem
    simp only [Slot.object, Prod.mk.injEq] at heq
    obtain ⟨hptr, hsize, hbyte⟩ := heq
    obtain ⟨o, ho, hosize, hobyte⟩ := h.obj t ht
    rw [← hptr, ← hsize, ← hbyte]
    exact ⟨o, ho, hosize, hobyte⟩
  · intro p hp
    apply h.absent
    rw [← map_ptr_of_objects hobjects]
    exact hp

theorem Rep.append (h : Rep objs live) (hnew : r.ptr ∉ live.map Slot.ptr)
    (hsize : o.size = r.size) (hbyte : ∀ i < r.size, o.byte i = r.byte i) :
    Rep (Function.update objs r.ptr (some o)) (live ++ [r]) := by
  constructor
  · intro t ht
    rcases List.mem_append.mp ht with hold | hlast
    · have hne : t.ptr ≠ r.ptr :=
        ne_of_mem_of_not_mem (List.mem_map.mpr ⟨t, hold, rfl⟩) hnew
      rw [Function.update_of_ne hne]
      exact h.obj t hold
    · rw [List.mem_singleton.mp hlast, Function.update_self]
      exact ⟨o, rfl, hsize, hbyte⟩
  · intro p hp
    rw [List.map_append, List.map_singleton, List.mem_append, List.mem_singleton, not_or] at hp
    rw [Function.update_of_ne hp.2]
    exact h.absent p hp.1

theorem Rep.remove (h : Rep objs (D ++ r :: R)) (hne : ∀ t ∈ D ++ R, t.ptr ≠ r.ptr) :
    Rep (Function.update objs r.ptr none) (D ++ R) := by
  constructor
  · intro t ht
    rw [Function.update_of_ne (hne t ht)]
    apply h.obj
    simp only [List.mem_append, List.mem_cons] at ht ⊢
    tauto
  · intro p hp
    by_cases hpr : p = r.ptr
    · rw [hpr]
      exact Function.update_self _ _ _
    · rw [Function.update_of_ne hpr]
      apply h.absent
      simp only [List.map_append, List.map_cons, List.mem_append, List.mem_cons] at hp ⊢
      tauto

theorem Rep.write {c : UInt8} (h : Rep objs (D ++ r :: R)) (hne : ∀ t ∈ D ++ R, t.ptr ≠ r.ptr) :
    Rep (Function.update objs r.ptr
      ((objs r.ptr).map fun o => { o with byte := Function.update o.byte i c }))
      (D ++ r.set i c :: R) := by
  constructor
  · intro t ht
    have hcases : t = r.set i c ∨ t ∈ D ++ R := by
      simp only [List.mem_append, List.mem_cons] at ht ⊢
      tauto
    rcases hcases with rfl | hmem
    · obtain ⟨o, ho, hsize, hbyte⟩ := h.obj r (by simp)
      refine ⟨{ o with byte := Function.update o.byte i c }, ?_, hsize, ?_⟩
      · rw [ho]
        exact Function.update_self _ _ _
      · intro j hj
        by_cases hji : j = i
        · rw [hji]
          have hval : (r.set i c).byte i = c := Function.update_self _ _ _
          rw [hval]
          exact Function.update_self _ _ _
        · have hval : (r.set i c).byte j = r.byte j := Function.update_of_ne hji _ _
          rw [hval, ← hbyte j hj]
          exact Function.update_of_ne hji _ _
    · rw [Function.update_of_ne (hne t hmem)]
      apply h.obj
      simp only [List.mem_append, List.mem_cons] at hmem ⊢
      tauto
  · intro p hp
    simp only [List.map_append, List.map_cons, List.mem_append, List.mem_cons, not_or] at hp
    have hpr : p ≠ r.ptr := hp.2.1
    rw [Function.update_of_ne hpr]
    apply h.absent
    simp only [List.map_append, List.map_cons, List.mem_append, List.mem_cons, not_or]
    exact hp

theorem Good.step (hg : Good s) (hmeets : Meets s op) :
    ∃ s', step s op = some s' ∧ Good s' ∧ ∀ nl, op = .compact nl →
      ∃ live, Inv s'.arena live ∧ Rep s'.objs live ∧
        Packed s'.arena.gcp s'.arena.base live s'.arena.nxtMemslot := by
  obtain ⟨live, h, hrep⟩ := hg
  obtain ⟨hallowed, hfits⟩ := hmeets
  cases op with
  | aalloc sz =>
    rcases h.aalloc (hfits sz rfl) with hnone | ⟨b, r, hsome, hsize, hnew, hinv⟩
    · refine ⟨s, ?_, ⟨live, h, hrep⟩, by simp⟩
      rw [Gc.step, hnone]
      rfl
    · have hlast : r ∈ live ++ [r] := by simp
      refine ⟨⟨b, Function.update s.objs r.ptr (some ⟨(sz + 7) / 8 * 8, b.byte r.ptr⟩)⟩, ?_,
        ⟨live ++ [r], hinv, hrep.append hnew hsize.symm ?_⟩, by simp⟩
      · rw [Gc.step, hsome]
        rfl
      · exact fun i hi => hinv.byte_eq hlast hi
  | deallocate p =>
    obtain ⟨hp, hcount⟩ := hallowed
    obtain ⟨r, hr, rfl⟩ := hrep.mem hp
    obtain ⟨D, R, rfl⟩ := List.append_of_mem hr
    obtain ⟨m', u, hdone, hinv⟩ := h.deallocate hcount
    refine ⟨⟨_, Function.update s.objs r.ptr none⟩, ?_,
      ⟨D ++ R, hinv, hrep.remove h.ptr_ne⟩, by simp⟩
    rw [Gc.step, hdone]
    rfl
  | rcInc p =>
    obtain ⟨hp, hcount⟩ := hallowed
    obtain ⟨r, hr, rfl⟩ := hrep.mem hp
    have hpos := (h.ptr r hr).2.2
    have hinv := h.setCount hr (c := Bigptr.count s.arena.mem r.ptr + 1) (by omega) hcount
    refine ⟨⟨_, s.objs⟩, ?_, ⟨live, hinv, hrep⟩, by simp⟩
    rw [Gc.step, Arena.rcInc, if_pos hpos]
    rfl
  | rcDec p =>
    obtain ⟨hp, hcount⟩ := hallowed
    obtain ⟨r, hr, rfl⟩ := hrep.mem hp
    have hlt : Bigptr.count s.arena.mem r.ptr < 2 ^ 31 := by
      have hmax := BitVec.toInt_lt (x := BitVec.ofNat 32 (s.arena.mem.load 4 (r.ptr + 16)))
      exact hmax
    have hinv := h.setCount hr (c := Bigptr.count s.arena.mem r.ptr - 1) (by omega) (by omega)
    refine ⟨⟨_, s.objs⟩, ?_, ⟨live, hinv, hrep⟩, by simp⟩
    rw [Gc.step, Arena.rcDec, if_pos hcount]
    rfl
  | write p i c =>
    obtain ⟨o, hp, hlt⟩ := hallowed
    obtain ⟨r, hr, rfl⟩ := hrep.mem (hp ▸ Option.some_ne_none o)
    obtain ⟨o', ho', hsize, -⟩ := hrep.obj r hr
    have heq : o' = o := Option.some.inj (ho'.symm.trans hp)
    obtain ⟨D, R, rfl⟩ := List.append_of_mem hr
    obtain ⟨m', hdone, hinv⟩ := h.write (i := i) (c := c) (by rw [← hsize, heq]; exact hlt)
    refine ⟨⟨_, Function.update s.objs r.ptr
      ((s.objs r.ptr).map fun o => { o with byte := Function.update o.byte i c })⟩, ?_,
      ⟨_, hinv, hrep.write h.ptr_ne⟩, by simp⟩
    rw [Gc.step, hdone]
    rfl
  | compact nl =>
    obtain ⟨free, hcollect, h₁⟩ := h.collectPtrslots
    have hnl : Elsewhere { s.arena with freePtrslots := free } nl :=
      { hallowed with }
    obtain ⟨m', p', D, hdone, hinv, hobjects, hpacked⟩ := h₁.compactMemslots hnl
    have hrep' := hrep.congr hobjects
    refine ⟨⟨_, s.objs⟩, ?_, ⟨D, hinv, hrep'⟩, fun _ _ => ⟨D, hinv, hrep', hpacked⟩⟩
    rw [Gc.step, hcollect, Option.bind_some, hdone]
    rfl

theorem Inv.contiguous {lo hi : ℕ} (h : Inv a live) (hsub : ∀ r ∈ R, r ∈ live)
    (hpacked : Packed a.gcp lo R hi) : a.Contiguous lo (R.map Slot.addr) hi := by
  induction R generalizing lo with
  | nil => exact hpacked
  | cons r R ih =>
    obtain ⟨haddr, -, hrest⟩ := hpacked
    rw [← h.slotEnd_eq (hsub r List.mem_cons_self)] at hrest
    exact ⟨haddr, ih (fun t ht => hsub t (List.mem_cons_of_mem _ ht)) hrest⟩

/-- Where an arena is made: mapped memory, and the list outside it. -/
structure Site where
  base : ℕ
  sz : ℕ
  list : ℕ
  low : 24 ≤ base
  high : base + sz < 2 ^ 64
  clear : list + 16 ≤ base ∨ base + sz ≤ list
  list_lt : list < 2 ^ 64

def start (site : Site) (mem : Memory) (gcp : ℕ) (debugMem : Bool) : State where
  arena := Arena.bigobjArena mem site.base site.sz site.list gcp debugMem
  objs _ := none

variable {site : Site} {mem : Memory} {gcp : ℕ} {debugMem : Bool}

theorem good_start : Good (start site mem gcp debugMem) :=
  ⟨[], inv_bigobjArena site.low site.high site.clear site.list_lt, nofun, fun _ _ => rfl⟩

theorem good_run (hrun : Run step Meets (start site mem gcp debugMem) ops s) : Good s := by
  refine hrun.invariant good_start ?_
  intro s₁ op s₂ hg hmeets hstep
  obtain ⟨s', hs', hg', -⟩ := hg.step hmeets
  have heq : s' = s₂ := Option.some.inj (hs'.symm.trans hstep)
  rw [← heq]
  exact hg'

/-- When no size wraps, the objects are in their slots in every state of a run, the slots follow
each other after a compaction, and nothing the program does next makes an assertion fail. -/
theorem run_sound (hrun : Run step Meets (start site mem gcp debugMem) ops s) :
    (∃ slots, Sound s slots ∧ ∀ nl, ops.getLast? = some (.compact nl) →
      s.arena.Contiguous s.arena.base slots s.arena.nxtMemslot) ∧
    ∀ op, Meets s op → ∃ s', step s op = some s' := by
  refine ⟨?_, fun op hmeets => ?_⟩
  · cases hrun with
    | nil =>
        obtain ⟨live, h, hrep⟩ : Good (start site mem gcp debugMem) := good_start
        exact ⟨_, h.sound hrep, by simp⟩
    | @snoc s₁ _ ops op hrun hmeets hstep =>
        obtain ⟨s', hs', hg, hcompact⟩ := (good_run hrun).step hmeets
        have heq : s' = s := Option.some.inj (hs'.symm.trans hstep)
        subst heq
        by_cases hlast : ∃ nl, op = .compact nl
        · obtain ⟨nl, rfl⟩ := hlast
          obtain ⟨live, h, hrep, hpacked⟩ := hcompact nl rfl
          exact ⟨_, h.sound hrep, fun _ _ => h.contiguous (fun _ hr => hr) hpacked⟩
        · obtain ⟨live, h, hrep⟩ := hg
          refine ⟨_, h.sound hrep, fun nl hnl => ?_⟩
          rw [List.getLast?_concat] at hnl
          exact absurd ⟨nl, Option.some.inj hnl⟩ hlast
  · obtain ⟨s', hs', -⟩ := (good_run hrun).step hmeets
    exact ⟨s', hs'⟩

def onePage : Site :=
  ⟨4096, 4096, 1024, by decide, by decide, by decide, by decide⟩

/-- Two objects are made and the first is released; the compaction moves the second down to the
base. -/
theorem run_sound_compact : ∃ s, Run step Meets (start onePage (fun _ => 0) 1 true)
      [.aalloc 10, .aalloc 10, .deallocate 8168, .compact 2048] s ∧
    Bigptr.memslot s.arena.mem 8144 = 4096 ∧
    (∃ slots, Sound s slots ∧ ∀ nl,
      [Op.aalloc 10, .aalloc 10, .deallocate 8168, .compact 2048].getLast? = some (.compact nl) →
      s.arena.Contiguous s.arena.base slots s.arena.nxtMemslot) ∧
    ∀ op, Meets s op → ∃ s', step s op = some s' := by
  have hsteps : ((step (start onePage (fun _ => 0) 1 true) (.aalloc 10)).bind fun a =>
      (step a (.aalloc 10)).bind fun b => (step b (.deallocate 8168)).bind fun c =>
        (step c (.compact 2048)).map fun d =>
          decide (a.arena.gcp = 1 ∧
            ((b.objs 8168).isSome ∧ Bigptr.count b.arena.mem 8168 = 0) ∧
            (c.arena.base = 4096 ∧ c.arena.top = 8192 ∧ c.arena.memslots = 1024) ∧
            Bigptr.memslot c.arena.mem 8144 = 4160 ∧
            Bigptr.memslot d.arena.mem 8144 = 4096)) = some true := by
    decide +kernel
  obtain ⟨s₁, h₁, hs⟩ := Option.bind_eq_some_iff.mp hsteps
  obtain ⟨s₂, h₂, hs⟩ := Option.bind_eq_some_iff.mp hs
  obtain ⟨s₃, h₃, hs⟩ := Option.bind_eq_some_iff.mp hs
  obtain ⟨s₄, h₄, hs⟩ := Option.map_eq_some_iff.mp hs
  obtain ⟨hgcp, ⟨hobj, hcount⟩, ⟨hbase, htop, hlist⟩, -, hmoved⟩ := of_decide_eq_true hs
  have hfirst : Meets (start onePage (fun _ => 0) 1 true) (.aalloc 10) := by
    refine ⟨trivial, ?_⟩
    rintro sz ⟨rfl⟩ -
    exact of_decide_eq_true rfl
  have hsecond : Meets s₁ (.aalloc 10) := by
    refine ⟨trivial, ?_⟩
    rintro sz ⟨rfl⟩ -
    rw [hgcp]
    exact of_decide_eq_true rfl
  have hthird : Meets s₂ (.deallocate 8168) :=
    ⟨⟨Option.isSome_iff_ne_none.mp hobj, hcount⟩, nofun⟩
  have hlast : Meets s₃ (.compact 2048) := by
    refine ⟨⟨?_, ?_, by decide⟩, nofun⟩
    · omega
    · omega
  have hrun : Run step Meets (start onePage (fun _ => 0) 1 true)
      [.aalloc 10, .aalloc 10, .deallocate 8168, .compact 2048] s₄ :=
    .cons hfirst h₁ (.cons hsecond h₂ (.cons hthird h₃ (.cons hlast h₄ (.nil _))))
  exact ⟨s₄, hrun, hmoved, run_sound hrun⟩

/-- The size of an object and its header wrap, and `aalloc` hands out a slot for it. -/
theorem aalloc_wraps : ∃ s, Run step Allowed (start onePage (fun _ => 0) 1 false)
    [.aalloc (2 ^ 64 - 48)] s ∧ ¬ ∃ slots, Sound s slots := by
  have hval : ((step (start onePage (fun _ => 0) 1 false) (.aalloc (2 ^ 64 - 48))).bind
      fun s => (s.objs 8168).map fun o => (o.size, s.arena.base + s.arena.sz)) =
      some (2 ^ 64 - 48, 8192) := by
    decide
  obtain ⟨s, hs, hobj⟩ := Option.bind_eq_some_iff.mp hval
  obtain ⟨o, ho, hpair⟩ := Option.map_eq_some_iff.mp hobj
  obtain ⟨hsize, hend⟩ := Prod.mk.inj hpair
  refine ⟨s, Run.snoc (.nil _) trivial hs, ?_⟩
  rintro ⟨slots, hsound⟩
  have hne : s.objs 8168 ≠ none := ho ▸ Option.some_ne_none o
  have hmem := (hsound.live _).mpr ⟨8168, hne, rfl⟩
  have hin := (hsound.inside _ hmem).2
  have hsz := hsound.size 8168 o ho
  rw [Arena.slotEnd, hsz, hsize, hend] at hin
  omega

end Sfslite.Safeptr.Gc
