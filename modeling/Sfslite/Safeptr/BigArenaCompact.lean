import Sfslite.Safeptr.BigArenaOps

/-!
Compaction: the pointer slots that are free are found, and the memory slots are moved down over
each other.
-/

namespace Sfslite.Safeptr.Gc

open Lib

variable {g lo hi : ℕ} {m m' : Memory} {a : Arena} {r : Slot} {live D R : List Slot}
  {p q nl fuel : ℕ}

theorem Inv.collect {free : List ℕ} {last : Option ℕ} (h : Inv a live)
    (hp : p + 24 ≤ a.top ∧ a.nxtPtrslot ≤ p ∧ 24 ∣ a.top - p)
    (hlast : last = none ∧ p + 24 = a.top ∨ last = some (p + 24))
    (hfree : ∀ q ∈ free, a.IsPtr q ∧ p < q ∧ Bigptr.count a.mem q = -1) (hnodup : free.Nodup)
    (hfuel : p < a.nxtPtrslot + fuel) :
    ∃ free' last', Arena.collect a.mem a.nxtPtrslot fuel p (free, last) = some (free', last') ∧
      (∀ q ∈ free', a.IsPtr q ∧ Bigptr.count a.mem q = -1) ∧ free'.Nodup ∧
      (last' = none ∧ a.nxtPtrslot + 24 = a.top ∨ last' = some (a.nxtPtrslot + 24)) := by
  have hgrid := h.grid
  induction fuel generalizing p free last with
  | zero => omega
  | succ fuel ih =>
    rw [Arena.collect]
    by_cases hlt : a.nxtPtrslot < p
    · have hptr : a.IsPtr p := ⟨hlt, hp.1, hp.2.2⟩
      have hcheck : Bigptr.check a.mem p = true := decide_eq_true (h.check p hptr)
      have hback : p - 24 + 24 = p := by omega
      rw [if_pos hlt, if_pos hcheck]
      unfold Bigptr.sizeof
      apply ih
      · omega
      · right
        rw [hback]
      · intro q hq
        split_ifs at hq with hcount
        · rcases List.mem_cons.mp hq with rfl | hq
          · exact ⟨hptr, by omega, hcount⟩
          · obtain ⟨hq, hgt, hc⟩ := hfree q hq
            exact ⟨hq, by omega, hc⟩
        · obtain ⟨hq, hgt, hc⟩ := hfree q hq
          exact ⟨hq, by omega, hc⟩
      · split_ifs with hcount
        · refine List.nodup_cons.mpr ⟨?_, hnodup⟩
          intro hmem
          exact absurd (hfree p hmem).2.1 (lt_irrefl p)
        · exact hnodup
      · omega
    · have heq : p = a.nxtPtrslot := by omega
      refine ⟨free, last, if_neg hlt, ?_, hnodup, ?_⟩
      · intro q hq
        obtain ⟨hq, -, hc⟩ := hfree q hq
        exact ⟨hq, hc⟩
      · rw [← heq]
        exact hlast

theorem Inv.collectPtrslots (h : Inv a live) :
    ∃ free, a.collectPtrslots = some { a with freePtrslots := free } ∧
      Inv { a with freePtrslots := free } live := by
  have hgrid := h.grid
  have hbase := h.placed.le
  have hroom := h.room
  have htop := h.top_eq
  have hsub : a.top - Bigptr.sizeof + 24 = a.top := by
    unfold Bigptr.sizeof
    omega
  have hfuel : a.top - Bigptr.sizeof < a.nxtPtrslot + (a.sz + 2) := by
    omega
  obtain ⟨free, last, hloop, hfree, hnodup, hlast⟩ :=
    h.collect (by omega) (Or.inl ⟨rfl, hsub⟩) (List.forall_mem_nil _) List.nodup_nil hfuel
  refine ⟨free, ?_, { h with free := hfree, free_nodup := hnodup }⟩
  rw [Arena.collectPtrslots, hloop, Option.map_some]
  rcases hlast with ⟨rfl, -⟩ | rfl
  · rfl
  · have hback : a.nxtPtrslot + 24 - Bigptr.sizeof = a.nxtPtrslot := by
      unfold Bigptr.sizeof
      omega
    simp only [hback]

theorem Bigslot.same_copyReinit {s ms b k : ℕ} (hsz : Bigslot.sz
    ((m.store 8 (s + 32) (Bigslot.ptrslot m ms)).store 8 (s + 24)
      (Bigslot.sz (m.store 8 (s + 32) (Bigslot.ptrslot m ms)) ms)) ms = lo)
    (h : b + k ≤ s ∨ s + 40 + g + lo ≤ b) : Memory.Same m (Bigslot.copyReinit g m s ms) b k := by
  have h₁ : Memory.Same m (m.store 8 (s + 32) (Bigslot.ptrslot m ms)) b k :=
    Memory.same_store (by omega)
  rw [Bigslot.copyReinit]
  generalize m.store 8 (s + 32) (Bigslot.ptrslot m ms) = m₁ at h₁ hsz ⊢
  have h₂ : Memory.Same m₁ (m₁.store 8 (s + 24) (Bigslot.sz m₁ ms)) b k :=
    Memory.same_store (by omega)
  generalize m₁.store 8 (s + 24) (Bigslot.sz m₁ ms) = m₂ at h₂ hsz ⊢
  rw [hsz]
  unfold Bigslot.dataAt
  have h₃ : Memory.Same m₂ (m₂.move (s + 40 + g) (ms + 40 + g) lo) b k :=
    Memory.same_move (by omega)
  exact ((h₁.trans h₂).trans h₃).trans (Memory.same_store (by omega))

theorem SlotAt.copyReinit (h : SlotAt g m r) (hgap : Gap g p r.addr) (hsize : r.size < 2 ^ 64)
    (hptr : r.ptr < 2 ^ 64) :
    SlotAt g (Bigslot.copyReinit g m p r.addr) { r with addr := p } ∧
      ∀ b k, (b + k ≤ p ∨ p + 40 + g + r.size ≤ b) →
        Memory.Same m (Bigslot.copyReinit g m p r.addr) b k := by
  have hheader := Bigslot.le_sizeof g
  unfold Gap at hgap
  have hone : Bigslot.sz (m.store 8 (p + 32) (Bigslot.ptrslot m r.addr)) r.addr = r.size := by
    have hkeep : Memory.Same m (m.store 8 (p + 32) (Bigslot.ptrslot m r.addr)) (r.addr + 24) 8 :=
      Memory.same_store (by omega)
    exact hkeep.load.trans h.sz
  have htwo : Bigslot.sz ((m.store 8 (p + 32) (Bigslot.ptrslot m r.addr)).store 8 (p + 24)
      (Bigslot.sz (m.store 8 (p + 32) (Bigslot.ptrslot m r.addr)) r.addr)) r.addr = r.size := by
    rw [hone]
    rcases hgap with heq | hlt
    · rw [heq]
      exact Memory.load_store_of_lt (by norm_num; omega)
    · have hkeep : Memory.Same (m.store 8 (p + 32) (Bigslot.ptrslot m r.addr))
          ((m.store 8 (p + 32) (Bigslot.ptrslot m r.addr)).store 8 (p + 24) r.size)
          (r.addr + 24) 8 := Memory.same_store (by omega)
      exact hkeep.load.trans hone
  refine ⟨?_, fun b k => Bigslot.same_copyReinit htwo⟩
  have hp : (m.store 8 (p + 32) (Bigslot.ptrslot m r.addr)).load 8 (p + 32) = r.ptr := by
    rw [h.ptrslot]
    exact Memory.load_store_of_lt (by norm_num; omega)
  have hbytes : ∀ i < r.size, (m.store 8 (p + 32) (Bigslot.ptrslot m r.addr))
      (Bigslot.dataAt g r.addr + i) = r.byte i := by
    intro i hi
    rw [← h.byte i hi]
    unfold Bigslot.dataAt
    exact Memory.same_store (k := 1) (by omega) _ (le_refl _) (by omega)
  rw [Bigslot.copyReinit]
  generalize m.store 8 (p + 32) (Bigslot.ptrslot m r.addr) = m₁ at hone htwo hp hbytes ⊢
  have hp₂ : (m₁.store 8 (p + 24) (Bigslot.sz m₁ r.addr)).load 8 (p + 32) = r.ptr :=
    (Memory.load_store_of_ne (by omega)).trans hp
  have hsz₂ : (m₁.store 8 (p + 24) (Bigslot.sz m₁ r.addr)).load 8 (p + 24) = r.size := by
    rw [hone]
    exact Memory.load_store_of_lt (by norm_num; omega)
  have hbytes₂ : ∀ i < r.size, (m₁.store 8 (p + 24) (Bigslot.sz m₁ r.addr))
      (Bigslot.dataAt g r.addr + i) = r.byte i := by
    intro i hi
    rw [← hbytes i hi]
    unfold Bigslot.dataAt
    exact Memory.same_store (k := 1) (by omega) _ (le_refl _) (by omega)
  generalize m₁.store 8 (p + 24) (Bigslot.sz m₁ r.addr) = m₂ at htwo hp₂ hsz₂ hbytes₂ ⊢
  rw [htwo]
  have hkeep : Memory.Same m₂ (m₂.move (Bigslot.dataAt g p) (Bigslot.dataAt g r.addr) r.size)
      p 40 := by
    unfold Bigslot.dataAt
    exact Memory.same_move (by omega)
  have hbytes₃ : ∀ i < r.size, (m₂.move (Bigslot.dataAt g p) (Bigslot.dataAt g r.addr) r.size)
      (Bigslot.dataAt g p + i) = r.byte i :=
    fun i hi => (Memory.move_apply hi).trans (hbytes₂ i hi)
  generalize m₂.move (Bigslot.dataAt g p) (Bigslot.dataAt g r.addr) r.size = m₃
    at hkeep hbytes₃ ⊢
  have hkeep' : Memory.Same m₃ (m₃.store 4 p Bigslot.magic) (p + 4) (36 + g + r.size) :=
    Memory.same_store (by omega)
  have hsz : Memory.Same m₂ (m₃.store 4 p Bigslot.magic) (p + 24) 8 :=
    (hkeep.sub (by omega) (by omega)).trans (hkeep'.sub (by omega) (by omega))
  have hslot : Memory.Same m₂ (m₃.store 4 p Bigslot.magic) (p + 32) 8 :=
    (hkeep.sub (by omega) (by omega)).trans (hkeep'.sub (by omega) (by omega))
  refine ⟨Memory.load_store_of_lt (by decide), hsz.load.trans hsz₂, hslot.load.trans hp₂, ?_⟩
  intro i hi
  have hlt : i < r.size := hi
  unfold Bigslot.dataAt at hbytes₃ ⊢
  rw [← hbytes₃ i hi]
  exact hkeep' (p + 40 + g + i) (by omega) (by omega)

def Slot.moveTo (r : Slot) (p : ℕ) : Slot :=
  { r with addr := p }

theorem Inv.moveSlot (h : Inv a live) (hslot : SlotAt a.gcp m r) (hgap : Gap a.gcp p r.addr)
    (hlo : a.base ≤ p) (hhi : r.stop a.gcp ≤ a.nxtMemslot) (hdvd : 8 ∣ r.size)
    (hptr : a.IsPtr r.ptr) :
    ∃ m', a.moveSlot m r.addr p = some (m', (r.moveTo p).stop a.gcp) ∧
      SlotAt a.gcp m' (r.moveTo p) ∧ Bigptr.memslot m' r.ptr = p ∧
      ∀ b k, (b + k ≤ p ∨ (r.moveTo p).stop a.gcp ≤ b) →
        (b + k ≤ r.ptr + 8 ∨ r.ptr + 16 ≤ b) → Memory.Same m m' b k := by
  have hge := h.ptr_ge hptr
  have hin : r.ptr + 24 ≤ a.top := hptr.2.1
  have hhigh := h.high
  have hlow := h.low
  have hstop := r.addr_lt_stop a.gcp
  have hheader := Bigslot.le_sizeof a.gcp
  have hle := hgap.le
  have hstop' : (r.moveTo p).stop a.gcp = p + r.size + Bigslot.sizeof a.gcp := rfl
  have hmoved : (r.moveTo p).stop a.gcp ≤ r.stop a.gcp := by
    unfold Slot.stop Slot.moveTo
    simp only
    omega
  obtain ⟨hnew, hsame⟩ := hslot.copyReinit hgap (by omega) (by omega)
  generalize hm₁ : Bigslot.copyReinit a.gcp m p r.addr = m₁ at hnew hsame
  have hcheck : Bigslot.check m r.addr = true := decide_eq_true hslot.check
  have hcheck₁ : Bigslot.check m₁ p = true := decide_eq_true hnew.check
  have hptr₁ : Bigslot.ptrslot m₁ p = r.ptr := hnew.ptrslot
  generalize hm₂ : Bigptr.setMemSlot m₁ r.ptr p = m₂
  have hsame₂ : ∀ b k, (b + k ≤ r.ptr + 8 ∨ r.ptr + 16 ≤ b) → Memory.Same m₁ m₂ b k := by
    intro b k hbk
    rw [← hm₂]
    exact Bigptr.same_setMemSlot hbk
  have hnew₂ : SlotAt a.gcp m₂ (r.moveTo p) :=
    hnew.congr ⟨hsame₂ p 4 (by omega), hsame₂ (p + 24) (16 + a.gcp + r.size) (by omega)⟩
  have hcheck₂ : Bigslot.check m₂ p = true := decide_eq_true hnew₂.check
  have hsz₂ : Bigslot.sz m₂ p = r.size := hnew₂.sz
  refine ⟨m₂, ?_, hnew₂, ?_, ?_⟩
  · have hdata : Bigslot.data a.gcp m r.addr = some (Bigslot.dataAt a.gcp r.addr) :=
      if_pos hcheck
    have hend : (Bigslot.dataAt a.gcp r.addr + Bigslot.sz m r.addr) % 2 ^ 64 =
        r.addr + 40 + a.gcp + r.size := by
      rw [hslot.sz, Nat.mod_eq_of_lt]
      · rfl
      · unfold Bigslot.dataAt
        omega
    have hsize : Bigslot.size a.gcp m₂ p = some (r.size + Bigslot.sizeof a.gcp) := by
      rw [Bigslot.size, if_pos hcheck₂, hsz₂, Bigslot.sizeOf_eq hdvd (by omega)]
    have hwrap : (p + (r.size + Bigslot.sizeof a.gcp)) % 2 ^ 64 = (r.moveTo p).stop a.gcp := by
      rw [hstop', Nat.mod_eq_of_lt (by omega), Nat.add_assoc]
    have hreseat : Bigslot.reseat m₁ p = some m₂ := by
      rw [Bigslot.reseat, if_pos hcheck₁, hptr₁, hm₂]
    rw [Arena.moveSlot, hdata, Option.bind_some]
    simp only [hend, hm₁, hreseat, Option.bind_some, hsize, hwrap]
    rw [if_pos ?_, if_pos ?_]
    · omega
    · unfold Bigslot.dataAt
      omega
  · rw [← hm₂]
    exact Memory.load_store_of_lt (by norm_num; omega)
  · intro b k hbk hbp
    exact (hsame b k (by omega)).trans (hsame₂ b k hbp)

/-- The slots follow each other from `lo` to `hi` without a gap. -/
def Packed (g : ℕ) : ℕ → List Slot → ℕ → Prop
  | lo, [], hi => lo = hi
  | lo, r :: rs, hi => lo = r.addr ∧ 8 ∣ r.size ∧ Packed g (r.stop g) rs hi

theorem Packed.append {mid : ℕ} (h : Packed g lo D mid) (h' : Placed g mid R hi) :
    Placed g lo (D ++ R) hi := by
  induction D generalizing lo with
  | nil =>
    have heq : lo = mid := h
    rw [heq]
    exact h'
  | cons r D ih => exact ⟨Or.inl h.1, h.2.1, ih h.2.2⟩

theorem Packed.snoc (h : Packed g lo D r.addr) (hdvd : 8 ∣ r.size) :
    Packed g lo (D ++ [r]) (r.stop g) := by
  induction D generalizing lo with
  | nil => exact ⟨h, hdvd, rfl⟩
  | cons t D ih => exact ⟨h.1, h.2.1, ih h.2.2⟩

theorem Placed.lower {mid : ℕ} (h : Placed g mid R hi) (hgap : Gap g lo mid) :
    Placed g lo R hi := by
  cases R with
  | nil => exact hgap.trans h
  | cons r R => exact ⟨hgap.trans h.1, h.2⟩

def Slot.object (r : Slot) : ℕ × ℕ × (ℕ → UInt8) :=
  (r.ptr, r.size, r.byte)

theorem map_ptr_of_objects (h : D.map Slot.object = live.map Slot.object) :
    D.map Slot.ptr = live.map Slot.ptr := by
  have hmap := congrArg (List.map Prod.fst) h
  rw [List.map_map, List.map_map] at hmap
  exact hmap

/-- What the memory holds of the slots `rs`, and of the pointer slots. -/
structure Contents (a : Arena) (m : Memory) (rs : List Slot) : Prop where
  slot : ∀ r ∈ rs, SlotAt a.gcp m r
  ptr : ∀ r ∈ rs, a.IsPtr r.ptr ∧ Bigptr.memslot m r.ptr = r.addr ∧ 0 ≤ Bigptr.count m r.ptr
  check : ∀ p, a.IsPtr p → m.load 4 p = Bigptr.magic
  free : ∀ p ∈ a.freePtrslots, Bigptr.count m p = -1

theorem Contents.entries (h : Inv a live) (hc : Contents a m R)
    (hplaced : Placed a.gcp a.base R a.nxtMemslot) (hq : q + 16 ≤ a.base ∨ a.top ≤ q)
    (hsame : SameButEntries q R m m') : Contents a m' R := by
  have hroom := h.room
  have hgrid := h.grid
  have hbase := h.placed.le
  have hkeep : ∀ p, a.IsPtr p → Memory.Same m m' p 24 := by
    intro p hp
    have hge := h.ptr_ge hp
    have hle : p + 24 ≤ a.top := hp.2.1
    exact hplaced.samePtr hge (by omega) hsame
  constructor
  · intro r hr
    exact (hc.slot r hr).congr (hplaced.sameSlot hr (by omega) hsame)
  · intro r hr
    obtain ⟨hp, hms, hcount⟩ := hc.ptr r hr
    refine ⟨hp, (Bigptr.memslot_congr (hkeep _ hp)).trans hms, ?_⟩
    rw [Bigptr.count_congr (hkeep _ hp)]
    exact hcount
  · intro p hp
    exact (Bigptr.check_congr (hkeep p hp)).trans (hc.check p hp)
  · intro p hp
    exact (Bigptr.count_congr (hkeep p (h.free p hp).1)).trans (hc.free p hp)

theorem Contents.moveSlot (h : Inv a live) (hc : Contents a m (D ++ r :: R))
    (hne : ∀ t ∈ D ++ R, t.ptr ≠ r.ptr) (hbelow : ∀ t ∈ D, t.stop a.gcp ≤ p)
    (habove : ∀ t ∈ R, hi ≤ t.addr) (hhi : hi ≤ a.nxtMemslot)
    (hmid : ∀ t ∈ D ++ r :: R, t.stop a.gcp ≤ a.nxtMemslot)
    (hslot : SlotAt a.gcp m' (r.moveTo p)) (hms : Bigptr.memslot m' r.ptr = p)
    (hsame : ∀ b k, (b + k ≤ p ∨ hi ≤ b) → (b + k ≤ r.ptr + 8 ∨ r.ptr + 16 ≤ b) →
      Memory.Same m m' b k) :
    Contents a m' (D ++ [r.moveTo p] ++ R) := by
  obtain ⟨hptr, -, hcount⟩ := hc.ptr r (by simp)
  have hpge := h.ptr_ge hptr
  have hkeep : ∀ q, a.IsPtr q → q ≠ r.ptr → Memory.Same m m' q 24 := by
    intro q hq hne
    have hge := h.ptr_ge hq
    have hapart := hq.apart hptr hne
    exact hsame _ _ (by omega) (by omega)
  have hcount' : Bigptr.count m' r.ptr = Bigptr.count m r.ptr := by
    have hsame' : Memory.Same m m' (r.ptr + 16) 4 := hsame _ _ (by omega) (by omega)
    rw [Bigptr.count, Bigptr.count, hsame'.load]
  have hcases : ∀ t ∈ D ++ [r.moveTo p] ++ R, t = r.moveTo p ∨ t ∈ D ++ R ∧
      t ∈ D ++ r :: R ∧ (t.stop a.gcp ≤ p ∨ hi ≤ t.addr) := by
    intro t ht
    rcases List.mem_append.mp ht with hmem | hmem
    · rcases List.mem_append.mp hmem with hmem | hmem
      · exact Or.inr ⟨by simp [hmem], by simp [hmem], Or.inl (hbelow t hmem)⟩
      · exact Or.inl (List.mem_singleton.mp hmem)
    · exact Or.inr ⟨by simp [hmem], by simp [hmem], Or.inr (habove t hmem)⟩
  constructor
  · intro t ht
    rcases hcases t ht with rfl | ⟨-, hold, hclear⟩
    · exact hslot
    · have hbound := t.addr_lt_stop a.gcp
      have hin := hmid t hold
      refine (hc.slot t hold).congr ⟨hsame _ _ ?_ ?_, hsame _ _ ?_ ?_⟩
      · omega
      · omega
      · omega
      · omega
  · intro t ht
    rcases hcases t ht with rfl | ⟨hother, hold, -⟩
    · exact ⟨hptr, hms, hcount.trans_eq hcount'.symm⟩
    · obtain ⟨hq, hms, hcount⟩ := hc.ptr t hold
      have hkept := hkeep _ hq (hne t hother)
      refine ⟨hq, (Bigptr.memslot_congr hkept).trans hms, ?_⟩
      rw [Bigptr.count_congr hkept]
      exact hcount
  · intro q hq
    by_cases hqr : q = r.ptr
    · have hsame' : Memory.Same m m' q 4 := by
        rw [hqr]
        exact hsame _ _ (by omega) (by omega)
      exact hsame'.load.trans (hc.check q hq)
    · exact (Bigptr.check_congr (hkeep q hq hqr)).trans (hc.check q hq)
  · intro q hq
    have hfree := hc.free q hq
    have hqr : q ≠ r.ptr := by
      rintro rfl
      omega
    exact (Bigptr.count_congr (hkeep q (h.free q hq).1 hqr)).trans hfree

/-- Where `compact_memslots` is in its loop: the slots `D` are at their new places below `p` and in
the list `nl`, the slots `R` are still where they were. -/
structure Moving (a : Arena) (live : List Slot) (nl : ℕ) (m : Memory) (D R : List Slot) (p : ℕ) :
    Prop where
  packed : Packed a.gcp a.base D p
  placed : Placed a.gcp p R a.nxtMemslot
  objects : (D ++ R).map Slot.object = live.map Slot.object
  contents : Contents a m (D ++ R)
  old : Tailq.IsQueue Bigslot.field m a.memslots (R.map Slot.addr)
  new : Tailq.IsQueue Bigslot.field m nl (D.map Slot.addr)

/-- The list `nl` is elsewhere. -/
structure Elsewhere (a : Arena) (nl : ℕ) : Prop where
  arena : nl + 16 ≤ a.base ∨ a.top ≤ nl
  list : nl + 16 ≤ a.memslots ∨ a.memslots + 16 ≤ nl
  lt : nl < 2 ^ 64

theorem SameButEntries.mono (h : SameButEntries q D m m') (hsub : ∀ r ∈ D, r ∈ R) :
    SameButEntries q R m m' :=
  fun b k hq hx => h b k hq fun t ht => hx t (hsub t ht)

theorem isQueue_congr (h : Tailq.IsQueue Bigslot.field m q (D.map Slot.addr))
    (hq : Memory.Same m m' q 16) (hx : ∀ r ∈ D, Memory.Same m m' (r.addr + 8) 16) :
    Tailq.IsQueue Bigslot.field m' q (D.map Slot.addr) := by
  apply h.congr hq
  intro x hmem
  obtain ⟨r, hr, rfl⟩ := List.mem_map.mp hmem
  exact hx r hr

theorem isQueue_entries (lo hi : ℕ) (h : Tailq.IsQueue Bigslot.field m q (D.map Slot.addr))
    (hsame : SameButEntries nl R m m') (hlists : nl + 16 ≤ q ∨ q + 16 ≤ nl)
    (hq : q + 16 ≤ lo ∨ hi ≤ q) (hnl : nl + 16 ≤ lo ∨ hi ≤ nl)
    (hD : ∀ t ∈ D, lo ≤ t.addr ∧ t.addr + 24 ≤ hi) (hR : ∀ t ∈ R, lo ≤ t.addr ∧ t.addr + 24 ≤ hi)
    (hDR : ∀ t ∈ D, ∀ u ∈ R, t.addr + 24 ≤ u.addr ∨ u.addr + 24 ≤ t.addr) :
    Tailq.IsQueue Bigslot.field m' q (D.map Slot.addr) := by
  apply isQueue_congr h
  · apply hsame
    · omega
    · intro u hu
      have hin := hR u hu
      omega
  · intro t ht
    have hin := hD t ht
    apply hsame
    · omega
    · intro u hu
      have hapart := hDR t ht u hu
      omega

section Step

variable (h : Inv a live) (hnl : Elsewhere a nl) (hm : Moving a live nl m D (r :: R) p)

include hm

theorem Moving.all_placed : Placed a.gcp a.base (D ++ r :: R) a.nxtMemslot :=
  hm.packed.append hm.placed

theorem Moving.packed_placed : Placed a.gcp a.base D p := by
  have hplaced : Placed a.gcp a.base (D ++ []) p := hm.packed.append (Or.inl rfl)
  rwa [List.append_nil] at hplaced

theorem Moving.base_le : a.base ≤ p :=
  hm.packed_placed.le

theorem Moving.below : ∀ t ∈ D, a.base ≤ t.addr ∧ t.stop a.gcp ≤ p := by
  intro t ht
  have hin := hm.packed_placed.mem ht
  exact ⟨hin.1, hin.2.1⟩

theorem Moving.ptr_ne (h : Inv a live) : ∀ t ∈ D ++ R, t.ptr ≠ r.ptr := by
  have hnodup := h.nodup
  rw [← map_ptr_of_objects hm.objects, List.map_append, List.map_cons] at hnodup
  have hnot := (List.nodup_cons.mp (List.perm_middle.nodup_iff.mp hnodup)).1
  intro t ht heq
  rw [← List.map_append] at hnot
  exact hnot (List.mem_map.mpr ⟨t, ht, heq⟩)

theorem Moving.gap_after : (r.moveTo p).stop a.gcp ≤ r.stop a.gcp ∧
    Placed a.gcp ((r.moveTo p).stop a.gcp) R a.nxtMemslot := by
  obtain ⟨hgap, -, hrest⟩ := hm.placed
  have hgap₂ : Gap a.gcp ((r.moveTo p).stop a.gcp) (r.stop a.gcp) := by
    unfold Gap at hgap ⊢
    unfold Slot.stop Slot.moveTo
    simp only
    omega
  exact ⟨hgap₂.le, hrest.lower hgap₂⟩

include h hnl

theorem Moving.remove : ∃ m₁, Tailq.remove Bigslot.field m a.memslots r.addr = m₁ ∧
    Tailq.next Bigslot.field m r.addr = (R.map Slot.addr).headD 0 ∧
    Contents a m₁ (D ++ r :: R) ∧
    Tailq.IsQueue Bigslot.field m₁ a.memslots (R.map Slot.addr) ∧
    Tailq.IsQueue Bigslot.field m₁ nl (D.map Slot.addr) := by
  have hbase := hm.base_le
  have hlow := h.low
  have hhigh := h.high
  have hroom := h.room
  have hgrid := h.grid
  have hhead := h.head
  have hnlarena := hnl.arena
  have hnllist := hnl.list
  have hle := hm.placed.le
  have hapart : Tailq.Apart Bigslot.field a.memslots ([] ++ r.addr :: R.map Slot.addr) :=
    hm.placed.apart (by omega) (by omega) (by omega) h.head_lt
  have hold : Tailq.IsQueue Bigslot.field m a.memslots ([] ++ r.addr :: R.map Slot.addr) :=
    hm.old
  have hsame : SameButEntries a.memslots (r :: R) m
      (Tailq.remove Bigslot.field m a.memslots r.addr) := by
    intro b k hbq hx
    apply hold.same_remove hapart hbq
    intro x hmem
    rw [List.nil_append, ← List.map_cons] at hmem
    obtain ⟨t, ht, rfl⟩ := List.mem_map.mp hmem
    have hclear := hx t ht
    unfold Tailq.Clear Bigslot.field
    omega
  refine ⟨_, rfl, hold.next_eq, ?_, hold.remove hapart, ?_⟩
  · exact hm.contents.entries h hm.all_placed hhead
      (hsame.mono fun t ht => List.mem_append_right D ht)
  · apply isQueue_entries a.base a.nxtMemslot hm.new hsame
    · omega
    · omega
    · omega
    · intro t ht
      have hin := hm.below t ht
      have hbound := t.addr_lt_stop a.gcp
      omega
    · intro t ht
      have hin := hm.placed.mem ht
      have hbound := t.addr_lt_stop a.gcp
      omega
    · intro t ht u hu
      have hin := hm.below t ht
      have hbound := t.addr_lt_stop a.gcp
      have hge := (hm.placed.mem hu).1
      omega

theorem Moving.down {m₁ : Memory} (hc : Contents a m₁ (D ++ r :: R))
    (hold : Tailq.IsQueue Bigslot.field m₁ a.memslots (R.map Slot.addr))
    (hnew : Tailq.IsQueue Bigslot.field m₁ nl (D.map Slot.addr)) :
    ∃ m₂, a.moveSlot m₁ r.addr p = some (m₂, (r.moveTo p).stop a.gcp) ∧
      Contents a m₂ (D ++ [r.moveTo p] ++ R) ∧
      Tailq.IsQueue Bigslot.field m₂ a.memslots (R.map Slot.addr) ∧
      Tailq.IsQueue Bigslot.field m₂ nl (D.map Slot.addr) := by
  have hbase := hm.base_le
  have hroom := h.room
  have hgrid := h.grid
  have hhead := h.head
  have hnlarena := hnl.arena
  have hr : r ∈ D ++ r :: R := by simp
  have hin := hm.all_placed.mem hr
  obtain ⟨hgap, hdvd, hrest⟩ := hm.placed
  obtain ⟨hptr, -, -⟩ := hc.ptr r hr
  have hpge := h.ptr_ge hptr
  have hptop : r.ptr + 24 ≤ a.top := hptr.2.1
  obtain ⟨hle, hplaced⟩ := hm.gap_after
  obtain ⟨m₂, hmove, hslot₂, hms₂, hsame₂⟩ :=
    h.moveSlot (hc.slot r hr) hgap hbase hin.2.1 hdvd hptr
  have hend : p ≤ (r.moveTo p).stop a.gcp := by
    have hbound := (r.moveTo p).addr_lt_stop a.gcp
    have haddr : (r.moveTo p).addr = p := rfl
    omega
  have habove : ∀ t ∈ R, (r.moveTo p).stop a.gcp ≤ t.addr ∧ t.stop a.gcp ≤ a.nxtMemslot :=
    fun t ht => ⟨(hplaced.mem ht).1, (hplaced.mem ht).2.1⟩
  refine ⟨m₂, hmove, ?_, ?_, ?_⟩
  · exact hc.moveSlot h (hm.ptr_ne h) (fun t ht => (hm.below t ht).2)
      (fun t ht => (habove t ht).1) (hle.trans hin.2.1)
      (fun t ht => (hm.all_placed.mem ht).2.1) hslot₂ hms₂ hsame₂
  · apply isQueue_congr hold
    · exact hsame₂ _ _ (by omega) (by omega)
    · intro t ht
      have hup := habove t ht
      have hbound := t.addr_lt_stop a.gcp
      exact hsame₂ _ _ (by omega) (by omega)
  · apply isQueue_congr hnew
    · exact hsame₂ _ _ (by omega) (by omega)
    · intro t ht
      have hlow := hm.below t ht
      have hbound := t.addr_lt_stop a.gcp
      exact hsame₂ _ _ (by omega) (by omega)

theorem Moving.join {m₂ : Memory} (hc : Contents a m₂ (D ++ [r.moveTo p] ++ R))
    (hold : Tailq.IsQueue Bigslot.field m₂ a.memslots (R.map Slot.addr))
    (hnew : Tailq.IsQueue Bigslot.field m₂ nl (D.map Slot.addr)) :
    Moving a live nl (Tailq.insertTail Bigslot.field m₂ nl p) (D ++ [r.moveTo p]) R
      ((r.moveTo p).stop a.gcp) := by
  have hroom := h.room
  have hgrid := h.grid
  have hhigh := h.high
  have hhead := h.head
  have hnlarena := hnl.arena
  have hnllist := hnl.list
  obtain ⟨-, hdvd, -⟩ := hm.placed
  obtain ⟨hle, hplaced⟩ := hm.gap_after
  have hin := hm.all_placed.mem (r := r) (by simp)
  have hpacked : Packed a.gcp a.base (D ++ [r.moveTo p]) ((r.moveTo p).stop a.gcp) :=
    Packed.snoc (r := r.moveTo p) hm.packed hdvd
  have hplacedD : Placed a.gcp a.base (D ++ [r.moveTo p] ++ []) ((r.moveTo p).stop a.gcp) :=
    hpacked.append (Or.inl rfl)
  rw [List.append_nil] at hplacedD
  have hapart : Tailq.Apart Bigslot.field nl (D.map Slot.addr ++ [p]) := by
    have happ := hplacedD.apart (q := nl) h.low (by omega) (by omega) hnl.lt
    rw [List.map_append, List.map_singleton] at happ
    exact happ
  have hnew₃ := hnew.insertTail hapart
  have hsame₃ : SameButEntries nl (D ++ [r.moveTo p]) m₂
      (Tailq.insertTail Bigslot.field m₂ nl p) := by
    intro b k hbq hx
    apply hnew.same_insertTail (hapart.clear p (by simp)) hbq
    · intro x hmem
      obtain ⟨t, ht, rfl⟩ := List.mem_map.mp hmem
      have hclear := hx t (by simp [ht])
      unfold Tailq.Clear Bigslot.field
      omega
    · have hclear : b + k ≤ p + 8 ∨ p + 24 ≤ b := hx (r.moveTo p) (by simp)
      unfold Tailq.Clear Bigslot.field
      omega
  refine ⟨hpacked, hplaced, ?_, ?_, ?_, ?_⟩
  · rw [← hm.objects]
    simp [Slot.object, Slot.moveTo]
  · exact hc.entries h (hpacked.append hplaced) hnlarena
      (hsame₃.mono fun t ht => List.mem_append_left R ht)
  · apply isQueue_entries a.base a.nxtMemslot hold hsame₃
    · omega
    · omega
    · omega
    · intro t ht
      have hup := hplaced.mem ht
      have hbound := t.addr_lt_stop a.gcp
      have hbase := hplacedD.le
      omega
    · intro t ht
      have hlow := hplacedD.mem ht
      have hbound := t.addr_lt_stop a.gcp
      omega
    · intro t ht u hu
      have hup := hplaced.mem ht
      have hlow := hplacedD.mem hu
      have hbound := u.addr_lt_stop a.gcp
      omega
  · rw [List.map_append, List.map_singleton]
    exact hnew₃

end Step

theorem Moving.compact (h : Inv a live) (hnl : Elsewhere a nl) (hm : Moving a live nl m D R p)
    (hfuel : R.length < fuel) :
    ∃ m' D' p', a.compact nl fuel m ((R.map Slot.addr).headD 0) p = some (m', p') ∧
      Moving a live nl m' D' [] p' := by
  induction R generalizing m D p fuel with
  | nil =>
    obtain ⟨fuel, rfl⟩ := Nat.exists_eq_add_of_lt hfuel
    exact ⟨m, D, p, if_pos rfl, hm⟩
  | cons r R ih =>
    obtain ⟨fuel, rfl⟩ := Nat.exists_eq_add_of_lt hfuel
    have hr : r ∈ D ++ r :: R := by simp
    have hlow := h.low
    have hbase := hm.base_le
    have hgap := hm.placed.1.le
    have hpos : r.addr ≠ 0 := by omega
    have hcheck : Bigslot.check m r.addr = true :=
      decide_eq_true (hm.contents.slot r hr).check
    obtain ⟨m₁, hremove, hnext, hc₁, hold₁, hnew₁⟩ := hm.remove h hnl
    obtain ⟨m₂, hmove, hc₂, hold₂, hnew₂⟩ := hm.down h hnl hc₁ hold₁ hnew₁
    have hcheck₁ : Bigslot.check m₁ r.addr = true := decide_eq_true (hc₁.slot r hr).check
    have hdata : Bigslot.data a.gcp m₁ r.addr = some (Bigslot.dataAt a.gcp r.addr) :=
      if_pos hcheck₁
    have hlt : p < Bigslot.dataAt a.gcp r.addr := by
      unfold Bigslot.dataAt
      omega
    have hless : R.length < (r :: R).length + fuel := by
      rw [List.length_cons]
      omega
    obtain ⟨m', D', p', hloop, hend⟩ := ih (hm.join h hnl hc₂ hold₂ hnew₂) hless
    refine ⟨m', D', p', ?_, hend⟩
    rw [List.map_cons, List.headD_cons, Arena.compact, if_neg hpos, if_pos hcheck]
    simp only [hremove, hnext, hdata, Option.bind_some, if_pos hlt, hmove]
    exact hloop

theorem Inv.tailq (h : Inv a live) (hnl : Elsewhere a nl) :
    Inv { a with mem := Tailq.tailq a.mem nl } live := by
  have hroom := h.room
  have hgrid := h.grid
  have hbase := h.placed.le
  have hnlarena := hnl.arena
  have hsame : SameButEntries nl [] a.mem (Tailq.tailq a.mem nl) :=
    fun b k hbq _ => Tailq.same_tailq hbq
  have hc : Contents a a.mem live := ⟨h.slot, h.ptr, h.check, fun p hp => (h.free p hp).2⟩
  have hc' := hc.entries h h.placed hnlarena (hsame.mono nofun)
  have hqueue : Tailq.IsQueue Bigslot.field (Tailq.tailq a.mem nl) a.memslots
      (live.map Slot.addr) := by
    apply isQueue_entries a.base a.top h.queue hsame hnl.list h.head hnlarena
    · intro t ht
      have hin := h.stop_le ht
      have hbound := t.addr_lt_stop a.gcp
      omega
    · exact nofun
    · exact fun _ _ => nofun
  exact { h with slot := hc'.slot, ptr := hc'.ptr, check := hc'.check, queue := hqueue,
                 free := fun p hp => ⟨(h.free p hp).1, hc'.free p hp⟩ }

theorem Moving.inv (h : Inv a live) (hnl : Elsewhere a nl) (hm : Moving a live nl m D [] p) :
    Inv { a with mem := m, memslots := nl } D := by
  have hplaced := hm.packed.append hm.placed
  have hobjects := hm.objects
  have hcontents := hm.contents
  rw [List.append_nil] at hplaced hobjects hcontents
  refine { h with placed := hplaced, slot := hcontents.slot, ptr := hcontents.ptr, nodup := ?_,
                  check := hcontents.check, free := ?_, queue := hm.new, head := hnl.arena,
                  head_lt := hnl.lt }
  · rw [map_ptr_of_objects hobjects]
    exact h.nodup
  · intro p hp
    exact ⟨(h.free p hp).1, hcontents.free p hp⟩

/-- `compact_memslots`: the objects are where they were or further down, and without gaps. -/
theorem Inv.compactMemslots (h : Inv a live) (hnl : Elsewhere a nl) :
    ∃ m' p' D, a.compactMemslots nl =
        some { a with mem := m', memslots := nl, nxtMemslot := p' } ∧
      Inv { a with mem := m', memslots := nl, nxtMemslot := p' } D ∧
      D.map Slot.object = live.map Slot.object ∧ Packed a.gcp a.base D p' := by
  have hroom := h.room
  have h₀ := h.tailq hnl
  generalize hm₀ : Tailq.tailq a.mem nl = m₀ at h₀
  have hnl₀ : Elsewhere { a with mem := m₀ } nl := { hnl with }
  have hempty : Tailq.IsQueue Bigslot.field m₀ nl [] := by
    rw [← hm₀]
    exact Tailq.isQueue_tailq hnl.lt
  have hstart : Moving { a with mem := m₀ } live nl m₀ [] live a.base :=
    ⟨rfl, h₀.placed, rfl, { h₀ with free := fun p hp => (h₀.free p hp).2 }, h₀.queue,
      hempty⟩
  have hlen := h.length_le
  have hfuel : live.length < a.sz + 1 := Nat.lt_succ_of_le hlen
  obtain ⟨m', D, p', hloop, hend⟩ := hstart.compact h₀ hnl₀ hfuel
  have hfirst : m₀.load 8 a.memslots = (live.map Slot.addr).headD 0 := by
    have hqueue := h₀.queue
    cases live with
    | nil => exact hqueue.last
    | cons r live => exact hqueue.load_first
  have hb := hend.inv h₀ hnl₀
  have hpacked := hend.packed
  have hle : p' ≤ a.nxtMemslot := Placed.le hend.placed
  have hobjects := hend.objects
  rw [List.append_nil] at hobjects
  refine ⟨m', p', D, ?_, ?_, hobjects, hpacked⟩
  · rw [Arena.compactMemslots]
    simp only [hm₀, h₀.sanityCheck, if_true, hfirst, hloop, Option.bind_some]
    rw [if_pos hb.sanityCheck]
  · have hplaced : Placed a.gcp a.base (D ++ []) p' := hpacked.append (Or.inl rfl)
    rw [List.append_nil] at hplaced
    refine { hb with placed := hplaced, room := ?_ }
    exact hle.trans hroom

end Sfslite.Safeptr.Gc
