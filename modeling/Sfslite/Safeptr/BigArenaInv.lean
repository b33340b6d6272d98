import Sfslite.Safeptr.BigArena

/-!
The invariant of an arena: where its memory slots and pointer slots are and what they hold.
-/

namespace Sfslite.Safeptr.Gc

open Lib

theorem boaObjAlign_eq {n : ℕ} (h : n + 7 < 2 ^ 64) : boaObjAlign n = (n + 7) / 8 * 8 := by
  have hmask : (~~~(8 - 1 : BitVec 64)).toNat = (2 ^ 61 - 1) * 2 ^ 3 := by decide
  have hsum : (BitVec.ofNat 64 n + (8 - 1)).toNat = n + 7 := by
    have hn : n < 2 ^ 64 := by omega
    rw [BitVec.toNat_add, BitVec.toNat_ofNat, Nat.mod_eq_of_lt hn]
    exact Nat.mod_eq_of_lt h
  have hval : boaObjAlign n = (n + 7) &&& ((2 ^ 61 - 1) * 2 ^ 3) := by
    rw [boaObjAlign, align, BitVec.toNat_and, hmask, hsum]
  rw [hval]
  apply Nat.eq_of_testBit_eq
  intro i
  have hbit : (n + 7).testBit i = true → i < 64 := by
    intro hset
    by_contra hge
    have hle : 2 ^ i ≤ n + 7 := Nat.ge_two_pow_of_testBit hset
    have hpow : 2 ^ 64 ≤ 2 ^ i := Nat.pow_le_pow_right (by omega) (by omega)
    omega
  have height : (8 : ℕ) = 2 ^ 3 := rfl
  rw [Nat.testBit_and, Nat.testBit_mul_two_pow, Nat.testBit_two_pow_sub_one, height,
    Nat.testBit_mul_two_pow, Nat.testBit_div_two_pow]
  by_cases hi : 3 ≤ i
  · rw [Nat.sub_add_cancel hi]
    cases hset : (n + 7).testBit i with
    | false => simp
    | true =>
      have hlt := hbit hset
      simp only [hi, decide_true, Bool.true_and, decide_eq_true_eq]
      omega
  · simp [hi]

theorem boaObjAlign_of_dvd {n : ℕ} (h : 8 ∣ n) (hn : n < 2 ^ 64) : boaObjAlign n = n := by
  have hlt : n + 7 < 2 ^ 64 := by omega
  rw [boaObjAlign_eq hlt]
  omega

theorem Bigslot.le_sizeof (g : ℕ) : 40 + g ≤ Bigslot.sizeof g := by
  unfold Bigslot.sizeof
  omega

theorem Bigslot.sizeOf_eq {g n : ℕ} (h : 8 ∣ n) (hn : n + Bigslot.sizeof g < 2 ^ 64) :
    Bigslot.sizeOf g n = n + Bigslot.sizeof g := by
  have hlt : n < 2 ^ 64 := by omega
  rw [Bigslot.sizeOf, boaObjAlign_of_dvd h hlt, Nat.mod_eq_of_lt hn]

/-- A memory slot that is in use: where it is, its pointer slot, and the object in it. -/
structure Slot where
  addr : ℕ
  ptr : ℕ
  size : ℕ
  byte : ℕ → UInt8

def Slot.stop (g : ℕ) (r : Slot) : ℕ :=
  r.addr + r.size + Bigslot.sizeof g

/-- The slot is there, apart from its place in the list. -/
structure SlotAt (g : ℕ) (m : Memory) (r : Slot) : Prop where
  check : m.load 4 r.addr = Bigslot.magic
  sz : Bigslot.sz m r.addr = r.size
  ptrslot : Bigslot.ptrslot m r.addr = r.ptr
  byte : ∀ i < r.size, m (Bigslot.dataAt g r.addr + i) = r.byte i

/-- Two slots follow each other without room for a slot's header between them, or with that. -/
def Gap (g lo hi : ℕ) : Prop :=
  lo = hi ∨ lo + Bigslot.sizeof g ≤ hi

/-- The slots are in address order between `lo` and `hi`. -/
def Placed (g : ℕ) : ℕ → List Slot → ℕ → Prop
  | lo, [], hi => Gap g lo hi
  | lo, r :: rs, hi => Gap g lo r.addr ∧ 8 ∣ r.size ∧ Placed g (r.stop g) rs hi

/-- A pointer slot that has been handed out. -/
def Arena.IsPtr (a : Arena) (p : ℕ) : Prop :=
  a.nxtPtrslot < p ∧ p + Bigptr.sizeof ≤ a.top ∧ 24 ∣ a.top - p

/-- The slots in use are `live`, in address order. -/
structure Inv (a : Arena) (live : List Slot) : Prop where
  top_eq : a.top = a.base + a.sz
  low : 24 ≤ a.base
  high : a.top < 2 ^ 64
  grid : a.nxtPtrslot + 24 ≤ a.top ∧ 24 ∣ a.top - a.nxtPtrslot
  room : a.nxtMemslot ≤ a.nxtPtrslot + 24
  placed : Placed a.gcp a.base live a.nxtMemslot
  slot : ∀ r ∈ live, SlotAt a.gcp a.mem r
  ptr : ∀ r ∈ live, a.IsPtr r.ptr ∧ Bigptr.memslot a.mem r.ptr = r.addr ∧
    0 ≤ Bigptr.count a.mem r.ptr
  nodup : (live.map Slot.ptr).Nodup
  check : ∀ p, a.IsPtr p → a.mem.load 4 p = Bigptr.magic
  free : ∀ p ∈ a.freePtrslots, a.IsPtr p ∧ Bigptr.count a.mem p = -1
  free_nodup : a.freePtrslots.Nodup
  queue : Tailq.IsQueue Bigslot.field a.mem a.memslots (live.map Slot.addr)
  head : a.memslots + 16 ≤ a.base ∨ a.top ≤ a.memslots
  head_lt : a.memslots < 2 ^ 64

variable {g lo mid hi : ℕ} {m m' : Memory} {a : Arena} {r t : Slot} {rs live : List Slot}
  {p q n b k : ℕ}

theorem Gap.le (h : Gap g lo hi) : lo ≤ hi := by
  unfold Gap at h
  omega

theorem Gap.trans (h : Gap g lo mid) (h' : Gap g mid hi) : Gap g lo hi := by
  unfold Gap at h h' ⊢
  omega

theorem Gap.over (h : Gap g lo r.addr) (h' : Gap g (r.stop g) hi) : Gap g lo hi := by
  unfold Slot.stop at h'
  unfold Gap at h h' ⊢
  omega

theorem Slot.addr_lt_stop (g : ℕ) (r : Slot) : r.addr + r.size + 40 + g ≤ r.stop g := by
  have hsize := Bigslot.le_sizeof g
  unfold Slot.stop
  omega

theorem Placed.le (h : Placed g lo rs hi) : lo ≤ hi := by
  induction rs generalizing lo with
  | nil => exact Gap.le h
  | cons r rs ih =>
    have hgap := h.1.le
    have hstop := r.addr_lt_stop g
    have hrest := ih h.2.2
    omega

theorem placed_append : Placed g lo (rs ++ r :: live) hi ↔
    Placed g lo rs r.addr ∧ 8 ∣ r.size ∧ Placed g (r.stop g) live hi := by
  induction rs generalizing lo with
  | nil => exact Iff.rfl
  | cons t rs ih =>
    simp only [List.cons_append, Placed, ih]
    tauto

theorem Placed.mem (h : Placed g lo rs hi) (hr : r ∈ rs) :
    lo ≤ r.addr ∧ r.stop g ≤ hi ∧ 8 ∣ r.size := by
  obtain ⟨xs, ys, rfl⟩ := List.append_of_mem hr
  obtain ⟨hbelow, hdvd, habove⟩ := placed_append.mp h
  exact ⟨hbelow.le, habove.le, hdvd⟩

theorem Placed.pairwise (h : Placed g lo rs hi) : rs.Pairwise (fun r t => r.stop g ≤ t.addr) := by
  induction rs generalizing lo with
  | nil => exact List.Pairwise.nil
  | cons r rs ih =>
    refine List.pairwise_cons.mpr ⟨?_, ih h.2.2⟩
    intro t ht
    exact (h.2.2.mem ht).1

theorem Placed.remove (h : Placed g lo (rs ++ r :: live) hi) : Placed g lo (rs ++ live) hi := by
  induction rs generalizing lo with
  | nil =>
    obtain ⟨hgap, -, hrest⟩ := h
    cases live with
    | nil => exact hgap.over hrest
    | cons t live => exact ⟨hgap.over hrest.1, hrest.2⟩
  | cons t rs ih => exact ⟨h.1, h.2.1, ih h.2.2⟩

/-- The bytes of a slot but for its place in the list. -/
def SameSlot (g : ℕ) (m m' : Memory) (r : Slot) : Prop :=
  Memory.Same m m' r.addr 4 ∧ Memory.Same m m' (r.addr + 24) (16 + g + r.size)

theorem SlotAt.congr (h : SlotAt g m r) (hs : SameSlot g m m' r) : SlotAt g m' r where
  check := hs.1.load.trans h.check
  sz := by
    have hsz : Memory.Same m m' (r.addr + 24) 8 := hs.2.sub (by omega) (by omega)
    exact hsz.load.trans h.sz
  ptrslot := by
    have hptr : Memory.Same m m' (r.addr + 32) 8 := hs.2.sub (by omega) (by omega)
    exact hptr.load.trans h.ptrslot
  byte i hi := by
    have hbyte := h.byte i hi
    unfold Bigslot.dataAt at hbyte ⊢
    rw [← hbyte]
    apply hs.2
    · omega
    · omega

theorem SameSlot.of_range (h : ∀ b k, (b + k ≤ lo ∨ hi ≤ b) → Memory.Same m m' b k)
    (hr : r.stop g ≤ lo ∨ hi ≤ r.addr) : SameSlot g m m' r := by
  have hstop := r.addr_lt_stop g
  constructor
  · exact h _ _ (by omega)
  · exact h _ _ (by omega)

theorem Bigptr.check_congr (h : Memory.Same m m' p 24) : m'.load 4 p = m.load 4 p :=
  (h.sub (le_refl p) (by omega)).load

theorem Bigptr.memslot_congr (h : Memory.Same m m' p 24) :
    Bigptr.memslot m' p = Bigptr.memslot m p :=
  (h.sub (by omega) (by omega)).load

theorem Bigptr.count_congr (h : Memory.Same m m' p 24) : Bigptr.count m' p = Bigptr.count m p := by
  have hload : m'.load 4 (p + 16) = m.load 4 (p + 16) := (h.sub (by omega) (by omega)).load
  rw [Bigptr.count, Bigptr.count, hload]

theorem Bigptr.count_setCount {i : ℤ} (hlo : -2 ^ 31 ≤ i) (hhi : i < 2 ^ 31) :
    Bigptr.count (Bigptr.setCount m p i) p = i := by
  have hlt : (BitVec.ofInt 32 i).toNat < 256 ^ 4 := (BitVec.ofInt 32 i).isLt
  rw [Bigptr.count, Bigptr.setCount, Memory.load_store_of_lt hlt, BitVec.ofNat_toNat,
    BitVec.setWidth_eq, BitVec.toInt_ofInt]
  apply Int.bmod_eq_of_le
  · omega
  · omega

theorem Bigptr.same_setCount {i : ℤ} (h : b + k ≤ p + 16 ∨ p + 20 ≤ b) :
    Memory.Same m (Bigptr.setCount m p i) b k :=
  Memory.same_store (by omega)

theorem Bigptr.same_setMemSlot {ms : ℕ} (h : b + k ≤ p + 8 ∨ p + 16 ≤ b) :
    Memory.Same m (Bigptr.setMemSlot m p ms) b k :=
  Memory.same_store (by omega)

theorem Bigptr.same_bigptr {ms : ℕ} (h : b + k ≤ p ∨ p + 24 ≤ b) :
    Memory.Same m (Bigptr.bigptr m p ms) b k := by
  have hslot : Memory.Same m (Bigptr.setMemSlot m p ms) b k := Bigptr.same_setMemSlot (by omega)
  have hcount : Memory.Same (Bigptr.setMemSlot m p ms)
      (Bigptr.setCount (Bigptr.setMemSlot m p ms) p 0) b k := Bigptr.same_setCount (by omega)
  exact (hslot.trans hcount).trans (Memory.same_store (by omega))

theorem Arena.IsPtr.apart (hp : a.IsPtr p) (hq : a.IsPtr q) (hne : p ≠ q) :
    p + 24 ≤ q ∨ q + 24 ≤ p := by
  obtain ⟨-, hp, hdp⟩ := hp
  obtain ⟨-, hq, hdq⟩ := hq
  unfold Bigptr.sizeof at hp hq
  omega

theorem Inv.ptr_ge (h : Inv a live) (hp : a.IsPtr p) : a.nxtMemslot ≤ p := by
  obtain ⟨hgt, hle, hdvd⟩ := hp
  have hgrid := h.grid
  have hroom := h.room
  unfold Bigptr.sizeof at hle
  omega

theorem Inv.stop_le (h : Inv a live) (hr : r ∈ live) :
    a.base ≤ r.addr ∧ r.stop a.gcp ≤ a.nxtMemslot ∧ 8 ∣ r.size :=
  h.placed.mem hr

theorem Placed.apart (h : Placed g lo rs hi) (hlow : 24 ≤ lo) (hhigh : hi < 2 ^ 64)
    (hhead : q + 16 ≤ lo ∨ hi ≤ q) (hlt : q < 2 ^ 64) :
    Tailq.Apart Bigslot.field q (rs.map Slot.addr) where
  pairwise := by
    rw [List.pairwise_map]
    refine h.pairwise.imp ?_
    intro r t hrt
    have hstop := r.addr_lt_stop g
    omega
  clear x hx := by
    obtain ⟨r, hr, rfl⟩ := List.mem_map.mp hx
    have hin := h.mem hr
    have hstop := r.addr_lt_stop g
    unfold Tailq.Clear Bigslot.field
    omega
  pos x hx := by
    obtain ⟨r, hr, rfl⟩ := List.mem_map.mp hx
    have hin := h.mem hr
    omega
  bound x hx := by
    obtain ⟨r, hr, rfl⟩ := List.mem_map.mp hx
    have hin := h.mem hr
    have hstop := r.addr_lt_stop g
    unfold Bigslot.field
    omega
  bound_head := hlt

/-- What is in the entries of a list alone. -/
def SameButEntries (q : ℕ) (rs : List Slot) (m m' : Memory) : Prop :=
  ∀ b k, (b + k ≤ q ∨ q + 16 ≤ b) → (∀ t ∈ rs, b + k ≤ t.addr + 8 ∨ t.addr + 24 ≤ b) →
    Memory.Same m m' b k

theorem Placed.sameSlot (h : Placed g lo rs hi) (hr : r ∈ rs)
    (hhead : q + 16 ≤ lo ∨ hi ≤ q) (hsame : SameButEntries q rs m m') : SameSlot g m m' r := by
  have hin := h.mem hr
  have hstop := r.addr_lt_stop g
  obtain ⟨xs, ys, rfl⟩ := List.append_of_mem hr
  obtain ⟨-, hp, hpe⟩ := List.pairwise_append.mp h.pairwise
  have hother : ∀ t ∈ xs ++ r :: ys, t = r ∨ t.stop g ≤ r.addr ∨ r.stop g ≤ t.addr := by
    intro t ht
    rcases List.mem_append.mp ht with ht | ht
    · exact Or.inr (Or.inl (hpe t ht r List.mem_cons_self))
    · rcases List.mem_cons.mp ht with rfl | ht
      · exact Or.inl rfl
      · exact Or.inr (Or.inr ((List.pairwise_cons.mp hp).1 t ht))
  constructor
  · apply hsame
    · omega
    · intro t ht
      have hstop' := t.addr_lt_stop g
      rcases hother t ht with rfl | hbelow | habove
      · omega
      · omega
      · omega
  · apply hsame
    · omega
    · intro t ht
      have hstop' := t.addr_lt_stop g
      rcases hother t ht with rfl | hbelow | habove
      · omega
      · omega
      · omega

theorem Placed.samePtr (h : Placed g lo rs hi) (hp : hi ≤ p)
    (hhead : q + 16 ≤ p ∨ p + 24 ≤ q) (hsame : SameButEntries q rs m m') :
    Memory.Same m m' p 24 := by
  apply hsame
  · omega
  · intro t ht
    have hin := h.mem ht
    have hstop := t.addr_lt_stop g
    omega

theorem Inv.head_clear (h : Inv a live) : a.memslots + 16 ≤ a.base ∨ a.nxtMemslot ≤ a.memslots := by
  have hhead := h.head
  have hroom := h.room
  have hgrid := h.grid
  omega

theorem Inv.apart (h : Inv a live) : Tailq.Apart Bigslot.field a.memslots (live.map Slot.addr) := by
  have hroom := h.room
  have hgrid := h.grid
  have hhigh := h.high
  exact h.placed.apart h.low (by omega) h.head_clear h.head_lt

theorem Inv.ptr_clear (h : Inv a live) (hp : a.IsPtr p) :
    a.memslots + 16 ≤ p ∨ p + 24 ≤ a.memslots := by
  have hge := h.ptr_ge hp
  have hbase := h.placed.le
  have hin : p + 24 ≤ a.top := hp.2.1
  have hhead := h.head
  omega

end Sfslite.Safeptr.Gc
