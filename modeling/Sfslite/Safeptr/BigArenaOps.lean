import Sfslite.Safeptr.BigArenaInv

/-!
What the operations on objects do to an arena: an object is made, counted, written and released.
-/

namespace Sfslite.Safeptr.Gc

open Lib

variable {g lo hi : ℕ} {m m' : Memory} {a : Arena} {r t : Slot} {rs live : List Slot}
  {p q n b k i : ℕ} {xs : List ℕ}

theorem Inv.queue_congr (h : Inv a live) (hslot : ∀ r ∈ live, Memory.Same a.mem m' (r.addr + 8) 16)
    (hhead : Memory.Same a.mem m' a.memslots 16) :
    Tailq.IsQueue Bigslot.field m' a.memslots (live.map Slot.addr) := by
  apply h.queue.congr hhead
  intro x hx
  obtain ⟨r, hr, rfl⟩ := List.mem_map.mp hx
  exact hslot r hr

theorem Inv.of_free_write (h : Inv a live) (lo hi : ℕ) (hlo : a.base ≤ lo)
    (hhi : hi ≤ a.nxtPtrslot + 24) (hclear : ∀ r ∈ live, r.stop a.gcp ≤ lo ∨ hi ≤ r.addr)
    (hsame : ∀ b k, (b + k ≤ lo ∨ hi ≤ b) → Memory.Same a.mem m' b k) :
    Inv { a with mem := m' } live := by
  have hgrid := h.grid
  have hptr : ∀ p, a.IsPtr p → Memory.Same a.mem m' p 24 := by
    intro p hp
    obtain ⟨hgt, hle, hdvd⟩ := hp
    unfold Bigptr.sizeof at hle
    exact hsame p 24 (by omega)
  refine { h with slot := ?_, ptr := ?_, check := ?_, free := ?_, queue := ?_ }
  · intro r hr
    exact (h.slot r hr).congr (SameSlot.of_range hsame (hclear r hr))
  · intro r hr
    obtain ⟨hp, hms, hcount⟩ := h.ptr r hr
    refine ⟨hp, ?_, ?_⟩
    · exact (Bigptr.memslot_congr (hptr _ hp)).trans hms
    · rw [Bigptr.count_congr (hptr _ hp)]
      exact hcount
  · intro p hp
    exact (Bigptr.check_congr (hptr p hp)).trans (h.check p hp)
  · intro p hp
    obtain ⟨hptr', hcount⟩ := h.free p hp
    exact ⟨hptr', (Bigptr.count_congr (hptr p hptr')).trans hcount⟩
  · apply h.queue_congr
    · intro r hr
      have hapart := hclear r hr
      have hstop := r.addr_lt_stop a.gcp
      exact hsame _ _ (by omega)
    · have hhead := h.head
      exact hsame _ _ (by omega)

theorem Inv.of_ptr_write (h : Inv a live) (hp : a.IsPtr p)
    (hsame : ∀ b k, (b + k ≤ p ∨ p + 24 ≤ b) → Memory.Same a.mem m' b k)
    (hmagic : m'.load 4 p = Bigptr.magic)
    (hown : ∀ r ∈ live, r.ptr = p → Bigptr.memslot m' p = r.addr ∧ 0 ≤ Bigptr.count m' p)
    (hfree : p ∈ a.freePtrslots → Bigptr.count m' p = -1) : Inv { a with mem := m' } live := by
  have hge := h.ptr_ge hp
  have hbase := h.placed.le
  have hin : p + 24 ≤ a.top := hp.2.1
  have hother : ∀ q, a.IsPtr q → q ≠ p → Memory.Same a.mem m' q 24 := by
    intro q hq hne
    have hapart := hq.apart hp hne
    exact hsame q 24 (by omega)
  refine { h with slot := ?_, ptr := ?_, check := ?_, free := ?_, queue := ?_ }
  · intro r hr
    have hin := h.stop_le hr
    exact (h.slot r hr).congr (SameSlot.of_range hsame (Or.inl (hin.2.1.trans hge)))
  · intro r hr
    obtain ⟨hq, hms, hcount⟩ := h.ptr r hr
    refine ⟨hq, ?_⟩
    by_cases heq : r.ptr = p
    · have hboth := hown r hr heq
      rw [← heq] at hboth
      exact hboth
    · have hkeep := hother _ hq heq
      refine ⟨(Bigptr.memslot_congr hkeep).trans hms, ?_⟩
      rw [Bigptr.count_congr hkeep]
      exact hcount
  · intro q hq
    by_cases heq : q = p
    · rw [heq]
      exact hmagic
    · exact (Bigptr.check_congr (hother q hq heq)).trans (h.check q hq)
  · intro q hq
    obtain ⟨hptr, hcount⟩ := h.free q hq
    refine ⟨hptr, ?_⟩
    by_cases heq : q = p
    · rw [heq]
      exact hfree (heq ▸ hq)
    · exact (Bigptr.count_congr (hother q hptr heq)).trans hcount
  · apply h.queue_congr
    · intro r hr
      have hin := h.stop_le hr
      have hstop := r.addr_lt_stop a.gcp
      exact hsame _ _ (by omega)
    · have hhead := h.head
      exact hsame _ _ (by omega)

theorem Inv.setCount {c : ℤ} (h : Inv a live) (hr : r ∈ live) (hlo : 0 ≤ c) (hhi : c < 2 ^ 31) :
    Inv { a with mem := Bigptr.setCount a.mem r.ptr c } live := by
  obtain ⟨hp, hms, -⟩ := h.ptr r hr
  have hval : Bigptr.count (Bigptr.setCount a.mem r.ptr c) r.ptr = c :=
    Bigptr.count_setCount (by omega) hhi
  apply h.of_ptr_write hp
  · intro b k hbk
    exact Bigptr.same_setCount (by omega)
  · have hkeep : Memory.Same a.mem (Bigptr.setCount a.mem r.ptr c) r.ptr 4 :=
      Bigptr.same_setCount (by omega)
    exact hkeep.load.trans (h.check _ hp)
  · intro t ht heq
    have hkeep : Memory.Same a.mem (Bigptr.setCount a.mem r.ptr c) (r.ptr + 8) 8 :=
      Bigptr.same_setCount (by omega)
    have hms' : Bigptr.memslot a.mem r.ptr = t.addr := by
      rw [← heq]
      exact (h.ptr t ht).2.1
    exact ⟨hkeep.load.trans hms', by rw [hval]; exact hlo⟩
  · intro hfree
    have hcount := (h.free _ hfree).2
    have hlive := (h.ptr r hr).2.2
    omega

theorem checkSlots_of_linked {c fuel : ℕ} (hlinked : Tailq.Linked Bigslot.field m c xs)
    (hlast : m.load 8 (Tailq.endOf Bigslot.field c xs) = 0)
    (hall : ∀ x ∈ xs, x ≠ 0 ∧ m.load 4 x = Bigslot.magic) (hfuel : xs.length < fuel) :
    Arena.checkSlots m fuel (m.load 8 c) = true := by
  induction xs generalizing c fuel with
  | nil =>
    obtain ⟨fuel, rfl⟩ := Nat.exists_eq_add_of_lt hfuel
    have hnull : m.load 8 c = 0 := hlast
    rw [Arena.checkSlots, if_pos hnull]
  | cons x xs ih =>
    obtain ⟨hget, -, hrest⟩ := hlinked
    obtain ⟨fuel, rfl⟩ := Nat.exists_eq_add_of_lt hfuel
    obtain ⟨hpos, hmagic⟩ := hall x List.mem_cons_self
    have hcheck : Bigslot.check m x = true := decide_eq_true hmagic
    have htail : Arena.checkSlots m ((x :: xs).length + fuel)
        (Tailq.next Bigslot.field m x) = true := by
      apply ih hrest hlast
      · intro y hy
        exact hall y (List.mem_cons_of_mem _ hy)
      · rw [List.length_cons]
        omega
    rw [Arena.checkSlots, hget, if_neg hpos, hcheck, htail]
    rfl

theorem checkPtrs_of_magic {top fuel : ℕ} (hgrid : 24 ∣ top - p) (hle : p ≤ top)
    (hall : ∀ q, p ≤ q → q + 24 ≤ top → 24 ∣ top - q → m.load 4 q = Bigptr.magic)
    (hfuel : top - p < fuel) : Arena.checkPtrs m top fuel p = true := by
  induction fuel generalizing p with
  | zero => exact absurd hfuel (Nat.not_lt_zero _)
  | succ fuel ih =>
    rw [Arena.checkPtrs]
    by_cases hlt : p < top
    · have hmagic : m.load 4 p = Bigptr.magic := hall p (le_refl p) (by omega) hgrid
      have hcheck : Bigptr.check m p = true := decide_eq_true hmagic
      have htail : Arena.checkPtrs m top fuel (p + Bigptr.sizeof) = true := by
        unfold Bigptr.sizeof
        apply ih
        · omega
        · omega
        · intro q hq hq' hdvd
          exact hall q (by omega) hq' hdvd
        · omega
      rw [if_pos hlt, hcheck, htail]
      rfl
    · rw [if_neg hlt]

theorem sanityCheck_of_queue (htop : a.top = a.base + a.sz)
    (hgrid : a.nxtPtrslot + 24 ≤ a.top ∧ 24 ∣ a.top - a.nxtPtrslot)
    (hlow : a.base ≤ a.nxtPtrslot + 24) (hcheck : ∀ p, a.IsPtr p → a.mem.load 4 p = Bigptr.magic)
    (hfree : ∀ p ∈ a.freePtrslots, a.IsPtr p)
    (hqueue : Tailq.IsQueue Bigslot.field a.mem a.memslots xs)
    (hall : ∀ x ∈ xs, x ≠ 0 ∧ a.mem.load 4 x = Bigslot.magic) (hlen : xs.length ≤ a.sz) :
    a.sanityCheck = true := by
  have hslots : Arena.checkSlots a.mem (a.sz + 1) (a.mem.load 8 a.memslots) = true :=
    checkSlots_of_linked hqueue.linked hqueue.last hall (by omega)
  have hptrs : Arena.checkPtrs a.mem a.top (a.sz + 1) (a.nxtPtrslot + Bigptr.sizeof) = true := by
    unfold Bigptr.sizeof
    apply checkPtrs_of_magic
    · omega
    · omega
    · intro q hq hq' hdvd
      exact hcheck q ⟨by omega, hq', hdvd⟩
    · omega
  have hback : a.freePtrslots.head?.all (fun p => a.nxtPtrslot + Bigptr.sizeof ≤ p) = true := by
    cases hf : a.freePtrslots with
    | nil => rfl
    | cons p rest =>
      obtain ⟨hgt, hle, hdvd⟩ := hfree p (by simp [hf])
      unfold Bigptr.sizeof at hle
      rw [List.head?_cons, Option.all_some]
      apply decide_eq_true
      unfold Bigptr.sizeof
      omega
  rw [Arena.sanityCheck, hslots, hback, hptrs]
  rfl

theorem Placed.length_le (h : Placed g lo rs hi) : lo + rs.length ≤ hi := by
  induction rs generalizing lo with
  | nil => exact Gap.le h
  | cons r rs ih =>
    have hgap := h.1.le
    have hstop := r.addr_lt_stop g
    have hrest := ih h.2.2
    rw [List.length_cons]
    omega

theorem Inv.length_le (h : Inv a live) : live.length ≤ a.sz := by
  have hlen := h.placed.length_le
  have hroom := h.room
  have hgrid := h.grid
  have htop := h.top_eq
  omega

theorem Inv.addr_magic (h : Inv a live) :
    ∀ x ∈ live.map Slot.addr, x ≠ 0 ∧ a.mem.load 4 x = Bigslot.magic := by
  intro x hx
  have hpos := h.apart.pos x hx
  obtain ⟨r, hr, rfl⟩ := List.mem_map.mp hx
  exact ⟨hpos, (h.slot r hr).check⟩

theorem Inv.sanityCheck (h : Inv a live) : a.sanityCheck = true := by
  have hbase := h.placed.le
  have hroom := h.room
  apply sanityCheck_of_queue h.top_eq h.grid (by omega) h.check (fun p hp => (h.free p hp).1)
    h.queue h.addr_magic
  rw [List.length_map]
  exact h.length_le

theorem Inv.same_remove (h : Inv a (rs ++ r :: live)) :
    SameButEntries a.memslots (rs ++ r :: live) a.mem
      (Tailq.remove Bigslot.field a.mem a.memslots r.addr) := by
  intro b k hhead hx
  have hqueue := h.queue
  have hapart := h.apart
  rw [List.map_append, List.map_cons] at hqueue hapart
  apply hqueue.same_remove hapart hhead
  intro x hmem
  rw [← List.map_cons, ← List.map_append] at hmem
  obtain ⟨t, ht, rfl⟩ := List.mem_map.mp hmem
  have hclear := hx t ht
  unfold Tailq.Clear Bigslot.field
  omega

theorem Inv.queueRemove (h : Inv a (rs ++ r :: live)) :
    Inv { a with mem := Tailq.remove Bigslot.field a.mem a.memslots r.addr } (rs ++ live) := by
  have hqueue := h.queue
  have hapart := h.apart
  rw [List.map_append, List.map_cons] at hqueue hapart
  have hsub : (rs ++ live).Sublist (rs ++ r :: live) :=
    (List.sublist_cons_self r live).append_left rs
  have hsame := h.same_remove
  have hrest := hqueue.remove hapart
  rw [← List.map_append] at hrest
  generalize Tailq.remove Bigslot.field a.mem a.memslots r.addr = m at hsame hrest ⊢
  have hkeep : ∀ p, a.IsPtr p → Memory.Same a.mem m p 24 :=
    fun p hp => h.placed.samePtr (h.ptr_ge hp) (h.ptr_clear hp) hsame
  refine { h with placed := h.placed.remove, slot := ?_, ptr := ?_, nodup := ?_, check := ?_,
                  free := ?_, queue := ?_ }
  · intro t ht
    exact (h.slot t (hsub.mem ht)).congr (h.placed.sameSlot (hsub.mem ht) h.head_clear hsame)
  · intro t ht
    obtain ⟨hp, hms, hcount⟩ := h.ptr t (hsub.mem ht)
    have hkeep := hkeep t.ptr hp
    refine ⟨hp, (Bigptr.memslot_congr hkeep).trans hms, ?_⟩
    rw [Bigptr.count_congr hkeep]
    exact hcount
  · exact h.nodup.sublist (hsub.map _)
  · intro p hp
    exact (Bigptr.check_congr (hkeep p hp)).trans (h.check p hp)
  · intro p hp
    obtain ⟨hptr, hcount⟩ := h.free p hp
    exact ⟨hptr, (Bigptr.count_congr (hkeep p hptr)).trans hcount⟩
  · exact hrest

theorem Arena.same_markDeallocated (a : Arena) (h : b + k ≤ p ∨ p + n ≤ b) :
    Memory.Same m (a.markDeallocated m p n) b k := by
  unfold Arena.markDeallocated
  split
  · exact Memory.same_fill h
  · exact Memory.Same.refl m b k

theorem Arena.same_markUnitialized (a : Arena) (h : b + k ≤ p ∨ p + n ≤ b) :
    Memory.Same m (a.markUnitialized m p n) b k := by
  unfold Arena.markUnitialized
  split
  · exact Memory.same_fill h
  · exact Memory.Same.refl m b k

theorem Inv.others_clear (h : Inv a (rs ++ r :: live)) :
    ∀ t ∈ rs ++ live, t.stop a.gcp ≤ r.addr ∨ r.stop a.gcp ≤ t.addr := by
  obtain ⟨-, hp, hpe⟩ := List.pairwise_append.mp h.placed.pairwise
  intro t ht
  rcases List.mem_append.mp ht with ht | ht
  · exact Or.inl (hpe t ht r List.mem_cons_self)
  · exact Or.inr ((List.pairwise_cons.mp hp).1 t ht)

theorem Inv.size_eq (h : Inv a live) (hr : r ∈ live) (hsame : SameSlot a.gcp a.mem m' r) :
    Bigslot.size a.gcp m' r.addr = some (r.size + Bigslot.sizeof a.gcp) := by
  have hslot := (h.slot r hr).congr hsame
  have hin := h.stop_le hr
  have hroom := h.room
  have hgrid := h.grid
  have hhigh := h.high
  have hcheck : Bigslot.check m' r.addr = true := decide_eq_true hslot.check
  unfold Slot.stop at hin
  rw [Bigslot.size, if_pos hcheck, hslot.sz, Bigslot.sizeOf_eq hin.2.2 (by omega)]

theorem Inv.ptr_ne (h : Inv a (rs ++ r :: live)) : ∀ t ∈ rs ++ live, t.ptr ≠ r.ptr := by
  have hnodup := h.nodup
  rw [List.map_append, List.map_cons] at hnodup
  have hnot := (List.nodup_cons.mp (List.perm_middle.nodup_iff.mp hnodup)).1
  intro t ht heq
  rw [← List.map_append] at hnot
  exact hnot (List.mem_map.mpr ⟨t, ht, heq⟩)

theorem Inv.deallocate (h : Inv a (rs ++ r :: live)) (hcount : Bigptr.count a.mem r.ptr = 0) :
    ∃ m' u, a.deallocate r.ptr = some { a with mem := m', unclaimedSpace := u } ∧
      Inv { a with mem := m', unclaimedSpace := u } (rs ++ live) := by
  have hr : r ∈ rs ++ r :: live := by simp
  obtain ⟨hp, hms, -⟩ := h.ptr r hr
  have hin := h.stop_le hr
  have hge := h.ptr_ge hp
  have hple : r.ptr + 24 ≤ a.top := hp.2.1
  have hroom := h.room
  have hgrid := h.grid
  have hstop := r.addr_lt_stop a.gcp
  have hslot := h.slot r hr
  generalize hm : Tailq.remove Bigslot.field a.mem a.memslots r.addr = m
  have hsame := h.same_remove
  rw [hm] at hsame
  have hsize := h.size_eq hr (h.placed.sameSlot hr h.head_clear hsame)
  have hcheck : Bigslot.check a.mem r.addr = true := decide_eq_true hslot.check
  have hpcheck : Bigptr.check a.mem r.ptr = true := decide_eq_true (h.check _ hp)
  have hdata : Bigslot.data a.gcp a.mem r.addr = some (Bigslot.dataAt a.gcp r.addr) :=
    if_pos hcheck
  have hhas : a.has (Bigslot.dataAt a.gcp r.addr) = true := by
    have htop := h.top_eq
    rw [Arena.has, Bool.and_eq_true, decide_eq_true_eq, decide_eq_true_eq]
    unfold Bigslot.dataAt
    omega
  have hremoved := h.queueRemove
  rw [hm] at hremoved
  generalize hu : (a.unclaimedSpace + (r.size + Bigslot.sizeof a.gcp)) % 2 ^ 64 = u
  have hb : Inv { a with mem := m, unclaimedSpace := u } (rs ++ live) := { hremoved with }
  have hremove : a.remove r.addr = some { a with mem := m, unclaimedSpace := u } := by
    rw [Arena.remove, if_pos h.sanityCheck]
    simp only [hm, hsize, Option.bind_some, hu]
    rw [if_pos hb.sanityCheck]
  generalize hm₂ : a.markDeallocated m r.addr (r.size + Bigslot.sizeof a.gcp) = m₂
  have hslotgone : a.deallocateSlot r.addr =
      some { a with mem := m₂, unclaimedSpace := u } := by
    rw [Arena.deallocateSlot, if_pos hcheck, hremove, Option.bind_some]
    simp only [hsize, Option.bind_some]
    rw [← hm₂]
    rfl
  have hc : Inv { a with mem := m₂, unclaimedSpace := u } (rs ++ live) := by
    refine hb.of_free_write r.addr (r.stop a.gcp) hin.1 ?_ h.others_clear ?_
    · exact hin.2.1.trans hroom
    · intro b k hbk
      rw [← hm₂]
      unfold Slot.stop at hbk
      exact a.same_markDeallocated (by omega)
  have hpcheck' : Bigptr.check m₂ r.ptr = true := decide_eq_true (hc.check r.ptr hp)
  refine ⟨Bigptr.setCount m₂ r.ptr (-1), u, ?_, ?_⟩
  · rw [Arena.deallocate, if_pos ⟨hpcheck, hcount⟩, hms, hdata, Option.bind_some, if_pos hhas,
      hslotgone, Option.bind_some]
    exact if_pos hpcheck'
  · have hval : Bigptr.count (Bigptr.setCount m₂ r.ptr (-1)) r.ptr = -1 :=
      Bigptr.count_setCount (by omega) (by omega)
    refine hc.of_ptr_write (p := r.ptr) hp ?_ ?_ ?_ ?_
    · intro b k hbk
      exact Bigptr.same_setCount (by omega)
    · have hkeep : Memory.Same m₂ (Bigptr.setCount m₂ r.ptr (-1)) r.ptr 4 :=
        Bigptr.same_setCount (by omega)
      exact hkeep.load.trans (hc.check r.ptr hp)
    · intro t ht heq
      exact absurd heq (h.ptr_ne t ht)
    · intro _
      exact hval

/-- The slot with another byte at `i`. -/
def Slot.set (r : Slot) (i : ℕ) (b : UInt8) : Slot :=
  { r with byte := Function.update r.byte i b }

theorem SlotAt.set (h : SlotAt g m r) (c : UInt8) :
    SlotAt g (m.fill (Bigslot.dataAt g r.addr + i) 1 c) (r.set i c) := by
  have hsame : ∀ b k, (b + k ≤ r.addr + 40 + g + i ∨ r.addr + 40 + g + i + 1 ≤ b) →
      Memory.Same m (m.fill (Bigslot.dataAt g r.addr + i) 1 c) b k :=
    fun b k hbk => Memory.same_fill hbk
  refine ⟨?_, ?_, ?_, ?_⟩
  · exact (hsame r.addr 4 (by omega)).load.trans h.check
  · exact (hsame (r.addr + 24) 8 (by omega)).load.trans h.sz
  · exact (hsame (r.addr + 32) 8 (by omega)).load.trans h.ptrslot
  · intro j hj
    by_cases hji : j = i
    · subst hji
      have hval : (r.set j c).byte j = c := Function.update_self _ _ _
      rw [hval]
      exact if_pos ⟨le_refl _, Nat.lt_succ_self _⟩
    · have hval : (r.set i c).byte j = r.byte j := Function.update_of_ne hji _ _
      rw [hval, ← h.byte j hj]
      apply hsame _ 1 _ _ (le_refl _) (Nat.lt_succ_self _)
      unfold Slot.set Bigslot.dataAt
      simp only
      omega

theorem Inv.write {c : UInt8} (h : Inv a (rs ++ r :: live)) (hi : i < r.size) :
    ∃ m', a.write r.ptr i c = some { a with mem := m' } ∧
      Inv { a with mem := m' } (rs ++ r.set i c :: live) := by
  have hr : r ∈ rs ++ r :: live := by simp
  obtain ⟨hp, hms, -⟩ := h.ptr r hr
  have hslot := h.slot r hr
  have hin := h.stop_le hr
  have hstop := r.addr_lt_stop a.gcp
  have hroom := h.room
  have hgrid := h.grid
  have hcheck : Bigslot.check a.mem r.addr = true := decide_eq_true hslot.check
  have hdata : Bigslot.data a.gcp a.mem r.addr = some (Bigslot.dataAt a.gcp r.addr) :=
    if_pos hcheck
  have hset : ∀ t ∈ rs ++ r.set i c :: live, ∃ t₀ ∈ rs ++ r :: live,
      t₀.addr = t.addr ∧ t₀.ptr = t.ptr := by
    intro t ht
    rcases List.mem_append.mp ht with ht | ht
    · exact ⟨t, by simp [ht], rfl, rfl⟩
    · rcases List.mem_cons.mp ht with rfl | ht
      · exact ⟨r, hr, rfl, rfl⟩
      · exact ⟨t, by simp [ht], rfl, rfl⟩
  refine ⟨a.mem.fill (Bigslot.dataAt a.gcp r.addr + i) 1 c, ?_, ?_⟩
  · rw [Arena.write, hms, hdata]
    rfl
  generalize hm : a.mem.fill (Bigslot.dataAt a.gcp r.addr + i) 1 c = m
  have hsame : ∀ b k, (b + k ≤ r.addr + 40 + a.gcp + i ∨ r.addr + 40 + a.gcp + i + 1 ≤ b) →
      Memory.Same a.mem m b k := by
    intro b k hbk
    rw [← hm]
    unfold Bigslot.dataAt
    exact Memory.same_fill hbk
  have hptr : ∀ p, a.IsPtr p → Memory.Same a.mem m p 24 := by
    intro p hp
    have hge := h.ptr_ge hp
    exact hsame _ _ (by omega)
  refine { h with placed := ?_, slot := ?_, ptr := ?_, nodup := ?_, check := ?_, free := ?_,
                  queue := ?_ }
  · obtain ⟨hbelow, hdvd, habove⟩ := placed_append.mp h.placed
    exact placed_append.mpr ⟨hbelow, hdvd, habove⟩
  · intro t ht
    have hothers := h.others_clear
    rcases List.mem_append.mp ht with hmem | hmem
    · have hclear := hothers t (by simp [hmem])
      exact (h.slot t (by simp [hmem])).congr (SameSlot.of_range hsame (by omega))
    rcases List.mem_cons.mp hmem with rfl | hmem
    · have hnew := hslot.set (i := i) c
      rw [hm] at hnew
      exact hnew
    · have hclear := hothers t (by simp [hmem])
      exact (h.slot t (by simp [hmem])).congr (SameSlot.of_range hsame (by omega))
  · intro t ht
    obtain ⟨t₀, ht₀, haddr, hptr'⟩ := hset t ht
    obtain ⟨hp, hms, hcount⟩ := h.ptr t₀ ht₀
    rw [← haddr, ← hptr']
    refine ⟨hp, (Bigptr.memslot_congr (hptr _ hp)).trans hms, ?_⟩
    rw [Bigptr.count_congr (hptr _ hp)]
    exact hcount
  · have hnodup := h.nodup
    rw [List.map_append, List.map_cons] at hnodup ⊢
    exact hnodup
  · intro p hp
    exact (Bigptr.check_congr (hptr p hp)).trans (h.check p hp)
  · intro p hp
    obtain ⟨hp, hcount⟩ := h.free p hp
    exact ⟨hp, (Bigptr.count_congr (hptr p hp)).trans hcount⟩
  · have hqueue : Tailq.IsQueue Bigslot.field m a.memslots
        ((rs ++ r :: live).map Slot.addr) := by
      apply h.queue_congr
      · intro t ht
        have hclear := h.others_clear
        have hbelow := t.addr_lt_stop a.gcp
        rcases List.mem_append.mp ht with hmem | hmem
        · have hclear := hclear t (by simp [hmem])
          exact hsame _ _ (by omega)
        rcases List.mem_cons.mp hmem with rfl | hmem
        · exact hsame _ _ (by omega)
        · have hclear := hclear t (by simp [hmem])
          exact hsame _ _ (by omega)
      · have hhead := h.head
        exact hsame _ _ (by omega)
    rw [List.map_append, List.map_cons] at hqueue ⊢
    exact hqueue

end Sfslite.Safeptr.Gc
