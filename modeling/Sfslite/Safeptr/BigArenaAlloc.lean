import Sfslite.Safeptr.BigArenaOps

/-!
New arenas, and new objects: a pointer slot is taken, and a memory slot at the end of those in use.
-/

namespace Sfslite.Safeptr.Gc

open Lib

variable {g : ℕ} {m m' : Memory} {a b : Arena} {r : Slot} {live : List Slot} {p n k sz : ℕ}

theorem inv_bigobjArena {base q : ℕ} {debugMem : Bool} (hlow : 24 ≤ base)
    (hhigh : base + sz < 2 ^ 64) (hhead : q + 16 ≤ base ∨ base + sz ≤ q) (hlt : q < 2 ^ 64) :
    Inv (Arena.bigobjArena m base sz q g debugMem) [] := by
  have hgrid : base + sz - Bigptr.sizeof + 24 = base + sz := by
    unfold Bigptr.sizeof
    omega
  refine ⟨rfl, hlow, hhigh, ?_, ?_, Or.inl rfl, nofun, nofun, List.nodup_nil, ?_, nofun,
    List.nodup_nil, Tailq.isQueue_tailq hlt, hhead, hlt⟩
  · simp only [Arena.bigobjArena]
    omega
  · simp only [Arena.bigobjArena]
    omega
  · rintro p ⟨hgt, hle, -⟩
    simp only [Arena.bigobjArena] at hgt hle
    unfold Bigptr.sizeof at hgt hle
    omega

/-- The pointer slots of an arena in which one has been taken. -/
structure Taken (a b : Arena) (live : List Slot) (p : ℕ) : Prop where
  isPtr : b.IsPtr p
  notMem : p ∉ live.map Slot.ptr
  notFree : p ∉ b.freePtrslots
  low : a.nxtPtrslot ≤ b.nxtPtrslot + 24
  same : b = { a with nxtPtrslot := b.nxtPtrslot, freePtrslots := b.freePtrslots }
  inv : ∀ ms, Inv { b with mem := Bigptr.bigptr b.mem p ms } live

theorem Bigptr.load_bigptr (m : Memory) (p ms : ℕ) :
    (Bigptr.bigptr m p ms).load 4 p = Bigptr.magic :=
  Memory.load_store_of_lt (by decide)

theorem Bigptr.count_bigptr (m : Memory) (p ms : ℕ) :
    Bigptr.count (Bigptr.bigptr m p ms) p = 0 := by
  have hset : Bigptr.count (Bigptr.setCount (Bigptr.setMemSlot m p ms) p 0) p = 0 :=
    Bigptr.count_setCount (by omega) (by omega)
  have hload : (Bigptr.bigptr m p ms).load 4 (p + 16) =
      (Bigptr.setCount (Bigptr.setMemSlot m p ms) p 0).load 4 (p + 16) :=
    Memory.load_store_of_ne (by omega)
  rw [Bigptr.count, hload]
  exact hset

theorem Bigptr.memslot_bigptr {ms : ℕ} (m : Memory) (p : ℕ) (h : ms < 2 ^ 64) :
    Bigptr.memslot (Bigptr.bigptr m p ms) p = ms := by
  have hset : (Bigptr.setMemSlot m p ms).load 8 (p + 8) = ms :=
    Memory.load_store_of_lt (by norm_num; omega)
  have hcount : Memory.Same (Bigptr.setMemSlot m p ms)
      (Bigptr.setCount (Bigptr.setMemSlot m p ms) p 0) (p + 8) 8 :=
    Bigptr.same_setCount (by omega)
  exact (Memory.load_store_of_ne (by omega)).trans (hcount.load.trans hset)

theorem Inv.take_free {rest : List ℕ} (h : Inv a live) (hf : a.freePtrslots = p :: rest) :
    Taken a { a with freePtrslots := rest } live p := by
  obtain ⟨hp, hcount⟩ := h.free p (by simp [hf])
  have hnodup := h.free_nodup
  rw [hf] at hnodup
  have hnot := (List.nodup_cons.mp hnodup).1
  have hnew : p ∉ live.map Slot.ptr := by
    intro hmem
    obtain ⟨r, hr, rfl⟩ := List.mem_map.mp hmem
    have hlive := (h.ptr r hr).2.2
    omega
  have hrest : Inv { a with freePtrslots := rest } live := by
    refine { h with free := ?_, free_nodup := (List.nodup_cons.mp hnodup).2 }
    intro q hq
    exact h.free q (by simp [hf, hq])
  refine ⟨hp, hnew, hnot, Nat.le_add_right _ _, rfl, fun ms => ?_⟩
  refine hrest.of_ptr_write (p := p) hp ?_ (Bigptr.load_bigptr _ p ms) ?_ ?_
  · intro b k hbk
    exact Bigptr.same_bigptr hbk
  · intro t ht heq
    exact absurd (List.mem_map.mpr ⟨t, ht, heq⟩) hnew
  · intro hmem
    exact absurd hmem hnot

theorem Inv.take_next (h : Inv a live) (hlt : a.nxtMemslot < a.nxtPtrslot) :
    Taken a { a with nxtPtrslot := a.nxtPtrslot - Bigptr.sizeof } live a.nxtPtrslot := by
  have hlow := h.low
  have hbase := h.placed.le
  have hgrid := h.grid
  have hsize : Bigptr.sizeof = 24 := rfl
  have hp : ({ a with nxtPtrslot := a.nxtPtrslot - Bigptr.sizeof } : Arena).IsPtr
      a.nxtPtrslot := by
    unfold Arena.IsPtr
    simp only
    omega
  have hcases : ∀ q, ({ a with nxtPtrslot := a.nxtPtrslot - Bigptr.sizeof } : Arena).IsPtr q →
      q = a.nxtPtrslot ∨ a.IsPtr q := by
    rintro q ⟨hgt, hle, hdvd⟩
    unfold Arena.IsPtr
    simp only at hgt hle hdvd
    omega
  have hmore : ∀ q, a.IsPtr q →
      ({ a with nxtPtrslot := a.nxtPtrslot - Bigptr.sizeof } : Arena).IsPtr q := by
    rintro q ⟨hgt, hle, hdvd⟩
    unfold Arena.IsPtr
    simp only
    omega
  have hsame : ∀ ms q, a.IsPtr q →
      Memory.Same a.mem (Bigptr.bigptr a.mem a.nxtPtrslot ms) q 24 := by
    rintro ms q ⟨hgt, hle, hdvd⟩
    exact Bigptr.same_bigptr (by omega)
  have hbelow : ∀ ms b k, b + k ≤ a.nxtMemslot ∨ a.top ≤ b →
      Memory.Same a.mem (Bigptr.bigptr a.mem a.nxtPtrslot ms) b k := by
    intro ms b k hbk
    exact Bigptr.same_bigptr (by omega)
  refine ⟨hp, ?_, ?_, ?_, rfl, fun ms => ?_⟩
  · intro hmem
    obtain ⟨r, hr, heq⟩ := List.mem_map.mp hmem
    have hgt := (h.ptr r hr).1.1
    omega
  · intro hmem
    have hgt := (h.free _ hmem).1.1
    omega
  · simp only
    omega
  refine { h with grid := ?_, room := ?_, slot := ?_, ptr := ?_, check := ?_, free := ?_,
                  queue := ?_ }
  · simp only
    omega
  · simp only
    omega
  · intro r hr
    have hin := h.stop_le hr
    have hstop := r.addr_lt_stop a.gcp
    refine (h.slot r hr).congr ⟨hbelow ms _ _ ?_, hbelow ms _ _ ?_⟩
    · omega
    · omega
  · intro r hr
    obtain ⟨hq, hms, hcount⟩ := h.ptr r hr
    refine ⟨hmore _ hq, (Bigptr.memslot_congr (hsame ms _ hq)).trans hms, ?_⟩
    rw [Bigptr.count_congr (hsame ms _ hq)]
    exact hcount
  · intro q hq
    rcases hcases q hq with rfl | hq
    · exact Bigptr.load_bigptr _ _ _
    · exact (Bigptr.check_congr (hsame ms q hq)).trans (h.check q hq)
  · intro q hq
    obtain ⟨hptr, hcount⟩ := h.free q hq
    exact ⟨hmore q hptr, (Bigptr.count_congr (hsame ms q hptr)).trans hcount⟩
  · apply h.queue_congr
    · intro r hr
      have hin := h.stop_le hr
      have hstop := r.addr_lt_stop a.gcp
      exact hbelow ms _ _ (by omega)
    · have hhead := h.head
      exact hbelow ms _ _ (by omega)

theorem Inv.getFreePtrslot (h : Inv a live) (hlt : a.nxtMemslot < a.nxtPtrslot) :
    ∃ p b, a.getFreePtrslot = some (p, b) ∧ Taken a b live p := by
  cases hf : a.freePtrslots with
  | nil =>
    refine ⟨_, _, ?_, h.take_next hlt⟩
    rw [Arena.getFreePtrslot, hf]
  | cons p rest =>
    obtain ⟨hp, hcount⟩ := h.free p (by simp [hf])
    refine ⟨p, _, ?_, h.take_free hf⟩
    rw [Arena.getFreePtrslot, hf]
    exact if_pos ⟨hcount, hp.1⟩

theorem Bigslot.same_bigslot {s ms : ℕ} (h : k + n ≤ s ∨ s + 40 ≤ k) :
    Memory.Same m (Bigslot.bigslot m s ms p) k n := by
  have hsz : Memory.Same m (m.store 8 (s + 24) ms) k n := Memory.same_store (by omega)
  have hptr : Memory.Same (m.store 8 (s + 24) ms) ((m.store 8 (s + 24) ms).store 8 (s + 32) p)
      k n := Memory.same_store (by omega)
  exact (hsz.trans hptr).trans (Memory.same_store (by omega))

theorem slotAt_bigslot {s : ℕ} (hn : n < 2 ^ 64) (hp : p < 2 ^ 64)
    (hs : Memory.Same (Bigslot.bigslot m s n p) m' s 40) :
    SlotAt g m' ⟨s, p, n, fun i => m' (Bigslot.dataAt g s + i)⟩ := by
  have hmagic : (Bigslot.bigslot m s n p).load 4 s = Bigslot.magic :=
    Memory.load_store_of_lt (by decide)
  have hsz : (Bigslot.bigslot m s n p).load 8 (s + 24) = n := by
    have hone : (m.store 8 (s + 24) n).load 8 (s + 24) = n :=
      Memory.load_store_of_lt (by norm_num; omega)
    exact (Memory.load_store_of_ne (by omega)).trans
      ((Memory.load_store_of_ne (by omega)).trans hone)
  have hptr : (Bigslot.bigslot m s n p).load 8 (s + 32) = p := by
    refine (Memory.load_store_of_ne (by omega)).trans ?_
    exact Memory.load_store_of_lt (by norm_num; omega)
  refine ⟨?_, ?_, ?_, fun i _ => rfl⟩
  · exact (hs.sub (le_refl s) (by omega)).load.trans hmagic
  · have hkeep : Memory.Same (Bigslot.bigslot m s n p) m' (s + 24) 8 :=
      hs.sub (by omega) (by omega)
    exact hkeep.load.trans hsz
  · have hkeep : Memory.Same (Bigslot.bigslot m s n p) m' (s + 32) 8 :=
      hs.sub (by omega) (by omega)
    exact hkeep.load.trans hptr

theorem Inv.append {ms : ℕ} (h : Inv a live) (hms : r.addr = a.nxtMemslot)
    (hroom : r.stop a.gcp ≤ a.nxtPtrslot + 24) (hdvd : 8 ∣ r.size) (hp : a.IsPtr r.ptr)
    (hnew : r.ptr ∉ live.map Slot.ptr) (hptr : Bigptr.memslot a.mem r.ptr = r.addr)
    (hcount : 0 ≤ Bigptr.count a.mem r.ptr) (hcheck : a.mem.load 4 r.addr = Bigslot.magic)
    (hsz : Bigslot.sz a.mem r.addr = r.size) (hslot : Bigslot.ptrslot a.mem r.addr = r.ptr)
    (hm : Tailq.insertTail Bigslot.field a.mem a.memslots r.addr = m)
    (hbyte : r.byte = fun i => m (Bigslot.dataAt a.gcp r.addr + i)) (hend : ms = r.stop a.gcp) :
    Inv { a with mem := m, nxtMemslot := ms } (live ++ [r]) := by
  have hgrid := h.grid
  have hhigh := h.high
  have hhead := h.head
  have hbase := h.placed.le
  have hstop := r.addr_lt_stop a.gcp
  have hplaced : Placed a.gcp a.base (live ++ [r]) ms := by
    refine placed_append.mpr ⟨?_, hdvd, Or.inl hend.symm⟩
    rw [hms]
    exact h.placed
  have hapart : Tailq.Apart Bigslot.field a.memslots ((live ++ [r]).map Slot.addr) :=
    hplaced.apart h.low (by omega) (by omega) h.head_lt
  have hqueue := h.queue
  rw [List.map_append, List.map_singleton] at hapart
  have hnewq := hqueue.insertTail hapart
  have hqe : Tailq.Clear Bigslot.field a.memslots 16 r.addr := hapart.clear _ (by simp)
  have hsame : SameButEntries a.memslots (live ++ [r]) a.mem m := by
    intro b k hbq hx
    rw [← hm]
    apply hqueue.same_insertTail hqe hbq
    · intro x hmem
      obtain ⟨t, ht, rfl⟩ := List.mem_map.mp hmem
      have hclear := hx t (by simp [ht])
      unfold Tailq.Clear Bigslot.field
      omega
    · have hclear := hx r (by simp)
      unfold Tailq.Clear Bigslot.field
      omega
  rw [hm] at hnewq
  have hkeep : ∀ p, a.IsPtr p → Memory.Same a.mem m p 24 := by
    intro p hp
    obtain ⟨hgt, hle, hdvd⟩ := hp
    unfold Bigptr.sizeof at hle
    exact hplaced.samePtr (by omega) (by omega) hsame
  refine { h with room := ?_, placed := hplaced, slot := ?_, ptr := ?_, nodup := ?_,
                  check := ?_, free := ?_, queue := ?_ }
  · simp only
    omega
  · intro t ht
    have hkept := hplaced.sameSlot ht (by omega) hsame
    rcases List.mem_append.mp ht with hold | hnew
    · exact (h.slot t hold).congr hkept
    · rw [List.mem_singleton] at hnew
      subst hnew
      have hwhole : SlotAt a.gcp a.mem
          { t with byte := fun i => a.mem (Bigslot.dataAt a.gcp t.addr + i) } :=
        ⟨hcheck, hsz, hslot, fun i _ => rfl⟩
      have hmoved := hwhole.congr hkept
      refine { hmoved with byte := ?_ }
      intro i _
      rw [hbyte]
  · intro t ht
    have hall : a.IsPtr t.ptr ∧ Bigptr.memslot a.mem t.ptr = t.addr ∧
        0 ≤ Bigptr.count a.mem t.ptr := by
      rcases List.mem_append.mp ht with hold | hnew
      · exact h.ptr t hold
      · rw [List.mem_singleton] at hnew
        rw [hnew]
        exact ⟨hp, hptr, hcount⟩
    obtain ⟨hq, hms, hcount⟩ := hall
    refine ⟨hq, (Bigptr.memslot_congr (hkeep _ hq)).trans hms, ?_⟩
    rw [Bigptr.count_congr (hkeep _ hq)]
    exact hcount
  · rw [List.map_append, List.map_singleton]
    refine List.nodup_append.mpr ⟨h.nodup, List.pairwise_singleton _ _, ?_⟩
    intro x hx y hy
    rw [List.mem_singleton] at hy
    rw [hy]
    exact ne_of_mem_of_not_mem hx hnew
  · intro p hp
    exact (Bigptr.check_congr (hkeep p hp)).trans (h.check p hp)
  · intro p hp
    obtain ⟨hq, hcount⟩ := h.free p hp
    exact ⟨hq, (Bigptr.count_congr (hkeep p hq)).trans hcount⟩
  · rw [List.map_append, List.map_singleton]
    exact hnewq

theorem Taken.place (h : Inv a live) (ht : Taken a b live p) (hdvd : 8 ∣ boaObjAlign sz)
    (hfit : a.nxtMemslot + boaObjAlign sz + Bigslot.sizeof a.gcp ≤ a.nxtPtrslot) :
    ∃ m' r, r.ptr = p ∧ r.size = boaObjAlign sz ∧
      b.place sz p = some ({ b with mem := m', nxtMemslot := r.stop a.gcp }, some p) ∧
      Inv { b with mem := m', nxtMemslot := r.stop a.gcp } (live ++ [r]) := by
  have hgrid := h.grid
  have hhigh := h.high
  have hsize := Bigslot.le_sizeof a.gcp
  have hlow := ht.low
  have hpge : b.nxtPtrslot + 24 ≤ p ∧ p + 24 ≤ b.top := by
    obtain ⟨hgt, hle, hdvd⟩ := ht.isPtr
    have hgrid' := (ht.inv 0).grid
    unfold Bigptr.sizeof at hle
    simp only at hgrid'
    omega
  have hgcp : b.gcp = a.gcp := by rw [ht.same]
  have htop : b.top = a.top := by rw [ht.same]
  have hnxt : b.nxtMemslot = a.nxtMemslot := by rw [ht.same]
  generalize hn : boaObjAlign sz = n at hdvd hfit
  generalize hms : a.nxtMemslot = ms at hfit hnxt
  have h₁ := ht.inv ms
  generalize hm₁ : Bigptr.bigptr b.mem p ms = m₁ at h₁
  generalize hm₂ : Bigslot.bigslot m₁ ms n p = m₂
  generalize hm₃ : b.markUnitialized m₂ (Bigslot.dataAt b.gcp ms) n = m₃
  have hsame₃ : ∀ c k, (c + k ≤ ms ∨ ms + n + Bigslot.sizeof a.gcp ≤ c) →
      Memory.Same m₁ m₃ c k := by
    intro c k hck
    have htwo : Memory.Same m₁ m₂ c k := by
      rw [← hm₂]
      exact Bigslot.same_bigslot (by omega)
    rw [← hm₃, hgcp]
    unfold Bigslot.dataAt
    exact htwo.trans (b.same_markUnitialized (by omega))
  have hfield₃ : Memory.Same m₂ m₃ ms 40 := by
    rw [← hm₃, hgcp]
    unfold Bigslot.dataAt
    exact b.same_markUnitialized (by omega)
  have h₃ : Inv { b with mem := m₃ } live := by
    refine h₁.of_free_write ms (ms + n + Bigslot.sizeof a.gcp) ?_ ?_ ?_ hsame₃
    · have hbase := h₁.placed.le
      simp only at hbase ⊢
      omega
    · simp only
      omega
    · intro t hmem
      have hin := h₁.stop_le hmem
      simp only at hin ⊢
      omega
  have hslot : SlotAt b.gcp m₃ ⟨ms, p, n, fun i => m₃ (Bigslot.dataAt b.gcp ms + i)⟩ :=
    slotAt_bigslot (by omega) (by omega) (by rw [hm₂]; exact hfield₃)
  have hptr₃ : Memory.Same m₁ m₃ p 24 := hsame₃ p 24 (by omega)
  have hcount : Bigptr.count m₃ p = 0 := by
    rw [Bigptr.count_congr hptr₃, ← hm₁]
    exact Bigptr.count_bigptr _ _ _
  have hmemslot : Bigptr.memslot m₃ p = ms := by
    rw [Bigptr.memslot_congr hptr₃, ← hm₁]
    exact Bigptr.memslot_bigptr _ _ (by omega)
  have hcheck : Bigslot.check m₃ ms = true := decide_eq_true hslot.check
  have hstop : Bigslot.size b.gcp m₃ ms = some (n + Bigslot.sizeof a.gcp) := by
    have hsz : Bigslot.sz m₃ ms = n := hslot.sz
    rw [Bigslot.size, if_pos hcheck, hsz, hgcp, Bigslot.sizeOf_eq hdvd (by omega)]
  generalize hm₄ : Tailq.insertTail Bigslot.field m₃ b.memslots ms = m₄
  generalize hr : (⟨ms, p, n, fun i => m₄ (Bigslot.dataAt b.gcp ms + i)⟩ : Slot) = r
  have hrstop : r.stop a.gcp = ms + n + Bigslot.sizeof a.gcp := by
    rw [← hr]
    rfl
  refine ⟨m₄, r, ?_, ?_, ?_, ?_⟩
  · rw [← hr]
  · rw [← hr]
  · have hwrap : (ms + (n + Bigslot.sizeof a.gcp)) % 2 ^ 64 = r.stop a.gcp := by
      rw [hrstop, Nat.mod_eq_of_lt (by omega), Nat.add_assoc]
    rw [Arena.place]
    simp only [hnxt, hn, hm₁, hm₂, hm₃]
    rw [if_pos hcount, hstop, Option.bind_some, hm₄, hwrap]
  · subst hr
    refine h₃.append (r := ⟨ms, p, n, _⟩) hnxt.symm ?_ hdvd ht.isPtr ht.notMem hmemslot ?_
      hslot.check hslot.sz hslot.ptrslot hm₄ rfl ?_
    · simp only [Slot.stop, hgcp]
      omega
    · simp only
      rw [hcount]
    · rw [hgcp]

theorem Arena.fit (hfits : (sz + 7) / 8 * 8 + Bigslot.sizeof a.gcp < 2 ^ 64)
    (hcan : a.canFit sz = true) :
    boaObjAlign sz = (sz + 7) / 8 * 8 ∧ a.nxtMemslot < a.nxtPtrslot ∧
      a.nxtMemslot + boaObjAlign sz + Bigslot.sizeof a.gcp ≤ a.nxtPtrslot := by
  have hsize := Bigslot.le_sizeof a.gcp
  have hval : boaObjAlign sz = (sz + 7) / 8 * 8 := boaObjAlign_eq (by omega)
  have hle := of_decide_eq_true hcan
  rw [hval, Bigslot.sizeOf_eq (Nat.dvd_mul_left 8 _) hfits, Arena.freeSpace] at hle
  refine ⟨hval, ?_⟩
  rw [hval]
  split_ifs at hle with hlt
  · omega
  · omega

theorem Inv.aalloc (h : Inv a live)
    (hfits : a.canFit sz = true → (sz + 7) / 8 * 8 + Bigslot.sizeof a.gcp < 2 ^ 64) :
    a.aalloc sz = some (a, none) ∨
      ∃ b r, a.aalloc sz = some (b, some r.ptr) ∧ r.size = (sz + 7) / 8 * 8 ∧
        r.ptr ∉ live.map Slot.ptr ∧ Inv b (live ++ [r]) := by
  cases hcan : a.canFit sz with
  | false =>
    left
    rw [Arena.aalloc, hcan]
    rfl
  | true =>
    right
    obtain ⟨hval, hlt, hfit⟩ := Arena.fit (hfits hcan) hcan
    obtain ⟨p, b, hget, ht⟩ := h.getFreePtrslot hlt
    have hdvd : 8 ∣ boaObjAlign sz := by
      rw [hval]
      exact Nat.dvd_mul_left 8 _
    obtain ⟨m', r, hp, hsize, hplace, hinv⟩ := ht.place h hdvd hfit
    have hpos : p ≠ 0 := by
      have hgt := ht.isPtr.1
      omega
    refine ⟨_, r, ?_, hsize.trans hval, ?_, hinv⟩
    · rw [Arena.aalloc, hcan, if_pos rfl, if_pos hlt, hget, Option.bind_some, if_pos hpos, hp]
      exact hplace
    · rw [hp]
      exact ht.notMem

end Sfslite.Safeptr.Gc
