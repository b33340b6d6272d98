import Sfslite.Async.Ihash
import Mathlib.Data.List.Perm.Basic

/-!
Growth moves every element to the front of its new bucket. The old array is left as it was, so
the fronts of the buckets that are still to come are good, and so is the way through what is left
of the bucket being moved.
-/

namespace Sfslite.Async.Ihash

open Sfslite.Lib.Hlist

variable {i ntab n fuel nbuckets buckets : ℕ}

namespace Mem

variable (m : Mem)

def links : Links (ℕ × ℕ) ℕ where
  head := m.cell
  next e := (m.entry e).next
  pprev e := (m.entry e).pprev

def withLinks (l : Links (ℕ × ℕ) ℕ) : Mem :=
  { m with
    entry := fun e => ⟨l.next e, l.pprev e, (m.entry e).val⟩
    cell := l.head }

/-- The bucket of an element among `n`. -/
def key (n e : ℕ) : ℕ := (m.entry e).val.toNat % n

variable (l : Links (ℕ × ℕ) ℕ) (e b tab : ℕ) (o : Option ℕ) (p : Pprev)

@[simp] theorem head_links : m.links.head = m.cell := rfl

@[simp] theorem next_links : m.links.next e = (m.entry e).next := rfl

@[simp] theorem pprev_links : m.links.pprev e = (m.entry e).pprev := rfl

@[simp] theorem links_withLinks : (m.withLinks l).links = l := rfl

@[simp] theorem cell_withLinks : (m.withLinks l).cell = l.head := rfl

@[simp] theorem entry_withLinks :
    (m.withLinks l).entry e = ⟨l.next e, l.pprev e, (m.entry e).val⟩ := rfl

@[simp] theorem key_withLinks : (m.withLinks l).key = m.key := rfl

@[simp] theorem len_withLinks : (m.withLinks l).len = m.len := rfl

@[simp] theorem arrays_withLinks : (m.withLinks l).arrays = m.arrays := rfl

@[simp] theorem links_deleteArray : (m.deleteArray tab).links = m.links := rfl

@[simp] theorem key_deleteArray : (m.deleteArray tab).key = m.key := rfl

@[simp] theorem entry_setNext : (m.setNext e o).entry b =
    if b = e then { m.entry b with next := o } else m.entry b := by
  simp only [setNext, Function.update_apply]
  split_ifs with hb
  · rw [hb]
  · rfl

@[simp] theorem cell_setNext : (m.setNext e o).cell = m.cell := rfl

@[simp] theorem len_setNext : (m.setNext e o).len = m.len := rfl

@[simp] theorem arrays_setNext : (m.setNext e o).arrays = m.arrays := rfl

@[simp] theorem entry_setPprev : (m.setPprev e p).entry b =
    if b = e then { m.entry b with pprev := p } else m.entry b := by
  simp only [setPprev, Function.update_apply]
  split_ifs with hb
  · rw [hb]
  · rfl

@[simp] theorem cell_setPprev : (m.setPprev e p).cell = m.cell := rfl

@[simp] theorem len_setPprev : (m.setPprev e p).len = m.len := rfl

@[simp] theorem arrays_setPprev : (m.setPprev e p).arrays = m.arrays := rfl

@[simp] theorem entry_setBack : (m.setBack o p).entry b =
    if o = some b then { m.entry b with pprev := p } else m.entry b := by
  cases o with
  | none => rfl
  | some q => simp [setBack, eq_comm]

@[simp] theorem cell_setBack : (m.setBack o p).cell = m.cell := by cases o <;> rfl

@[simp] theorem len_setBack : (m.setBack o p).len = m.len := by cases o <;> rfl

@[simp] theorem arrays_setBack : (m.setBack o p).arrays = m.arrays := by cases o <;> rfl

variable {m tab}

theorem load_eq (hi : i < m.len tab) : m.load tab i = .ok (m.cell (tab, i)) :=
  if_pos hi

theorem store_eq (hi : i < m.len tab) :
    m.store tab i o = .ok { m with cell := Function.update m.cell (tab, i) o } := if_pos hi

end Mem

/-- The buckets of the array `tab`. -/
def slot (tab i : ℕ) : ℕ × ℕ := (tab, i)

theorem slot_injective (tab : ℕ) : Function.Injective (slot tab) :=
  fun _ _ h => (Prod.mk.inj h).2

/-- What may have changed while elements went to the array `ntab`: their own pointers, the back
pointers, and the buckets of `ntab`. -/
structure Moved (m m' : Mem) (ntab : ℕ) (l : List ℕ) : Prop where
  val : ∀ e, (m'.entry e).val = (m.entry e).val
  cell : ∀ tab i, tab ≠ ntab → m'.cell (tab, i) = m.cell (tab, i)
  next : ∀ e, e ∉ l → (m'.entry e).next = (m.entry e).next
  len : m'.len = m.len
  arrays : m'.arrays = m.arrays

theorem Moved.refl (m : Mem) (ntab : ℕ) : Moved m m ntab [] :=
  ⟨fun _ => rfl, fun _ _ _ => rfl, fun _ _ => rfl, rfl, rfl⟩

theorem Moved.trans {m m' m'' : Mem} {l l' : List ℕ} (h : Moved m m' ntab l)
    (h' : Moved m' m'' ntab l') : Moved m m'' ntab (l ++ l') where
  val e := (h'.val e).trans (h.val e)
  cell tab i ht := (h'.cell tab i ht).trans (h.cell tab i ht)
  next e he := by
    rw [List.mem_append, not_or] at he
    exact (h'.next e he.2).trans (h.next e he.1)
  len := h'.len.trans h.len
  arrays := h'.arrays.trans h.arrays

theorem Moved.push (m : Mem) (ntab i e : ℕ) :
    Moved m (m.withLinks (m.links.push (slot ntab i) e)) ntab [e] where
  val _ := rfl
  cell _ _ ht := Function.update_of_ne (fun heq => ht (Prod.mk.inj heq).1) _ _
  next _ he := Function.update_of_ne (fun heq => he (List.mem_singleton.mpr heq)) _ _
  len := rfl
  arrays := rfl

theorem store_front {m : Mem} {tab e : ℕ} (hi : i < m.len tab) (he : m.cell (tab, i) ≠ some e) :
    (((m.setNext e (m.cell (tab, i))).setPprev e (.head (tab, i))).setBack (m.cell (tab, i))
        (.next e)).store tab i (some e) =
      .ok (m.withLinks (m.links.push (slot tab i) e)) := by
  rw [Mem.store_eq _ (by simpa using hi)]
  refine congrArg _ (Mem.ext (funext fun b => ?_) (by simp [slot]) (by simp) (by simp))
  by_cases hb : b = e
  · subst hb
    simp [slot, he]
  · by_cases hfront : m.cell (tab, i) = some b
    all_goals simp [slot, hb, hfront]

theorem store_front' {m : Mem} {tab e : ℕ} (hi : i < m.len tab) :
    (((m.setBack (m.cell (tab, i)) (.next e)).setNext e (m.cell (tab, i))).setPprev e
        (.head (tab, i))).store tab i (some e) =
      .ok (m.withLinks (m.links.push (slot tab i) e)) := by
  rw [Mem.store_eq _ (by simpa using hi)]
  refine congrArg _ (Mem.ext (funext fun b => ?_) (by simp [slot]) (by simp) (by simp))
  by_cases hb : b = e
  · subst hb
    by_cases hfront : m.cell (tab, i) = some b
    all_goals simp [slot, hfront]
  · by_cases hfront : m.cell (tab, i) = some b
    all_goals simp [slot, hb, hfront]

theorem moveBucket_succ {m : Mem} {p : ℕ} (hlt : m.key n p < m.len ntab)
    (hp : m.cell (ntab, m.key n p) ≠ some p) :
    moveBucket ntab n (fuel + 1) m (some p) =
      moveBucket ntab n fuel (m.withLinks (m.links.push (slot ntab (m.key n p)) p))
        (m.entry p).next := by
  have hstore := store_front hlt hp
  simp only [Mem.key] at hstore hlt ⊢
  simp only [moveBucket, Mem.load_eq hlt, bind, Except.bind, hstore]

/-- The inner loop of `_ihash_grow` turns the way through a bucket around in front of what the
new buckets have. -/
theorem moveBucket_spec (hn : 0 < n) {m : Mem} {o : Option ℕ}
    {rest M : List ℕ} (hlen : m.len ntab = n) (hpath : m.links.Path o rest)
    (hM : m.links.Buckets (slot ntab) n (m.key n) M) (hrest : rest.Nodup)
    (hdisj : ∀ e ∈ rest, e ∉ M) (hfuel : rest.length ≤ fuel) :
    ∃ m', moveBucket ntab n fuel m o = .ok m' ∧ Moved m m' ntab rest ∧
      m'.links.Buckets (slot ntab) n (m'.key n) (rest.reverse ++ M) := by
  induction rest generalizing fuel m o M with
  | nil =>
    have ho : o = none := hpath
    subst ho
    exact ⟨m, by cases fuel <;> rfl, .refl m ntab, hM⟩
  | cons p rest ih =>
    obtain ⟨ho, hpath⟩ := hpath
    subst ho
    obtain ⟨fuel, rfl⟩ : ∃ k, fuel = k + 1 :=
      ⟨fuel - 1, by simp only [List.length_cons] at hfuel; omega⟩
    obtain ⟨hp, hrest⟩ := List.nodup_cons.mp hrest
    have hpM : p ∉ M := hdisj p List.mem_cons_self
    have hkey : m.key n p < n := Nat.mod_lt _ hn
    have hfront : m.cell (ntab, m.key n p) ≠ some p := fun heq =>
      hpM (List.mem_filter.mp ((hM.isList _ hkey).mem_of_get heq)).1
    obtain ⟨m', hm', hmoved, hbuckets⟩ := ih
      (m := m.withLinks (m.links.push (slot ntab (m.key n p)) p)) (M := p :: M)
      hlen (hpath.push hp) (hM.push (slot_injective ntab) hkey hpM) hrest
      (by
        intro e he hmem
        rcases List.mem_cons.mp hmem with rfl | hmem
        · exact hp he
        · exact hdisj e (List.mem_cons_of_mem _ he) hmem)
      (by simpa using hfuel)
    refine ⟨m', ?_, (Moved.push m ntab _ p).trans hmoved, ?_⟩
    · rw [moveBucket_succ (hlen ▸ hkey) hfront]
      exact hm'
    · rw [List.reverse_cons, List.append_assoc]
      exact hbuckets

theorem moveBuckets_spec {tab : ℕ} (hn : 0 < n) (htab : tab ≠ ntab) {m : Mem}
    {c : ℕ → List ℕ} {I M : List ℕ} (hlen : m.len ntab = n) (hI : ∀ i ∈ I, i < m.len tab)
    (hpath : ∀ i ∈ I, m.links.Path (m.cell (tab, i)) (c i))
    (hM : m.links.Buckets (slot ntab) n (m.key n) M) (hnd : (I.flatMap c).Nodup)
    (hdisj : ∀ e ∈ I.flatMap c, e ∉ M) (hfuel : (I.flatMap c).length ≤ fuel) :
    ∃ m', (I.foldlM (fun m i => do
        let p ← m.load tab i
        moveBucket ntab n fuel m p) m : Except Stop Mem) = .ok m' ∧
      Moved m m' ntab (I.flatMap c) ∧
      m'.links.Buckets (slot ntab) n (m'.key n) ((I.flatMap c).reverse ++ M) := by
  induction I generalizing m M with
  | nil => exact ⟨m, rfl, .refl m ntab, hM⟩
  | cons i I ih =>
    simp only [List.flatMap_cons, List.length_append, List.nodup_append'] at hnd hfuel hdisj ⊢
    obtain ⟨hi, hI⟩ := List.forall_mem_cons.mp hI
    obtain ⟨hpathi, hpath⟩ := List.forall_mem_cons.mp hpath
    obtain ⟨hndi, hnd, hapart⟩ := hnd
    obtain ⟨m₁, hm₁, hmoved₁, hbuckets₁⟩ := moveBucket_spec hn hlen hpathi hM hndi
      (fun e he => hdisj e (List.mem_append_left _ he)) (by omega : (c i).length ≤ fuel)
    obtain ⟨m', hm', hmoved, hbuckets⟩ := ih (m := m₁) (M := (c i).reverse ++ M)
      (by rw [hmoved₁.len, hlen]) (by rwa [hmoved₁.len])
      (by
        intro j hj
        rw [hmoved₁.cell tab j htab]
        exact (hpath j hj).congr fun e he =>
          hmoved₁.next e fun hmem => hapart hmem (List.mem_flatMap.mpr ⟨j, hj, he⟩))
      hbuckets₁ hnd
      (by
        intro e he hmem
        rcases List.mem_append.mp hmem with hmem | hmem
        · exact hapart (List.mem_reverse.mp hmem) he
        · exact hdisj e (List.mem_append_right _ he) hmem)
      (by omega)
    refine ⟨m', ?_, hmoved₁.trans hmoved, ?_⟩
    · simp only [List.foldlM_cons, Mem.load_eq hi, bind, Except.bind, hm₁]
      exact hm'
    · rw [List.reverse_append, List.append_assoc]
      exact hbuckets

/-- The buckets of the table have the elements of `L` between them. -/
structure Table (m : Mem) (t : IhashTable) (L : List ℕ) : Prop where
  buckets : m.links.Buckets (slot t.tab) t.buckets (m.key t.buckets) L
  len : m.len t.tab = t.buckets
  made : t.tab ≤ m.arrays
  pos : 0 < t.buckets
  below : t.buckets < 2 ^ 61

theorem Table.key_lt {m : Mem} {t : IhashTable} {L : List ℕ} (h : Table m t L) (e : ℕ) :
    m.key t.buckets e < t.buckets := Nat.mod_lt _ h.pos

theorem newArray_eq (m : Mem) (hn : n < 2 ^ 61) :
    ∃ m', m.newArray n = .ok m' ∧ m'.entry = m.entry ∧ m'.arrays = m.arrays + 1 ∧
      m'.len (m.arrays + 1) = n ∧ (∀ i, m'.cell (m.arrays + 1, i) = none) ∧
      ∀ tab ≤ m.arrays, m'.len tab = m.len tab ∧ ∀ i, m'.cell (tab, i) = m.cell (tab, i) := by
  refine ⟨_, if_pos hn, rfl, rfl, Function.update_self _ _ _, fun i => if_pos rfl, ?_⟩
  intro tab htab
  have hne : tab ≠ m.arrays + 1 := by omega
  exact ⟨Function.update_of_ne hne _ _, fun i => if_neg hne⟩

theorem ihashGrow_spec {m : Mem} {t : IhashTable} {L : List ℕ}
    (hL : m.links.Buckets (slot t.tab) t.buckets (m.key t.buckets) L)
    (hkey : ∀ e ∈ L, m.key t.buckets e < t.buckets) (hlen : t.buckets ≤ m.len t.tab)
    (hmade : t.tab ≤ m.arrays) (hentries : L.length ≤ t.entries)
    (hgrown : grownBuckets t.buckets nbuckets = .ok n) (hn : 0 < n) (hroom : n < 2 ^ 61) :
    ∃ m' L', ihashGrow m t nbuckets = .ok (m', ⟨n, t.entries, m.arrays + 1⟩) ∧ L'.Perm L ∧
      (∀ e, (m'.entry e).val = (m.entry e).val) ∧ Table m' ⟨n, t.entries, m.arrays + 1⟩ L' := by
  obtain ⟨m₁, hm₁, hentry, harrays, hlen₁, hempty, hold⟩ := newArray_eq m hroom
  obtain ⟨holdlen, holdcell⟩ := hold t.tab hmade
  have hperm := hL.perm hkey
  obtain ⟨m₂, hm₂, hmoved, hbuckets⟩ := moveBuckets_spec hn (by omega : t.tab ≠ m.arrays + 1)
    (c := fun i => L.filter fun e => m.key t.buckets e = i) (I := List.range t.buckets) hlen₁
    (by
      intro i hi
      rw [holdlen]
      exact Nat.lt_of_lt_of_le (List.mem_range.mp hi) hlen)
    (by
      intro i hi
      rw [holdcell i]
      refine (hL.isList i (List.mem_range.mp hi)).path.congr fun e _ => ?_
      simp only [Mem.next_links, hentry])
    (.nil fun j _ => hempty j) (hperm.nodup_iff.mpr hL.nodup) (fun _ _ => List.not_mem_nil)
    (hperm.length_eq.trans_le hentries)
  refine ⟨m₂.deleteArray t.tab, _, ?_, (List.reverse_perm _).trans hperm, ?_, ?_⟩
  · simp only [ihashGrow, hgrown, hm₁, harrays, bind, Except.bind, pure, Except.pure] at hm₂ ⊢
    rw [hm₂]
  · intro e
    exact (hmoved.val e).trans (by rw [hentry])
  · rw [List.append_nil] at hbuckets
    refine ⟨hbuckets, ?_, ?_, hn, hroom⟩
    · refine (Function.update_of_ne (by omega : m.arrays + 1 ≠ t.tab) _ _).trans ?_
      rw [hmoved.len, hlen₁]
    · exact (hmoved.arrays.trans harrays).ge

theorem exp2primes_lt {k prime : ℕ} (h : exp2primes[k]? = some prime) : prime < 2 ^ 32 := by
  have hall : ∀ p ∈ exp2primes, p < 2 ^ 32 := by decide
  exact hall prime (List.mem_of_getElem? h)

theorem log2c64_buckets_le (hlt : buckets < 2 ^ 64) :
    (log2c64 (BitVec.ofNat 64 buckets) + 1).toNat < exp2primes.length ↔ buckets ≤ 2 ^ 31 := by
  have hlen : exp2primes.length = 33 := rfl
  rcases Nat.eq_zero_or_pos buckets with rfl | hpos
  · decide
  · have hv : BitVec.ofNat 64 buckets ≠ 0 := by
      intro heq
      have hnat := congrArg BitVec.toNat heq
      simp only [BitVec.toNat_ofNat, Nat.mod_eq_of_lt hlt, BitVec.ofNat_eq_ofNat,
        Nat.zero_mod] at hnat
      omega
    have hle := log2c64_le_iff hv 31
    have hnonneg := log2c64_nonneg hv
    rw [BitVec.toNat_ofNat, Nat.mod_eq_of_lt hlt] at hle
    rw [hlen, ← hle]
    omega

theorem grownBuckets_table (h : nbuckets = 0 ∨ nbuckets < buckets) (hle : buckets ≤ 2 ^ 31) :
    ∃ n, grownBuckets buckets nbuckets = .ok n ∧ 0 < n ∧ n < 2 ^ 61 := by
  have hlt := (log2c64_buckets_le (by omega : buckets < 2 ^ 64)).mpr hle
  obtain ⟨prime, hprime⟩ : ∃ prime, exp2primes[_]? = some prime :=
    ⟨_, List.getElem?_eq_getElem hlt⟩
  have hbound := exp2primes_lt hprime
  refine ⟨if prime < 3 then 3 else prime, ?_, ?_, ?_⟩
  · rw [grownBuckets, if_pos h, hprime]
  · split_ifs <;> omega
  · split_ifs <;> omega

theorem grownBuckets_outside (h : nbuckets = 0 ∨ nbuckets < buckets)
    (hlt : 2 ^ 31 < buckets) (hbelow : buckets < 2 ^ 64) :
    grownBuckets buckets nbuckets = .error .outside := by
  have hout : exp2primes.length ≤ (log2c64 (BitVec.ofNat 64 buckets) + 1).toNat :=
    Nat.le_of_not_lt fun hin => absurd ((log2c64_buckets_le hbelow).mp hin) (by omega)
  rw [grownBuckets, if_pos h, List.getElem?_eq_none hout]

end Sfslite.Async.Ihash
