import Mathlib.Data.Int.Notation
import Mathlib.Data.List.Nodup
import Mathlib.Data.List.Pairwise

/-!
The file handles that `closesim.C` keeps open on behalf of clients that never close them. The
entries of all servers are in one queue by the time at which they expire; a clean-up sends a
`CLOSE` upstream for those that did, and the servers may be called, or go away, within that call.
-/

namespace Sfslite.Sfsmisc.Closesim

/-- Lifetime of unopen file handles. -/
def minlife : ℤ := 60

/-- Lifetime of opened file handles. -/
def openlife : ℤ := 300

/-- An entry; `serv` is the server that it belongs to. -/
structure Fhtimer (φ : Type) where
  fh : φ
  serv : ℕ
  expire : ℤ
  opened : Bool

/-- Where `fhclean` is: not called, at its head, or in the call of a `CLOSE` with the successor
that it saved and the time at its beginning. `cont` is the entry that its caller opens afterwards. -/
inductive Pc
  | idle
  | entry (cont : Option ℕ)
  | closing (nfht : Option ℕ) (since : ℤ) (cont : Option ℕ)
deriving DecidableEq

namespace Pc

def atHead : Pc → Bool
  | .entry _ => true
  | _ => false

/-- The `CLOSE` of the last entry of the queue is at work. -/
def atLast : Pc → Bool
  | .closing none _ _ => true
  | _ => false

/-- The time at the beginning of the clean-up. -/
def since : Pc → Option ℤ
  | .closing _ since _ => some since
  | _ => none

/-- The entries that are looked at again after the `CLOSE`. -/
def followed : Pc → List ℕ
  | .closing nfht _ cont => nfht.toList ++ cont.toList
  | _ => []

end Pc

/-- The queue with the tables of the servers `servs`. An entry is its address, `obj` holds those
that are allocated, and `alloc` is the next one; `closes` are the entries for which a `CLOSE` was
sent. The source's `int minopen` is the number here while fewer than `2 ^ 31` entries are live. -/
structure Fileq (φ : Type) where
  now : ℤ
  servs : List ℕ
  obj : ℕ → Option (Fhtimer φ)
  alloc : ℕ
  minopen : ℤ
  tmo : Option ℤ
  timeq : List ℕ
  fhtab : ℕ → List ℕ
  pc : Pc
  closes : List ℕ

/-- `itree::insert`: an entry comes behind those that expire at the same time. -/
def insertq (expire : ℕ → ℤ) (z : ℕ) : List ℕ → List ℕ
  | [] => [z]
  | x :: xs => if expire z < expire x then z :: x :: xs else x :: insertq expire z xs

/-- `itree::next`. -/
def nextq (x : ℕ) (xs : List ℕ) : Option ℕ := (xs.dropWhile (· ≠ x)).tail.head?

section Model

variable {φ : Type} [DecidableEq φ]

namespace Fileq

/-- The constructor of `fileq`. -/
def start (mo now : ℤ) : Fileq φ :=
  { now := now, servs := [], obj := fun _ => none, alloc := 0, minopen := mo, tmo := none,
    timeq := [], fhtab := fun _ => [], pc := .idle, closes := [] }

def cleanlock (s : Fileq φ) : Bool :=
  match s.pc with
  | .closing .. => true
  | _ => false

def expire (s : Fileq φ) (i : ℕ) : ℤ := ((s.obj i).map (·.expire)).getD 0

/-- `fhtab[*fhp]` of a server. -/
def find (s : Fileq φ) (serv : ℕ) (fh : φ) : Option ℕ :=
  (s.fhtab serv).find? fun i => (s.obj i).any fun t => t.fh = fh

def enqueue (s : Fileq φ) (i : ℕ) (t : Fhtimer φ) : Fileq φ :=
  { s with
    obj := Function.update s.obj i (some t)
    timeq := insertq ({ s with obj := Function.update s.obj i (some t) }).expire i s.timeq }

/-- `closesim::fhtouch`. -/
def fhtouch (s : Fileq φ) (i : ℕ) : Option (Fileq φ) := do
  let t ← s.obj i
  some ({ s with timeq := s.timeq.erase i }.enqueue i
    { t with expire := s.now + if t.opened then openlife else minlife })

/-- `closesim::fhopen`. -/
def fhopen (s : Fileq φ) (i : ℕ) : Option (Fileq φ) := do
  let t ← s.obj i
  { s with obj := Function.update s.obj i (some { t with opened := true }) }.fhtouch i

/-- `closesim::fhfree` of a server. -/
def fhfree (serv : ℕ) (s : Fileq φ) (i : ℕ) : Option (Fileq φ) := do
  let t ← s.obj i
  if t.serv = serv then
    some { s with
      timeq := s.timeq.erase i
      fhtab := Function.update s.fhtab serv ((s.fhtab serv).erase i)
      minopen := s.minopen + 1
      obj := Function.update s.obj i none }
  else none

/-- `closesim::fhalloc` up to the clean-up. -/
def fhalloc (s : Fileq φ) (serv : ℕ) (fh : φ) : Fileq φ :=
  let t : Fhtimer φ := { fh := fh, serv := serv, expire := s.now + minlife, opened := false }
  { s with
    alloc := s.alloc + 1
    minopen := s.minopen - 1
    fhtab := Function.update s.fhtab serv (s.alloc :: s.fhtab serv) }.enqueue s.alloc t

/-- `closesim::dofh`. A clean-up that is at work already is left alone. -/
def dofh (s : Fileq φ) (serv : ℕ) (fh : φ) (openit : Bool) : Option (Fileq φ) :=
  match s.find serv fh with
  | some i => if openit then s.fhopen i else s.fhtouch i
  | none =>
    let s' := s.fhalloc serv fh
    if s'.cleanlock then if openit then s'.fhopen s.alloc else some s'
    else some { s' with pc := .entry (if openit then some s.alloc else none) }

/-- The body of the loop of `fhclean`, up to the call of `CLOSE`. -/
def drop (s : Fileq φ) (i : ℕ) (t : Fhtimer φ) (since : ℤ) (cont : Option ℕ) :
    Option (Fileq φ) := do
  let s' ← s.fhfree t.serv i
  some { s' with pc := .closing (nextq i s.timeq) since cont, closes := i :: s.closes }

/-- The timer after the loop of `fhclean`, which left off at `fht`. -/
def setTmo (s : Fileq φ) : Option ℕ → Option (Option ℤ)
  | some i =>
    if s.tmo = none ∧ s.minopen < 0 then
      (s.obj i).map fun t => some (min (s.now + 10) t.expire)
    else some s.tmo
  | none => some s.tmo

/-- `fhclean` behind its loop, and its caller. -/
def finish (s : Fileq φ) (fht cont : Option ℕ) : Option (Fileq φ) := do
  let tmo ← s.setTmo fht
  let s' := { s with pc := .idle, tmo := tmo }
  match cont with
  | some i => s'.fhopen i
  | none => some s'

/-- `fhclean` goes on: it comes to its head, or the call of a `CLOSE` returns. -/
def go (s : Fileq φ) : Option (Fileq φ) :=
  match s.pc with
  | .idle => none
  | .entry cont =>
    match s.timeq.head? with
    | some i =>
      if s.minopen < 0 then do
        let t ← s.obj i
        if t.expire < s.now then s.drop i t s.now cont else s.finish (some i) cont
      else s.finish none cont
    | none => s.finish none cont
  | .closing nfht since cont =>
    if s.minopen < 0 then do
      let i ← nfht
      let t ← s.obj i
      if t.expire < s.now then s.drop i t since cont else s.finish (some i) cont
    else s.finish nfht cont

end Fileq

/-- A use of a file handle, that opens it or not, a clean-up that goes on, the timer, another time
of day, and a server that comes or goes. -/
inductive Event (φ : Type)
  | dofh (serv : ℕ) (fh : φ) (openit : Bool)
  | go
  | timer
  | tick (t : ℤ)
  | create (serv : ℕ)
  | destroy (serv : ℕ)

/-- One event. It answers `none` where a pointer that is followed is null or was freed, and where
an assertion fails. -/
def step (s : Fileq φ) : Event φ → Option (Fileq φ)
  | .dofh serv fh openit => s.dofh serv fh openit
  | .go => s.go
  | .timer => some { s with tmo := none, pc := .entry none }
  | .tick t => some { s with now := t }
  | .create serv => some { s with servs := serv :: s.servs }
  | .destroy serv => do
      let s' ← (s.fhtab serv).foldlM (Fileq.fhfree serv) s
      some { s' with servs := s.servs.erase serv }

/-- What can happen. `fhclean` goes on from its head at once, but the `CLOSE` runs code of others;
the timer comes from the event loop. -/
def Can (s : Fileq φ) : Event φ → Prop
  | .dofh serv _ _ => serv ∈ s.servs ∧ ¬ s.pc.atHead
  | .go => s.pc ≠ .idle
  | .timer => s.pc = .idle ∧ s.tmo.any (· ≤ s.now)
  | .tick _ => ¬ s.pc.atHead
  | .create serv => serv ∉ s.servs ∧ ¬ s.pc.atHead
  | .destroy serv => serv ∈ s.servs ∧ ¬ s.pc.atHead

/-- While the `CLOSE` of the only entry is at work no entry is made; a server that goes away within
a `CLOSE` is neither that of the saved successor nor that of the entry to be opened; and the time
that is read within a clean-up is at most a minute after its beginning. -/
def Fine (s : Fileq φ) : Event φ → Prop
  | .dofh serv fh _ => s.pc.atLast → (s.find serv fh).isSome
  | .tick t => ∀ since ∈ s.pc.since, since ≤ t ∧ t ≤ since + minlife
  | .destroy serv => ∀ i ∈ s.pc.followed, ∀ t ∈ s.obj i, t.serv ≠ serv
  | _ => True

instance (s : Fileq φ) : (e : Event φ) → Decidable (Can s e)
  | .dofh .. => inferInstanceAs (Decidable (_ ∧ _))
  | .go => inferInstanceAs (Decidable (_ ≠ _))
  | .timer => inferInstanceAs (Decidable (_ ∧ _))
  | .tick _ => inferInstanceAs (Decidable (¬ _))
  | .create _ => inferInstanceAs (Decidable (_ ∧ _))
  | .destroy _ => inferInstanceAs (Decidable (_ ∧ _))

instance (s : Fileq φ) : (e : Event φ) → Decidable (Fine s e)
  | .dofh .. => inferInstanceAs (Decidable (_ → _))
  | .go => .isTrue trivial
  | .timer => .isTrue trivial
  | .tick t => inferInstanceAs (Decidable (∀ since ∈ s.pc.since, since ≤ t ∧ t ≤ since + minlife))
  | .create _ => .isTrue trivial
  | .destroy serv => inferInstanceAs
      (Decidable (∀ i ∈ s.pc.followed, ∀ t ∈ s.obj i, t.serv ≠ serv))

end Model

section Queue

variable {f : ℕ → ℤ} {z x : ℕ} {xs : List ℕ}

theorem insertq_perm (f : ℕ → ℤ) (z : ℕ) (xs : List ℕ) : (insertq f z xs).Perm (z :: xs) := by
  induction xs with
  | nil => exact .refl _
  | cons x xs ih =>
    rw [insertq]
    split_ifs
    · exact .refl _
    · exact (ih.cons x).trans (.swap z x xs)

theorem insertq_sorted (h : xs.Pairwise fun i j => f i ≤ f j) :
    (insertq f z xs).Pairwise fun i j => f i ≤ f j := by
  induction xs with
  | nil => exact List.pairwise_singleton _ _
  | cons x xs ih =>
    obtain ⟨hx, hxs⟩ := List.pairwise_cons.mp h
    rw [insertq]
    split_ifs with hlt
    · refine List.pairwise_cons.mpr ⟨fun j hj => ?_, h⟩
      rcases List.mem_cons.mp hj with rfl | hj
      · omega
      · have hle := hx j hj
        omega
    · refine List.pairwise_cons.mpr ⟨fun j hj => ?_, ih hxs⟩
      rcases List.mem_cons.mp ((insertq_perm f z xs).mem_iff.mp hj) with rfl | hj
      · omega
      · exact hx j hj

theorem head?_insertq (hhead : xs.head? = some x) (hle : f x ≤ f z) :
    (insertq f z xs).head? = some x := by
  cases xs with
  | nil => cases hhead
  | cons y ys =>
    cases hhead
    rw [insertq, if_neg (by omega), List.head?_cons]

theorem head?_erase (hhead : xs.head? = some x) (hne : z ≠ x) : (xs.erase z).head? = some x := by
  cases xs with
  | nil => cases hhead
  | cons y ys =>
    cases hhead
    rw [List.erase_cons_tail (by simpa using hne.symm), List.head?_cons]

theorem nextq_head (x : ℕ) (xs : List ℕ) : nextq x (x :: xs) = xs.head? := by
  rw [nextq, List.dropWhile_cons_of_neg (by simp), List.tail_cons]

end Queue

section Operations

variable {φ : Type} {mo : ℤ} {s s' : Fileq φ}

/-- The queue and the tables hold the entries that are allocated, each once. -/
structure Inv (mo : ℤ) (s : Fileq φ) : Prop where
  table : ∀ serv i, i ∈ s.fhtab serv ↔ ∃ t, s.obj i = some t ∧ t.serv = serv
  queue : ∀ i, i ∈ s.timeq ↔ ∃ t, s.obj i = some t
  tnodup : ∀ serv, (s.fhtab serv).Nodup
  nodup : s.timeq.Nodup
  sorted : s.timeq.Pairwise fun i j => s.expire i ≤ s.expire j
  fresh : ∀ i, s.alloc ≤ i → s.obj i = none
  count : s.minopen = mo - s.timeq.length

namespace Fileq

variable {t : Fhtimer φ}

theorem expire_eq {i : ℕ} (h : s.obj i = some t) : s.expire i = t.expire := by
  rw [expire, h, Option.map_some, Option.getD_some]

/-- What `fhtouch` and `fhopen` do to the entry `i`: nothing but to set its time. -/
structure Touched (s : Fileq φ) (i : ℕ) (s' : Fileq φ) : Prop where
  now : s'.now = s.now
  servs : s'.servs = s.servs
  alloc : s'.alloc = s.alloc
  minopen : s'.minopen = s.minopen
  tmo : s'.tmo = s.tmo
  fhtab : s'.fhtab = s.fhtab
  pc : s'.pc = s.pc
  closes : s'.closes = s.closes
  timeq : s'.timeq = insertq s'.expire i (s.timeq.erase i)
  others : ∀ j, j ≠ i → s'.obj j = s.obj j
  self : ∃ t t', s.obj i = some t ∧ s'.obj i = some t' ∧ t'.serv = t.serv ∧
    s.now + minlife ≤ t'.expire

theorem fhtouch_eq {i : ℕ} (h : s.obj i = some t) :
    ∃ s', s.fhtouch i = some s' ∧ Touched s i s' := by
  refine ⟨_, by rw [fhtouch, h]; rfl, ?_⟩
  exact {
    now := rfl, servs := rfl, alloc := rfl, minopen := rfl, tmo := rfl, fhtab := rfl, pc := rfl
    closes := rfl
    timeq := rfl
    others := fun j hj => Function.update_of_ne hj _ _
    self := by
      refine ⟨t, _, h, Function.update_self _ _ _, rfl, ?_⟩
      simp only [minlife, openlife]
      split_ifs <;> omega }

theorem fhopen_eq {i : ℕ} (h : s.obj i = some t) : ∃ s', s.fhopen i = some s' ∧ Touched s i s' := by
  obtain ⟨s', hs', htouched⟩ := fhtouch_eq
    (s := { s with obj := Function.update s.obj i (some { t with opened := true }) })
    (Function.update_self i (some { t with opened := true }) s.obj)
  refine ⟨s', by rw [fhopen, h]; exact hs', ?_⟩
  obtain ⟨t₁, t', ht₁, ht', hserv, hlife⟩ := htouched.self
  have htime : t₁ = { t with opened := true } :=
    Option.some.inj (ht₁.symm.trans (Function.update_self _ _ _))
  exact {
    now := htouched.now, servs := htouched.servs, alloc := htouched.alloc
    minopen := htouched.minopen, tmo := htouched.tmo, fhtab := htouched.fhtab, pc := htouched.pc
    closes := htouched.closes
    timeq := htouched.timeq
    others := fun j hj => (htouched.others j hj).trans (Function.update_of_ne hj _ _)
    self := ⟨t, t', h, ht', by rw [hserv, htime], hlife⟩ }

namespace Touched

variable {i : ℕ}

theorem perm (h : Touched s i s') (hinv : Inv mo s) : s'.timeq.Perm s.timeq := by
  obtain ⟨t, -, ht, -⟩ := h.self
  rw [h.timeq]
  exact (insertq_perm _ _ _).trans (List.perm_cons_erase ((hinv.queue i).mpr ⟨t, ht⟩)).symm

theorem expire_ne (h : Touched s i s') {j : ℕ} (hj : j ≠ i) : s'.expire j = s.expire j := by
  rw [expire, expire, h.others j hj]

theorem obj_iff (h : Touched s i s') (j : ℕ) (p : ℕ → Prop) :
    (∃ t, s'.obj j = some t ∧ p t.serv) ↔ ∃ t, s.obj j = some t ∧ p t.serv := by
  obtain ⟨t, t', ht, ht', hserv, -⟩ := h.self
  by_cases hj : j = i
  · subst hj
    rw [ht, ht']
    simp only [Option.some.injEq, exists_eq_left', hserv]
  · rw [h.others j hj]

theorem inv (h : Touched s i s') (hinv : Inv mo s) : Inv mo s' := by
  have hperm := h.perm hinv
  refine ⟨fun serv j => ?_, fun j => ?_, fun serv => ?_, hperm.nodup_iff.mpr hinv.nodup, ?_,
    fun j hj => ?_, ?_⟩
  · rw [h.fhtab, hinv.table serv j]
    exact (h.obj_iff j (· = serv)).symm
  · have hiff := h.obj_iff j fun _ => True
    simp only [and_true] at hiff
    rw [hperm.mem_iff, hinv.queue j, hiff]
  · rw [h.fhtab]
    exact hinv.tnodup serv
  · rw [h.timeq]
    refine insertq_sorted ?_
    refine (hinv.sorted.sublist List.erase_sublist).imp_of_mem fun {a b} ha hb hab => ?_
    rw [h.expire_ne (hinv.nodup.mem_erase_iff.mp ha).1,
      h.expire_ne (hinv.nodup.mem_erase_iff.mp hb).1]
    exact hab
  · obtain ⟨t, -, ht, -⟩ := h.self
    rw [h.alloc] at hj
    have hji : j ≠ i := by
      rintro rfl
      rw [hinv.fresh j hj] at ht
      cases ht
    rw [h.others j hji]
    exact hinv.fresh j hj
  · rw [h.minopen, hinv.count, hperm.length_eq]

end Touched

/-- What `fhfree` of the entries `L` leaves. -/
structure Freed (s : Fileq φ) (L : List ℕ) (s' : Fileq φ) : Prop where
  now : s'.now = s.now
  servs : s'.servs = s.servs
  tmo : s'.tmo = s.tmo
  pc : s'.pc = s.pc
  closes : s'.closes = s.closes
  timeq : s'.timeq = L.foldl List.erase s.timeq
  freed : ∀ i ∈ L, s'.obj i = none
  others : ∀ i, i ∉ L → s'.obj i = s.obj i

theorem fhfree_eq {i : ℕ} (hinv : Inv mo s) (h : s.obj i = some t) :
    ∃ s', s.fhfree t.serv i = some s' ∧ Inv mo s' ∧ Freed s [i] s' := by
  have hmem : i ∈ s.timeq := (hinv.queue i).mpr ⟨t, h⟩
  have hobj : ∀ j, (∃ t', Function.update s.obj i none j = some t') ↔
      j ≠ i ∧ ∃ t', s.obj j = some t' := by
    intro j
    by_cases hj : j = i
    · subst hj
      simp only [Function.update_self, reduceCtorEq, exists_false, ne_eq, not_true_eq_false,
        false_and]
    · simp only [Function.update_of_ne hj, ne_eq, hj, not_false_eq_true, true_and]
  refine ⟨{ s with
    timeq := s.timeq.erase i
    fhtab := Function.update s.fhtab t.serv ((s.fhtab t.serv).erase i)
    minopen := s.minopen + 1
    obj := Function.update s.obj i none }, ?_, ?_, ?_⟩
  · rw [fhfree, h]
    simp only [Option.bind_eq_bind, Option.bind_some, if_true]
  · refine ⟨fun serv j => ?_, fun j => ?_, fun serv => ?_, hinv.nodup.erase i, ?_, fun j hj => ?_,
      ?_⟩
    · by_cases hj : j = i
      · subst hj
        simp only [Function.update_self, reduceCtorEq, false_and, exists_false, iff_false]
        by_cases hserv : serv = t.serv
        · subst hserv
          rw [Function.update_self]
          exact fun hin => ((hinv.tnodup _).mem_erase_iff.mp hin).1 rfl
        · rw [Function.update_of_ne hserv, hinv.table]
          rintro ⟨t', ht', rfl⟩
          rw [h] at ht'
          cases ht'
          exact hserv rfl
      · simp only [Function.update_of_ne hj]
        rw [← hinv.table]
        by_cases hserv : serv = t.serv
        · subst hserv
          rw [Function.update_self]
          exact List.mem_erase_of_ne hj
        · rw [Function.update_of_ne hserv]
    · rw [hinv.nodup.mem_erase_iff, hinv.queue j]
      exact (hobj j).symm
    · by_cases hserv : serv = t.serv
      · subst hserv
        simp only [Function.update_self]
        exact (hinv.tnodup _).erase i
      · simp only [Function.update_of_ne hserv]
        exact hinv.tnodup serv
    · refine (hinv.sorted.sublist List.erase_sublist).imp_of_mem fun {a b} ha hb hab => ?_
      have hane := (hinv.nodup.mem_erase_iff.mp ha).1
      have hbne := (hinv.nodup.mem_erase_iff.mp hb).1
      simpa only [expire, Function.update_of_ne hane, Function.update_of_ne hbne] using hab
    · by_cases hji : j = i
      · subst hji
        exact Function.update_self _ _ _
      · exact (Function.update_of_ne hji _ _).trans (hinv.fresh j hj)
    · have hcount := hinv.count
      have hlen := List.length_erase_add_one hmem
      change s.minopen + 1 = mo - ((s.timeq.erase i).length : ℤ)
      omega
  · exact {
      now := rfl, servs := rfl, tmo := rfl, pc := rfl, closes := rfl
      timeq := rfl
      freed := fun j hj => by
        rw [List.mem_singleton.mp hj]
        exact Function.update_self _ _ _
      others := fun j hj => Function.update_of_ne (fun h => hj (List.mem_singleton.mpr h)) _ _ }

theorem foldlM_fhfree {serv : ℕ} {L : List ℕ} (hinv : Inv mo s) (hL : L.Nodup)
    (hserv : ∀ i ∈ L, ∃ t, s.obj i = some t ∧ t.serv = serv) :
    ∃ s', L.foldlM (fhfree serv) s = some s' ∧ Inv mo s' ∧ Freed s L s' := by
  induction L generalizing s with
  | nil =>
    refine ⟨s, rfl, hinv, ?_⟩
    exact {
      now := rfl, servs := rfl, tmo := rfl, pc := rfl, closes := rfl, timeq := rfl
      freed := fun i hi => by cases hi
      others := fun i _ => rfl }
  | cons i L ih =>
    obtain ⟨hi, hL⟩ := List.nodup_cons.mp hL
    obtain ⟨t, ht, rfl⟩ := hserv i List.mem_cons_self
    obtain ⟨s₁, hs₁, hinv₁, hfreed⟩ := fhfree_eq hinv ht
    have hrest : ∀ j ∈ L, ∃ t', s₁.obj j = some t' ∧ t'.serv = t.serv := by
      intro j hj
      have hji : j ∉ [i] := fun h => hi (List.mem_singleton.mp h ▸ hj)
      rw [hfreed.others j hji]
      exact hserv j (List.mem_cons_of_mem _ hj)
    obtain ⟨s', hs', hinv', hfreed'⟩ := ih hinv₁ hL hrest
    refine ⟨s', ?_, hinv', ?_⟩
    · rw [List.foldlM_cons, hs₁]
      exact hs'
    · exact {
        now := hfreed'.now.trans hfreed.now
        servs := hfreed'.servs.trans hfreed.servs
        tmo := hfreed'.tmo.trans hfreed.tmo
        pc := hfreed'.pc.trans hfreed.pc
        closes := hfreed'.closes.trans hfreed.closes
        timeq := by rw [hfreed'.timeq, hfreed.timeq]; rfl
        freed := fun j hj => by
          by_cases hjL : j ∈ L
          · exact hfreed'.freed j hjL
          · rw [hfreed'.others j hjL]
            rcases List.mem_cons.mp hj with rfl | hjL'
            · exact hfreed.freed j List.mem_cons_self
            · exact absurd hjL' hjL
        others := fun j hj => by
          obtain ⟨hji, hjL⟩ := not_or.mp (mt List.mem_cons.mpr hj)
          rw [hfreed'.others j hjL, hfreed.others j (mt List.mem_singleton.mp hji)] }

theorem head?_foldl_erase {x : ℕ} {L xs : List ℕ} (hx : x ∉ L) (hhead : xs.head? = some x) :
    (L.foldl List.erase xs).head? = some x := by
  induction L generalizing xs with
  | nil => exact hhead
  | cons y L ih =>
    obtain ⟨hxy, hxL⟩ := not_or.mp (mt List.mem_cons.mpr hx)
    exact ih hxL (head?_erase hhead fun h => hxy h.symm)

theorem fhalloc_others (serv : ℕ) (fh : φ) {i : ℕ} (hi : i ≠ s.alloc) :
    (s.fhalloc serv fh).obj i = s.obj i := Function.update_of_ne hi _ _

theorem fhalloc_self (s : Fileq φ) (serv : ℕ) (fh : φ) : (s.fhalloc serv fh).obj s.alloc =
    some { fh := fh, serv := serv, expire := s.now + minlife, opened := false } :=
  Function.update_self _ _ _

theorem fhalloc_inv (hinv : Inv mo s) (serv : ℕ) (fh : φ) : Inv mo (s.fhalloc serv fh) := by
  have hnew : ∀ i, (∃ t, s.obj i = some t) → i ≠ s.alloc := by
    rintro i ⟨t, ht⟩ rfl
    rw [hinv.fresh _ (Nat.le_refl _)] at ht
    cases ht
  have hnot : s.alloc ∉ s.timeq := fun hin => hnew _ ((hinv.queue _).mp hin) rfl
  have hperm : (s.fhalloc serv fh).timeq.Perm (s.alloc :: s.timeq) := insertq_perm _ _ _
  have hsame : ∀ i ∈ s.timeq, (s.fhalloc serv fh).expire i = s.expire i := by
    intro i hi
    rw [expire, expire, fhalloc_others serv fh (hnew i ((hinv.queue i).mp hi))]
  refine ⟨fun serv' i => ?_, fun i => ?_, fun serv' => ?_, ?_, ?_, fun i hi => ?_, ?_⟩
  · by_cases hi : i = s.alloc
    · subst hi
      rw [fhalloc_self]
      simp only [Option.some.injEq, exists_eq_left']
      by_cases hserv : serv' = serv
      · subst hserv
        simp only [fhalloc, enqueue, Function.update_self, List.mem_cons, true_or]
      · simp only [fhalloc, enqueue, Function.update_of_ne hserv]
        refine iff_of_false (fun hin => ?_) (Ne.symm hserv)
        obtain ⟨t, ht, -⟩ := (hinv.table serv' _).mp hin
        exact hnew _ ⟨t, ht⟩ rfl
    · rw [fhalloc_others serv fh hi, ← hinv.table]
      by_cases hserv : serv' = serv
      · subst hserv
        simp only [fhalloc, enqueue, Function.update_self, List.mem_cons, hi, false_or]
      · simp only [fhalloc, enqueue, Function.update_of_ne hserv]
  · rw [hperm.mem_iff, List.mem_cons]
    by_cases hi : i = s.alloc
    · subst hi
      exact iff_of_true (.inl rfl) ⟨_, fhalloc_self s serv fh⟩
    · rw [fhalloc_others serv fh hi, ← hinv.queue]
      exact or_iff_right hi
  · by_cases hserv : serv' = serv
    · subst hserv
      simp only [fhalloc, enqueue, Function.update_self]
      refine List.nodup_cons.mpr ⟨fun hin => ?_, hinv.tnodup _⟩
      obtain ⟨t, ht, -⟩ := (hinv.table _ _).mp hin
      exact hnew _ ⟨t, ht⟩ rfl
    · simp only [fhalloc, enqueue, Function.update_of_ne hserv]
      exact hinv.tnodup serv'
  · exact hperm.nodup_iff.mpr (List.nodup_cons.mpr ⟨hnot, hinv.nodup⟩)
  · refine insertq_sorted (hinv.sorted.imp_of_mem fun {a b} ha hb hab => ?_)
    rw [hsame a ha, hsame b hb]
    exact hab
  · change s.alloc + 1 ≤ i at hi
    rw [fhalloc_others serv fh (by omega)]
    exact hinv.fresh i (by omega)
  · have hcount := hinv.count
    rw [hperm.length_eq, List.length_cons]
    change s.minopen - 1 = _
    omega

end Fileq

end Operations

end Sfslite.Sfsmisc.Closesim
