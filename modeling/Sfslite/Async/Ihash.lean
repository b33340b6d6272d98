import Sfslite.Async.Msb
import Sfslite.Lib.Hlist
import Sfslite.Lib.Run

/-!
The intrusive hash table of `ihash.h` and `ihash.C`. An element is its address, and a pointer is
null where it is `none`. The bucket arrays are numbered in the order they are made, and number
zero is the null pointer; an array that was deleted has length zero.
-/

namespace Sfslite.Async.Ihash

open Sfslite.Lib.Hlist

/-- `hash_t`. -/
abbrev Hash := BitVec 32

/-- What a `void **` may point at: a bucket of an array, or the `next` field of an element. -/
abbrev Pprev := Place (ℕ × ℕ) ℕ

/-- `_ihash_entry`, the field that an element has for the table. -/
@[ext]
structure IhashEntry where
  next : Option ℕ
  pprev : Pprev
  val : Hash

/-- The fields of the elements, and the bucket arrays with their lengths. -/
@[ext]
structure Mem where
  entry : ℕ → IhashEntry
  cell : ℕ × ℕ → Option ℕ
  len : ℕ → ℕ
  arrays : ℕ

/-- Why a call does not return: no memory, a look outside of an array, a loop without end. -/
inductive Stop where
  | noMemory
  | outside
  | endless
deriving DecidableEq, Repr

namespace Mem

def setNext (m : Mem) (e : ℕ) (o : Option ℕ) : Mem :=
  { m with entry := Function.update m.entry e { m.entry e with next := o } }

def setPprev (m : Mem) (e : ℕ) (p : Pprev) : Mem :=
  { m with entry := Function.update m.entry e { m.entry e with pprev := p } }

/-- `if (o) o->pprev = p`. -/
def setBack (m : Mem) (o : Option ℕ) (p : Pprev) : Mem :=
  match o with
  | some q => m.setPprev q p
  | none => m

def setVal (m : Mem) (e : ℕ) (hval : Hash) : Mem :=
  { m with entry := Function.update m.entry e { m.entry e with val := hval } }

def load (m : Mem) (tab i : ℕ) : Except Stop (Option ℕ) :=
  if i < m.len tab then .ok (m.cell (tab, i)) else .error .outside

def store (m : Mem) (tab i : ℕ) (o : Option ℕ) : Except Stop Mem :=
  if i < m.len tab then .ok { m with cell := Function.update m.cell (tab, i) o }
  else .error .outside

/-- `*p = o`. -/
def assign (m : Mem) (p : Pprev) (o : Option ℕ) : Except Stop Mem :=
  match p with
  | .head (tab, i) => m.store tab i o
  | .next e => .ok (m.setNext e o)

/-- `new void*[n]` and `bzero`: no memory has room for `2 ^ 61` pointers. -/
def newArray (m : Mem) (n : ℕ) : Except Stop Mem :=
  if n < 2 ^ 61 then
    .ok { m with
      cell := fun k => if k.1 = m.arrays + 1 then none else m.cell k
      len := Function.update m.len (m.arrays + 1) n
      arrays := m.arrays + 1 }
  else .error .noMemory

/-- `delete[]`. -/
def deleteArray (m : Mem) (tab : ℕ) : Mem := { m with len := Function.update m.len tab 0 }

end Mem

/-- `_ihash_table`. -/
structure IhashTable where
  buckets : ℕ
  entries : ℕ
  tab : ℕ
deriving DecidableEq, Repr

/-- Some prime numbers up to the powers of two. -/
def exp2primes : List ℕ :=
  [0x1, 0x2, 0x3, 0x7, 0xd, 0x1f, 0x3d, 0x7f, 0xfb, 0x1fd, 0x3fd, 0x7f7, 0xffd, 0x1fff, 0x3ffd,
   0x7fed, 0xfff1, 0x1ffff, 0x3fffb, 0x7ffff, 0xffffd, 0x1ffff7, 0x3ffffd, 0x7ffff1, 0xfffffd,
   0x1ffffd9, 0x3fffffb, 0x7ffffd9, 0xfffffc7, 0x1ffffffd, 0x3fffffdd, 0x7fffffff, 0xfffffffb]

/-- The number of buckets that `_ihash_grow` settles on. -/
def grownBuckets (buckets nbuckets : ℕ) : Except Stop ℕ :=
  if nbuckets = 0 ∨ nbuckets < buckets then
    match exp2primes[(log2c64 (BitVec.ofNat 64 buckets) + 1).toNat]? with
    | some prime => .ok (if prime < 3 then 3 else prime)
    | none => .error .outside
  else .ok nbuckets

/-- The inner loop of `_ihash_grow`: the elements from `p` on go to the fronts of the buckets of
the new array. The loop may take `fuel` turns. -/
def moveBucket (ntab nbuckets : ℕ) : ℕ → Mem → Option ℕ → Except Stop Mem
  | _, m, none => .ok m
  | 0, _, some _ => .error .endless
  | fuel + 1, m, some p => do
      let ni := (m.entry p).val.toNat % nbuckets
      let np := (m.entry p).next
      let front ← m.load ntab ni
      let m := m.setNext p front
      let m := m.setPprev p (.head (ntab, ni))
      let m := m.setBack front (.next p)
      let m ← m.store ntab ni (some p)
      moveBucket ntab nbuckets fuel m np

/-- `_ihash_grow`. A bucket has no more elements than the table counts. -/
def ihashGrow (m : Mem) (t : IhashTable) (nbuckets : ℕ) : Except Stop (Mem × IhashTable) := do
  let nbuckets ← grownBuckets t.buckets nbuckets
  let m ← m.newArray nbuckets
  let ntab := m.arrays
  let m ← (List.range t.buckets).foldlM (fun m i => do
    let p ← m.load t.tab i
    moveBucket ntab nbuckets t.entries m p) m
  let m := m.deleteArray t.tab
  pure (m, { t with tab := ntab, buckets := nbuckets })

/-- The table, the memory, and the elements that were inserted and not removed, with the hashes
they were inserted with. -/
structure Core where
  mem : Mem
  t : IhashTable
  live : List (ℕ × Hash)

/-- The automatic growth, at the beginning of `insert_val`. -/
def growFull (m : Mem) (t : IhashTable) : Except Stop (Mem × IhashTable) :=
  if t.entries ≥ t.buckets then ihashGrow m t 0 else .ok (m, t)

def insertVal (m : Mem) (t : IhashTable) (elm : ℕ) (hval : Hash) :
    Except Stop (Mem × IhashTable) := do
  let (m, t) ← growFull m { t with entries := t.entries + 1 }
  let m := m.setVal elm hval
  let bn := hval.toNat % t.buckets
  let np ← m.load t.tab bn
  let m := m.setBack np (.next elm)
  let m := m.setNext elm np
  let m := m.setPprev elm (.head (t.tab, bn))
  let m ← m.store t.tab bn (some elm)
  pure (m, t)

def remove (m : Mem) (t : IhashTable) (elm : ℕ) : Except Stop (Mem × IhashTable) := do
  let t := { t with entries := t.entries - 1 }
  let m := m.setBack (m.entry elm).next (m.entry elm).pprev
  let m ← m.assign (m.entry elm).pprev (m.entry elm).next
  pure (m, t)

/-- `init`, with which the constructor and `clear` make an empty table. -/
def init (m : Mem) : Except Stop (Mem × IhashTable) := ihashGrow m ⟨0, 0, 0⟩ 0

def clear (m : Mem) (t : IhashTable) : Except Stop (Mem × IhashTable) :=
  init (m.deleteArray t.tab)

inductive Event where
  | insertVal (elm : ℕ) (hval : Hash)
  | remove (elm : ℕ)
  | reserve (sz : BitVec 64)
  | clear
deriving DecidableEq, Repr

def construct (m : Mem) : Except Stop Core := do
  let (m, t) ← init m
  pure ⟨m, t, []⟩

def call (s : Core) : Event → Except Stop Core
  | .insertVal elm hval => do
      let (m, t) ← insertVal s.mem s.t elm hval
      pure ⟨m, t, (elm, hval) :: s.live⟩
  | .remove elm => do
      let (m, t) ← remove s.mem s.t elm
      pure ⟨m, t, s.live.filter (·.1 ≠ elm)⟩
  | .reserve sz => do
      let (m, t) ← ihashGrow s.mem s.t sz.toNat
      pure ⟨m, t, s.live⟩
  | .clear => do
      let (m, t) ← clear s.mem s.t
      pure ⟨m, t, []⟩

def step (s : Core) (e : Event) : Option Core := (call s e).toOption

/-- What the debugging checks of `insert_val` and `remove` ask of the caller. -/
def Allowed (s : Core) : Event → Prop
  | .insertVal elm _ => elm ∉ s.live.map Prod.fst
  | .remove elm => elm ∈ s.live.map Prod.fst
  | .reserve _ => True
  | .clear => True

instance (s : Core) (e : Event) : Decidable (Allowed s e) := by
  cases e <;> unfold Allowed <;> infer_instance

namespace Core

/-- The loop of `lookup_val` and `next_val`: the first element with the hash from a pointer on. -/
def findVal (s : Core) (hval : Hash) : ℕ → Option ℕ → Except Stop (Option ℕ)
  | _, none => .ok none
  | 0, some _ => .error .endless
  | fuel + 1, some elm =>
    if (s.mem.entry elm).val ≠ hval then s.findVal hval fuel (s.mem.entry elm).next
    else .ok (some elm)

def lookupVal (s : Core) (hval : Hash) : Except Stop (Option ℕ) := do
  let elm ← s.mem.load s.t.tab (hval.toNat % s.t.buckets)
  s.findVal hval s.t.entries elm

def nextVal (s : Core) (elm : ℕ) : Except Stop (Option ℕ) :=
  s.findVal (s.mem.entry elm).val s.t.entries (s.mem.entry elm).next

/-- The loop of `first` and `next`: the front of the first of `n` buckets, from bucket `i` on,
that is not empty. -/
def findBucket (s : Core) : ℕ → ℕ → Except Stop (Option ℕ)
  | 0, _ => .ok none
  | n + 1, i => do
      match ← s.mem.load s.t.tab i with
      | some elm => pure (some elm)
      | none => s.findBucket n (i + 1)

def first (s : Core) : Except Stop (Option ℕ) :=
  if s.t.entries ≠ 0 then s.findBucket s.t.buckets 0 else .ok none

def next (s : Core) (n : ℕ) : Except Stop (Option ℕ) :=
  match (s.mem.entry n).next with
  | some elm => .ok (some elm)
  | none =>
    let i := (s.mem.entry n).val.toNat % s.t.buckets
    s.findBucket (s.t.buckets - (i + 1)) (i + 1)

/-- The elements that a loop `for (; e; e = succ (e))` sees, if `fuel` turns are enough. -/
def visit (succ : ℕ → Except Stop (Option ℕ)) : ℕ → Option ℕ → Except Stop (List ℕ)
  | _, none => .ok []
  | 0, some _ => .error .endless
  | fuel + 1, some e => do
      let o ← succ e
      let l ← visit succ fuel o
      pure (e :: l)

/-- The loop of `present` and of the lookups by key. -/
def visitVal (s : Core) (hval : Hash) : Except Stop (List ℕ) := do
  let e ← s.lookupVal hval
  visit s.nextVal s.t.entries e

/-- The loop of `ihash_iterator_t`. -/
def visitAll (s : Core) : Except Stop (List ℕ) := do
  let e ← s.first
  visit s.next s.t.entries e

end Core

end Sfslite.Async.Ihash
