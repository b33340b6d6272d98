import Sfslite.Async.Tailq

/-!
The arenas of the collector for big objects. Memory slots grow up from the base, pointer slots
grow down from the top. An assertion that fails is `none`.
-/

namespace Sfslite.Safeptr.Gc

open Lib

/-- `align`, over `size_t` -/
def align (n a : BitVec 64) : BitVec 64 :=
  let a := a - 1
  (n + a) &&& ~~~a

/-- `boa_obj_align`, with `sizeof (void *)` -/
def boaObjAlign (sz : ℕ) : ℕ :=
  (align (BitVec.ofNat 64 sz) 8).toNat

namespace Bigptr

def magic : ℕ := 0xefbeefbe

/-- `sizeof (bigptr_t)` -/
def sizeof : ℕ := 24

section

variable (m : Memory) (p : ℕ)

def check : Bool :=
  m.load 4 p = magic

/-- `_ms` -/
def memslot : ℕ :=
  m.load 8 (p + 8)

def setMemSlot (ms : ℕ) : Memory :=
  m.store 8 (p + 8) ms

/-- `_count`, an `int32_t` -/
def count : ℤ :=
  (BitVec.ofNat 32 (m.load 4 (p + 16))).toInt

def setCount (i : ℤ) : Memory :=
  m.store 4 (p + 16) (BitVec.ofInt 32 i).toNat

/-- The constructor of `bigptr_t`. -/
def bigptr (ms : ℕ) : Memory :=
  (setCount (setMemSlot m p ms) p 0).store 4 p magic

end

end Bigptr

namespace Bigslot

def magic : ℕ := 0xfbeefbee

/-- The offset of `_next`. -/
def field : ℕ := 8

section

variable (g : ℕ) (m : Memory) (s : ℕ)

def check : Bool :=
  m.load 4 s = magic

/-- `_sz` -/
def sz : ℕ :=
  m.load 8 (s + 24)

/-- `_ptrslot` -/
def ptrslot : ℕ :=
  m.load 8 (s + 32)

/-- The address of `_data`, behind a `_gcp` of `g` bytes. -/
def dataAt : ℕ :=
  s + 40 + g

/-- `sizeof (bigslot_t)`, where `_gcp` takes `g` bytes -/
def sizeof : ℕ :=
  (40 + g + 7) / 8 * 8

/-- `size (s)` for the size of an object -/
def sizeOf (n : ℕ) : ℕ :=
  (boaObjAlign n + sizeof g) % 2 ^ 64

/-- `size ()` -/
def size : Option ℕ :=
  if check m s then some (sizeOf g (sz m s)) else none

/-- `data ()` -/
def data : Option ℕ :=
  if check m s then some (dataAt g s) else none

/-- The constructor of `bigslot_t`, without `mark_unitialized`. -/
def bigslot (n p : ℕ) : Memory :=
  ((m.store 8 (s + 24) n).store 8 (s + 32) p).store 4 s magic

/-- `copy_reinit`: the slot at `s` becomes the slot at `ms`. -/
def copyReinit (ms : ℕ) : Memory :=
  let m := m.store 8 (s + 32) (ptrslot m ms)
  let m := m.store 8 (s + 24) (sz m ms)
  let m := m.move (dataAt g s) (dataAt g ms) (sz m ms)
  m.store 4 s magic

/-- `reseat` -/
def reseat : Option Memory :=
  if check m s then some (Bigptr.setMemSlot m (ptrslot m s) s) else none

end

end Bigslot

/-- A `bigobj_arena_t` with the memory it is in. The pointer slot that was freed last is the first
of `freePtrslots`. `gcp` is the size of a `_gcp`, and `debugMem` is the flag for all arenas. -/
structure Arena where
  mem : Memory
  base : ℕ
  sz : ℕ
  top : ℕ
  nxtPtrslot : ℕ
  nxtMemslot : ℕ
  memslots : ℕ
  freePtrslots : List ℕ
  unclaimedSpace : ℕ
  gcp : ℕ
  debugMem : Bool

namespace Arena

/-- The constructor of `bigobj_arena_t`, with `init`. The list is at `memslots`. -/
def bigobjArena (mem : Memory) (base sz memslots gcp : ℕ) (debugMem : Bool) : Arena where
  mem := Tailq.tailq mem memslots
  base := base
  sz := sz
  top := base + sz
  nxtPtrslot := base + sz - Bigptr.sizeof
  nxtMemslot := base
  memslots := memslots
  freePtrslots := []
  unclaimedSpace := 0
  gcp := gcp
  debugMem := debugMem

variable (a : Arena)

/-- `mark_unitialized` -/
def markUnitialized (m : Memory) (p n : ℕ) : Memory :=
  if a.debugMem then m.fill p n 0xca else m

/-- `mark_deallocated` -/
def markDeallocated (m : Memory) (p n : ℕ) : Memory :=
  if a.debugMem then m.fill p n 0xdf else m

def freeSpace : ℕ :=
  if a.nxtMemslot < a.nxtPtrslot then a.nxtPtrslot - a.nxtMemslot else 0

def canFit (sz : ℕ) : Bool :=
  Bigslot.sizeOf a.gcp (boaObjAlign sz) ≤ a.freeSpace

def getFreePtrslot : Option (ℕ × Arena) :=
  match a.freePtrslots with
  | ret :: rest =>
    if Bigptr.count a.mem ret = -1 ∧ a.nxtPtrslot < ret then
      some (ret, { a with freePtrslots := rest })
    else none
  | [] => some (a.nxtPtrslot, { a with nxtPtrslot := a.nxtPtrslot - Bigptr.sizeof })

/-- The rest of `aalloc`, with the pointer slot `p` -/
def place (sz p : ℕ) : Option (Arena × Option ℕ) :=
  let ms := a.nxtMemslot
  let m := Bigptr.bigptr a.mem p ms
  let m := Bigslot.bigslot m ms (boaObjAlign sz) p
  let m := a.markUnitialized m (Bigslot.dataAt a.gcp ms) (boaObjAlign sz)
  if Bigptr.count m p = 0 then
    (Bigslot.size a.gcp m ms).bind fun size =>
      some ({ a with
        mem := Tailq.insertTail Bigslot.field m a.memslots ms
        nxtMemslot := (ms + size) % 2 ^ 64 }, some p)
  else none

/-- `aalloc`: the pointer slot of the new object, or null. -/
def aalloc (sz : ℕ) : Option (Arena × Option ℕ) :=
  if a.canFit sz then
    if a.nxtMemslot < a.nxtPtrslot then
      a.getFreePtrslot.bind fun r => if r.1 ≠ 0 then r.2.place sz r.1 else none
    else none
  else some (a, none)

/-- The list of memory slots from `s` on, each with its magic number. -/
def checkSlots (m : Memory) : ℕ → ℕ → Bool
  | 0, _ => false
  | fuel + 1, s =>
    if s = 0 then true
    else Bigslot.check m s && checkSlots m fuel (Tailq.next Bigslot.field m s)

/-- The pointer slots from `p` to the top, each with its magic number. -/
def checkPtrs (m : Memory) (top : ℕ) : ℕ → ℕ → Bool
  | 0, _ => false
  | fuel + 1, p =>
    if p < top then Bigptr.check m p && checkPtrs m top fuel (p + Bigptr.sizeof) else true

/-- `sanity_check` -/
def sanityCheck : Bool :=
  checkSlots a.mem (a.sz + 1) (a.mem.load 8 a.memslots) &&
    a.freePtrslots.head?.all (fun p => a.nxtPtrslot + Bigptr.sizeof ≤ p) &&
    checkPtrs a.mem a.top (a.sz + 1) (a.nxtPtrslot + Bigptr.sizeof)

/-- `remove` -/
def remove (s : ℕ) : Option Arena :=
  if a.sanityCheck then
    let m := Tailq.remove Bigslot.field a.mem a.memslots s
    (Bigslot.size a.gcp m s).bind fun size =>
      let b := { a with mem := m, unclaimedSpace := (a.unclaimedSpace + size) % 2 ^ 64 }
      if b.sanityCheck then some b else none
  else none

/-- `bigslot_t::deallocate` -/
def deallocateSlot (s : ℕ) : Option Arena :=
  if Bigslot.check a.mem s then
    (a.remove s).bind fun b =>
      (Bigslot.size a.gcp b.mem s).bind fun size =>
        some { b with mem := b.markDeallocated b.mem s size }
  else none

/-- `lookup` finds the arena for an address. -/
def has (p : ℕ) : Bool :=
  a.base ≤ p && p < a.base + a.sz

/-- `bigptr_t::deallocate` -/
def deallocate (p : ℕ) : Option Arena :=
  if Bigptr.check a.mem p ∧ Bigptr.count a.mem p = 0 then
    (Bigslot.data a.gcp a.mem (Bigptr.memslot a.mem p)).bind fun d =>
      if a.has d then
        (a.deallocateSlot (Bigptr.memslot a.mem p)).bind fun b =>
          if Bigptr.check b.mem p then some { b with mem := Bigptr.setCount b.mem p (-1) }
          else none
      else none
  else none

/-- `rc_inc` -/
def rcInc (p : ℕ) : Option Arena :=
  if 0 ≤ Bigptr.count a.mem p then
    some { a with mem := Bigptr.setCount a.mem p (Bigptr.count a.mem p + 1) }
  else none

/-- `rc_dec` of the redirector -/
def rcDec (p : ℕ) : Option Arena :=
  if 0 < Bigptr.count a.mem p then
    some { a with mem := Bigptr.setCount a.mem p (Bigptr.count a.mem p - 1) }
  else none

/-- The program writes a byte of an object. -/
def write (p i : ℕ) (b : UInt8) : Option Arena :=
  (Bigslot.data a.gcp a.mem (Bigptr.memslot a.mem p)).map fun d =>
    { a with mem := a.mem.fill (d + i) 1 b }

/-- The loop of `collect_ptrslots`: the free list, and the last slot that was looked at. -/
def collect (m : Memory) (bottom : ℕ) : ℕ → ℕ → List ℕ × Option ℕ → Option (List ℕ × Option ℕ)
  | 0, _, _ => none
  | fuel + 1, p, r =>
    if bottom < p then
      if Bigptr.check m p then
        collect m bottom fuel (p - Bigptr.sizeof)
          (if Bigptr.count m p = -1 then p :: r.1 else r.1, some p)
      else none
    else some r

def collectPtrslots : Option Arena :=
  (collect a.mem a.nxtPtrslot (a.sz + 2) (a.top - Bigptr.sizeof) ([], none)).map fun r =>
    { a with
      freePtrslots := r.1
      nxtPtrslot := match r.2 with
        | some last => last - Bigptr.sizeof
        | none => a.nxtPtrslot }

/-- The slot `ms` is moved down to `p`. The result has the end of the slot. -/
def moveSlot (m : Memory) (ms p : ℕ) : Option (Memory × ℕ) :=
  (Bigslot.data a.gcp m ms).bind fun d =>
    let t := (d + Bigslot.sz m ms) % 2 ^ 64
    if a.base ≤ d ∧ a.base ≤ t ∧ d < a.top ∧ t < a.top then
      (Bigslot.reseat (Bigslot.copyReinit a.gcp m p ms) p).bind fun m =>
        (Bigslot.size a.gcp m p).bind fun size =>
          let p' := (p + size) % 2 ^ 64
          if a.base < p' ∧ p' < a.top then some (m, p') else none
    else none

/-- The loop of `compact_memslots`. The slots from `ms` on go to the list `nl`, and to `p`. -/
def compact (nl : ℕ) : ℕ → Memory → ℕ → ℕ → Option (Memory × ℕ)
  | 0, _, _, _ => none
  | fuel + 1, m, ms, p =>
    if ms = 0 then some (m, p)
    else if Bigslot.check m ms then
      let n := Tailq.next Bigslot.field m ms
      let m := Tailq.remove Bigslot.field m a.memslots ms
      (Bigslot.data a.gcp m ms).bind fun d =>
        (if p < d then a.moveSlot m ms p else some (m, p)).bind fun r =>
          compact nl fuel (Tailq.insertTail Bigslot.field r.1 nl p) n r.2
    else none

/-- `compact_memslots`. The new list is at `nl`. -/
def compactMemslots (nl : ℕ) : Option Arena :=
  let a := { a with mem := Tailq.tailq a.mem nl }
  if a.sanityCheck then
    (a.compact nl (a.sz + 1) a.mem (a.mem.load 8 a.memslots) a.base).bind fun r =>
      let b := { a with mem := r.1, memslots := nl }
      if b.sanityCheck then some { b with nxtMemslot := r.2 } else none
  else none

end Arena

end Sfslite.Safeptr.Gc
