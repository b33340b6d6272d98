import Mathlib.Data.List.Basic
import Mathlib.Algebra.Ring.Nat

/-!
Scatter-gather output: `suio++.h` and `suio++.C`, with the memory that the iovecs point into.
An address is a number, 0 is the null pointer. The allocator answers from the blocks in use
and the size. A failed assertion, a panic and an access in front of an empty vector answer
`none`.
-/

namespace Sfslite.Async

abbrev Mem := ℕ → BitVec 8

def Mem.read (mem : Mem) (a : ℕ) (n : ℕ) : List (BitVec 8) := (List.range' a n).map mem

def Mem.write (mem : Mem) (a : ℕ) (bs : List (BitVec 8)) : Mem := fun x =>
  if a ≤ x then (bs[x - a]?).getD (mem x) else mem x

namespace Suio

/-- A difference of two words, read without its sign. -/
def sub64 (x y : ℕ) : ℕ := if y ≤ x then x - y else x + 2 ^ 64 - y

structure Iovec where
  base : ℕ
  len : ℕ
deriving DecidableEq, Repr

/-- What a callback does: the release of a buffer, or something of the program's own. -/
inductive Cb
  | deallocator (buf : ℕ) (size : ℕ)
  | wrap (id : ℕ)
deriving DecidableEq, Repr

structure Uiocb where
  nbytes : ℕ
  cb : Cb
deriving DecidableEq, Repr

abbrev Block := ℕ × ℕ

abbrev Malloc := List Block → ℕ → ℕ

/-- What all suios share: the memory, the blocks of the allocator that are in use, and the
callbacks made so far, the first one first. -/
structure Env where
  mem : Mem
  live : List Block
  ran : List Cb

def Env.allocate (e : Env) (malloc : Malloc) (size : ℕ) : Env × ℕ :=
  ({ e with live := (malloc e.live size, size) :: e.live }, malloc e.live size)

def Env.deallocate (e : Env) (buf : ℕ) (size : ℕ) : Env :=
  { e with live := e.live.erase (buf, size) }

/-- `(*cb) ()`. -/
def Env.call (e : Env) (cb : Cb) : Env :=
  match cb with
  | .deallocator buf size => { e.deallocate buf size with ran := e.ran ++ [cb] }
  | .wrap _ => { e with ran := e.ran ++ [cb] }

def smallbufsize : ℕ := 0x80

def blocksize : ℕ := 0x2000

def mallocresv : ℕ := 16

end Suio

open Suio

structure Suio where
  iovs : List Iovec
  uiocbs : List Uiocb
  uiobytes : ℕ
  nrembytes : ℕ
  nremiov : ℕ
  lastiovend : ℕ
  scratchBuf : ℕ
  scratchPos : ℕ
  scratchLim : ℕ
  /-- Where the buffer inside of the object is. -/
  defbuf : ℕ
deriving DecidableEq, Repr

namespace Suio

/-- `suio::suio`. -/
def new (defbuf : ℕ) : Suio where
  iovs := []
  uiocbs := []
  uiobytes := 0
  nrembytes := 0
  nremiov := 0
  lastiovend := 0
  scratchBuf := defbuf
  scratchPos := defbuf
  scratchLim := defbuf + smallbufsize
  defbuf := defbuf

/-- `(size_t) (scratch_lim - scratch_pos)`. -/
def space (s : Suio) : ℕ := sub64 s.scratchLim s.scratchPos

def pushiov (s : Suio) (base : ℕ) (len : ℕ) : Option Suio := do
  let s ←
    if base = s.lastiovend then
      match s.iovs.getLast? with
      | none => none
      | some v =>
        some { s with
          lastiovend := s.lastiovend + len
          iovs := s.iovs.dropLast ++ [{ v with len := v.len + len }] }
    else if len ≠ 0 then
      some { s with
        iovs := s.iovs ++ [⟨base, len⟩]
        lastiovend := base + len }
    else some s
  let s := { s with uiobytes := s.uiobytes + len }
  some (if base = s.scratchPos then { s with scratchPos := s.scratchPos + len } else s)

def iovcb (e : Env) (s : Suio) (cb : Cb) : Env × Suio :=
  if s.uiobytes ≠ 0 then
    (e, { s with uiocbs := s.uiocbs ++ [⟨s.nrembytes + s.uiobytes, cb⟩] })
  else (e.call cb, s)

def breakiov (s : Suio) : Suio := { s with lastiovend := 0 }

def condemnScratch (e : Env) (s : Suio) : Env × Suio :=
  if s.scratchBuf ≠ s.defbuf then
    s.iovcb e (.deallocator s.scratchBuf (s.scratchLim - s.scratchBuf))
  else (e, s)

def scratchSize (size : ℕ) : ℕ :=
  (size + mallocresv + (blocksize - 1)) / blocksize * blocksize - mallocresv

def morescratch (malloc : Malloc) (e : Env) (s : Suio) (size : ℕ) : Env × Suio :=
  let size := scratchSize size
  let (e, s) := s.condemnScratch e
  let (e, buf) := e.allocate malloc size
  (e, { s with scratchBuf := buf, scratchPos := buf, scratchLim := buf + size })

def getspace (malloc : Malloc) (e : Env) (s : Suio) (n : ℕ) : Env × Suio :=
  if n ≤ s.space then (e, s) else s.morescratch malloc e n

def getspaceAligned (malloc : Malloc) (e : Env) (s : Suio) (n : ℕ) : Env × Suio :=
  { s with scratchPos := s.scratchPos + (4 - s.scratchPos % 4) % 4 }.getspace malloc e n

/-- `memcpy (scratch_pos, …); pushiov (scratch_pos, …)`. -/
def put (e : Env) (s : Suio) (bs : List (BitVec 8)) : Option (Env × Suio) := do
  let s' ← s.pushiov s.scratchPos bs.length
  some ({ e with mem := e.mem.write s.scratchPos bs }, s')

/-- `slowcopy`, and `slowfill` for bytes that are all the same. -/
def slowcopy (malloc : Malloc) (e : Env) (s : Suio) (bs : List (BitVec 8)) : Option (Env × Suio) :=
  let n := s.space
  if bs.length ≤ n then s.put e bs
  else if smallbufsize ≤ n ∨ s.scratchPos = s.lastiovend then do
    let (e, s) ← s.put e (bs.take n)
    let (e, s) := s.morescratch malloc e (bs.drop n).length
    s.put e (bs.drop n)
  else
    let (e, s) := s.morescratch malloc e bs.length
    s.put e bs

def slowfill (malloc : Malloc) (e : Env) (s : Suio) (c : BitVec 8) (n : ℕ) : Option (Env × Suio) :=
  s.slowcopy malloc e (List.replicate n c)

def fill (malloc : Malloc) (e : Env) (s : Suio) (c : BitVec 8) (n : ℤ) : Option (Env × Suio) :=
  if n ≤ 0 then some (e, s)
  else if n ≤ (s.scratchLim : ℤ) - s.scratchPos then s.put e (List.replicate n.toNat c)
  else s.slowfill malloc e c n.toNat

def copy (malloc : Malloc) (e : Env) (s : Suio) (buf : ℕ) (len : ℕ) : Option (Env × Suio) :=
  if len ≤ s.space then s.put e (e.mem.read buf len)
  else s.slowcopy malloc e (e.mem.read buf len)

def print (malloc : Malloc) (e : Env) (s : Suio) (buf : ℕ) (len : ℕ) : Option (Env × Suio) :=
  if len ≤ smallbufsize ∧ buf ≠ s.scratchPos then s.copy malloc e buf len
  else (s.pushiov buf len).map fun s => (e, s)

structure Iovmgr where
  iov : List Iovec
  cur : Iovec
deriving DecidableEq, Repr

def Iovmgr.new : List Iovec → Iovmgr
  | [] => ⟨[], ⟨0, 0⟩⟩
  | v :: vs => ⟨vs, v⟩

/-- The loop of `skip` over whole iovecs. -/
def skipIovs : List Iovec → ℕ → List Iovec × ℕ
  | [], n => ([], n)
  | v :: vs, n => if v.len ≤ n then skipIovs vs (n - v.len) else (v :: vs, n)

def Iovmgr.skip (m : Iovmgr) (n : ℕ) : Option Iovmgr :=
  if n < m.cur.len then some { m with cur := ⟨m.cur.base + n, m.cur.len - n⟩ }
  else
    match skipIovs m.iov (n - m.cur.len) with
    | (iov, 0) => some ⟨iov, ⟨0, 0⟩⟩
    | ([], _) => none
    | (v :: vs, n) => if v.len < n then none else some ⟨vs, ⟨v.base + n, v.len - n⟩⟩

/-- The loop of `copyout` over whole iovecs, with the room that is left. -/
def copyIovs (mem : Mem) : List Iovec → ℕ → List (BitVec 8) × List Iovec × ℕ
  | [], len => ([], [], len)
  | v :: vs, len =>
    if v.len ≤ len then
      let (bs, iov, len) := copyIovs mem vs (len - v.len)
      (mem.read v.base v.len ++ bs, iov, len)
    else ([], v :: vs, len)

def Iovmgr.copyout (mem : Mem) (m : Iovmgr) (len : ℕ) : List (BitVec 8) × Iovmgr :=
  if len < m.cur.len then
    (mem.read m.cur.base len, { m with cur := ⟨m.cur.base + len, m.cur.len - len⟩ })
  else
    let first := mem.read m.cur.base m.cur.len
    match copyIovs mem m.iov (len - m.cur.len) with
    | (bs, [], _) => (first ++ bs, ⟨[], ⟨0, 0⟩⟩)
    | (bs, v :: vs, 0) => (first ++ bs, ⟨vs, v⟩)
    | (bs, v :: vs, n + 1) =>
      (first ++ bs ++ mem.read v.base (n + 1), ⟨vs, ⟨v.base + (n + 1), v.len - (n + 1)⟩⟩)

def Iovmgr.size (m : Iovmgr) : ℕ := m.cur.len + (m.iov.map Iovec.len).sum

/-- What `copyv` does with the free end of the scratch buffer. -/
def copyvScratch (e : Env) (s : Suio) (iom : Iovmgr) : Option (Env × Suio × Iovmgr) :=
  let n := s.space
  if s.scratchPos = s.lastiovend ∨ smallbufsize ≤ n then
    let (bs, iom) := iom.copyout e.mem n
    if bs.length > 0 then (s.put e bs).map fun r => (r.1, r.2, iom)
    else some (e, s, iom)
  else some (e, s, iom)

def copyv (malloc : Malloc) (e : Env) (s : Suio) (iov : List Iovec) (skip : ℕ) :
    Option (Env × Suio) := do
  let iom ← (Iovmgr.new iov).skip skip
  let (e, s, iom) ← s.copyvScratch e iom
  let n := iom.size
  if n > 0 then
    let (e, s) := s.morescratch malloc e n
    s.put e (iom.copyout e.mem n).1
  else some (e, s)

/-- One iovec of another suio: what is in its `defbuf` is copied. -/
def appendIov (malloc : Malloc) (defbuf : ℕ) (v : Iovec) (e : Env) (s : Suio) :
    Option (Env × Suio) :=
  if defbuf ≤ v.base ∧ v.base < defbuf + smallbufsize then s.copy malloc e v.base v.len
  else (s.pushiov v.base v.len).map fun s => (e, s)

/-- The loop of `take` and of `borrow_data` over the iovecs of the other suio. -/
def appendIovs (malloc : Malloc) (defbuf : ℕ) :
    List Iovec → Env → Suio → Option (Env × Suio)
  | [], e, s => some (e, s)
  | v :: vs, e, s => do
      let (e, s) ← appendIov malloc defbuf v e s
      appendIovs malloc defbuf vs e s

/-- `take`: the environment, the suio and the one it took from. -/
def take (malloc : Malloc) (e : Env) (s uio : Suio) : Option (Env × Suio × Suio) := do
  let moved (nbytes : ℕ) := sub64 (nbytes + (s.nrembytes + s.uiobytes)) uio.nrembytes
  let (e, uio) := uio.condemnScratch e
  let (e, s) ← appendIovs malloc uio.defbuf uio.iovs e s
  let s := { s with uiocbs := s.uiocbs ++ uio.uiocbs.map fun c => ⟨moved c.nbytes, c.cb⟩ }
  let uio := { uio with
    nrembytes := uio.nrembytes + uio.uiobytes
    nremiov := uio.nremiov + uio.iovs.length
    uiobytes := 0
    iovs := []
    uiocbs := []
    scratchBuf := uio.defbuf
    scratchPos := uio.defbuf
    scratchLim := uio.defbuf + smallbufsize }
  some (e, s, uio)

def borrowData (malloc : Malloc) (e : Env) (s src : Suio) : Option (Env × Suio) :=
  appendIovs malloc src.defbuf src.iovs e s

def makeuiocbs (nrembytes : ℕ) : List Uiocb → Env → Env × List Uiocb
  | [], e => (e, [])
  | c :: cs, e =>
    if c.nbytes ≤ nrembytes then makeuiocbs nrembytes cs (e.call c.cb) else (e, c :: cs)

/-- The loop of `rembytes` over whole iovecs and the assertion behind it. -/
def remIovs : List Iovec → ℕ → Option (List Iovec)
  | [], n => if n > 0 then none else some []
  | v :: vs, n =>
    if v.len ≤ n then remIovs vs (n - v.len)
    else some (⟨v.base + n, v.len - n⟩ :: vs)

def rembytes (e : Env) (s : Suio) (n : ℕ) : Option (Env × Suio) :=
  if s.uiobytes < n then none
  else do
    let iovs ← remIovs s.iovs n
    let s := { s with
      uiobytes := s.uiobytes - n
      nrembytes := s.nrembytes + n
      nremiov := s.nremiov + (s.iovs.length - iovs.length)
      iovs := iovs }
    let s := if iovs = [] then { s with scratchPos := s.scratchBuf, lastiovend := 0 } else s
    let (e, uiocbs) := makeuiocbs s.nrembytes s.uiocbs e
    some (e, { s with uiocbs := uiocbs })

def clear (e : Env) (s : Suio) : Option (Env × Suio) := do
  let (e, s) ← s.rembytes e s.uiobytes
  let (e, s) :=
    if s.scratchBuf ≠ s.defbuf then
      (e.deallocate s.scratchBuf (s.scratchLim - s.scratchBuf),
        { s with scratchBuf := s.defbuf, scratchLim := s.defbuf + smallbufsize })
    else (e, s)
  some (e, { s with scratchPos := s.defbuf, iovs := [], uiocbs := [] })

/-- `if (n > 0) pushiov (…)`. -/
def putRead (e : Env) (s : Suio) (bs : List (BitVec 8)) : Option (Env × Suio) :=
  if bs.length > 0 then s.put e bs else some (e, s)

/-- `input`, where `bs` is what `read` or `readv` gives. -/
def input (malloc : Malloc) (e : Env) (s : Suio) (len : ℕ) (bs : List (BitVec 8)) :
    Option (Env × Suio) :=
  let space := s.space
  if len ≤ space ∨ space = 0 then
    let (e, s) := s.getspace malloc e len
    s.putRead e bs
  else
    let size := scratchSize (len - space)
    let (e, buf) := e.allocate malloc size
    if bs.length > space then do
      let (e, s) ← s.put e (bs.take space)
      if s.scratchPos ≠ s.scratchLim then none
      else
        let (e, s) := s.condemnScratch e
        let s := { s with scratchPos := buf, scratchBuf := buf, scratchLim := buf + size }
        s.put e (bs.drop space)
    else do
      let (e, s) ← s.putRead e bs
      some (e.deallocate buf size, s)

def copyout (mem : Mem) : List Iovec → ℕ → List (BitVec 8)
  | [], _ => []
  | v :: vs, len =>
    if v.len ≤ len then mem.read v.base v.len ++ copyout mem vs (len - v.len)
    else mem.read v.base len

inductive Op (ι : Type*)
  | copy (i : ι) (buf : ℕ) (len : ℕ)
  | print (i : ι) (buf : ℕ) (len : ℕ)
  | fill (i : ι) (c : BitVec 8) (n : ℤ)
  | copyv (i : ι) (iov : List Iovec) (skip : ℕ)
  | copyu (i j : ι)
  | take (i j : ι)
  | borrowData (i j : ι)
  | iovcb (i : ι) (id : ℕ)
  | breakiov (i : ι)
  | rembytes (i : ι) (n : ℕ)
  | clear (i : ι)
  | getspace (i : ι) (n : ℕ)
  | getspaceAligned (i : ι) (n : ℕ)
  | input (i : ι) (len : ℕ) (bs : List (BitVec 8))
  /-- The program writes to its memory. -/
  | write (a : ℕ) (bs : List (BitVec 8))

structure World (ι : Type*) where
  env : Env
  suios : ι → Suio

section

variable {ι : Type*} [DecidableEq ι]

def World.set (w : World ι) (i : ι) (r : Env × Suio) : World ι :=
  ⟨r.1, Function.update w.suios i r.2⟩

@[simp] theorem World.set_env (w : World ι) (i : ι) (r : Env × Suio) : (w.set i r).env = r.1 := rfl

@[simp] theorem World.set_self (w : World ι) (i : ι) (r : Env × Suio) :
    (w.set i r).suios i = r.2 := Function.update_self ..

theorem World.set_of_ne (w : World ι) {i k : ι} (r : Env × Suio) (h : k ≠ i) :
    (w.set i r).suios k = w.suios k := Function.update_of_ne h ..

/-- One operation, with the answers of the allocator during it. -/
def step (w : World ι) : Malloc × Op ι → Option (World ι)
  | (malloc, .copy i buf len) => ((w.suios i).copy malloc w.env buf len).map (w.set i)
  | (malloc, .print i buf len) => ((w.suios i).print malloc w.env buf len).map (w.set i)
  | (malloc, .fill i c n) => ((w.suios i).fill malloc w.env c n).map (w.set i)
  | (malloc, .copyv i iov skip) => ((w.suios i).copyv malloc w.env iov skip).map (w.set i)
  | (malloc, .copyu i j) =>
    if i = j then none
    else ((w.suios i).copyv malloc w.env (w.suios j).iovs 0).map (w.set i)
  | (malloc, .take i j) =>
    if i = j then none
    else ((w.suios i).take malloc w.env (w.suios j)).map fun r =>
      (w.set i (r.1, r.2.1)).set j (r.1, r.2.2)
  | (malloc, .borrowData i j) =>
    if i = j then none
    else ((w.suios i).borrowData malloc w.env (w.suios j)).map (w.set i)
  | (_, .iovcb i id) => some (w.set i ((w.suios i).iovcb w.env (.wrap id)))
  | (_, .breakiov i) => some (w.set i (w.env, (w.suios i).breakiov))
  | (_, .rembytes i n) => ((w.suios i).rembytes w.env n).map (w.set i)
  | (_, .clear i) => ((w.suios i).clear w.env).map (w.set i)
  | (malloc, .getspace i n) => some (w.set i ((w.suios i).getspace malloc w.env n))
  | (malloc, .getspaceAligned i n) => some (w.set i ((w.suios i).getspaceAligned malloc w.env n))
  | (malloc, .input i len bs) =>
    if len < bs.length then none else ((w.suios i).input malloc w.env len bs).map (w.set i)
  | (_, .write a bs) => some { w with env := { w.env with mem := w.env.mem.write a bs } }

end

end Suio

end Sfslite.Async
