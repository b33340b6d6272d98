import Sfslite.Async.Msb
import Sfslite.Arpc.Bytes

/-!
`rpc_traverse` of `xdrmisc.h` and `rpctypes.h` on an encoding and on a decoding XDR
stream. A traversal answers whether it succeeded, the stream and the object it leaves,
and `none` where the program stops at an assertion or leaves the range of an `int`.
-/

namespace Sfslite.Arpc

open Sfslite.Async

def rpcInfinity : ℕ := 0x7fffffff

/-- The bound of a type. -/
structure Bound where
  val : ℕ
  le : val ≤ rpcInfinity

/-- The types of the data. An array without elements is not a type of the language. -/
inductive XdrTy where
  | u32
  | u64
  | bool
  | rpcOpaque (n : Bound) (pos : 0 < n.val)
  | rpcBytes (max : Bound)
  | rpcStr (max : Bound)
  | rpcVec (t : XdrTy) (max : Bound)
  | rpcPtr (t : XdrTy)

/-- A vector: its elements with the room in front of `firstp` and behind `lastp`.
With `nofree` the elements are in memory that the vector does not own. -/
structure RpcVec (α : Type) where
  nofree : Bool
  front : ℕ
  elems : List α
  back : ℕ
  deriving DecidableEq, Repr

/-- The original resize operation. -/
def vecResizeFn (nalloc nwanted : ℕ) : Option ℕ :=
  let nalloc := BitVec.ofNat 32 nalloc
  let nwanted := BitVec.ofNat 32 nwanted
  intShl (fls32 (if nalloc < nwanted then nwanted else nalloc))

namespace RpcVec

variable {α : Type}

def new : RpcVec α := ⟨false, 0, [], 0⟩

/-- The room the vector has allocated. -/
def nalloc (v : RpcVec α) : ℕ := v.front + v.elems.length + v.back

/-- `vec::reserve`. -/
def superReserve (v : RpcVec α) (n : ℕ) : Option (RpcVec α) :=
  if n ≤ v.back then some v
  else
    let nwanted := v.elems.length + n
    if v.nalloc / 2 < nwanted then do
      let nalloc ← vecResizeFn v.nalloc nwanted
      return { v with front := 0, back := nalloc - v.elems.length }
    else some { v with front := 0, back := v.nalloc - v.elems.length }

def ensure (v : RpcVec α) (max m : ℕ) : Option Unit :=
  -- assert (!nofree); assert (size () + m <= maxsize)
  if v.nofree ∨ max < v.elems.length + m then none else some ()

def reserve (v : RpcVec α) (max m : ℕ) : Option (RpcVec α) := do
  v.ensure max m
  v.superReserve m

def setsize (v : RpcVec α) (max n : ℕ) (fresh : α) : Option (RpcVec α) := do
  -- assert (!nofree); assert (n <= max)
  if v.nofree ∨ max < n then none
  let s := v.elems.length
  if n < s then return { v with elems := v.elems.take n, back := v.back + (s - n) }
  else if n - s ≠ 0 then
    let v ← v.superReserve (n - s)
    return { v with
      elems := v.elems ++ List.replicate (n - s) fresh, back := v.back - (n - s) }
  else return v

def pushBack (v : RpcVec α) (max : ℕ) (fresh : α) : Option (RpcVec α) := do
  v.ensure max 1
  let v ← v.superReserve 1
  return { v with elems := v.elems ++ [fresh], back := v.back - 1 }

end RpcVec

/-- An encoding stream with the bytes written, or a decoding one with those left. -/
inductive XDR where
  | encode (out : List Byte)
  | decode (inp : List Byte)
  deriving DecidableEq, Repr

/-- `XDR_GETBYTES` and `XDR_INLINE` on a decoding stream. -/
def xdrGetbytes (n : ℕ) (inp : List Byte) : Option (List Byte × List Byte) :=
  if n ≤ inp.length then some (inp.take n, inp.drop n) else none

/-- `-n & 3`. -/
def padLen (n : ℕ) : ℕ := (-(BitVec.ofNat 64 n) &&& 3#64).toNat

def xdrPutpadbytes (p : List Byte) : List Byte :=
  if p.length ≠ 0 then p ++ List.replicate (padLen p.length) 0 else []

/-- The bytes read are in place even where the padding is missing. -/
def xdrGetpadbytes (p : List Byte) (inp : List Byte) : Bool × List Byte × List Byte :=
  match xdrGetbytes p.length inp with
  | none => (false, p, inp)
  | some (p, inp) =>
    if padLen p.length ≠ 0 then
      match xdrGetbytes (padLen p.length) inp with
      | none => (false, p, inp)
      | some (_, inp) => (true, p, inp)
    else (true, p, inp)

def traverseU32 (x : XDR) (obj : BitVec 32) : Bool × XDR × BitVec 32 :=
  match x with
  | .encode out => (true, .encode (out ++ htonl obj), obj)
  | .decode inp =>
    match getint inp with
    | some (val, inp) => (true, .decode inp, val)
    | none => (false, .decode inp, obj)

def traverseBool (x : XDR) (obj : Bool) : Bool × XDR × Bool :=
  match traverseU32 x (if obj then 1 else 0) with
  | (true, x, val) => (true, x, val ≠ 0)
  | (false, x, _) => (false, x, obj)

def traverseU64 (x : XDR) (obj : BitVec 64) : Bool × XDR × BitVec 64 :=
  match traverseU32 x ((obj >>> 32).setWidth 32) with
  | (false, x, _) => (false, x, obj)
  | (true, x, hi) =>
    match traverseU32 x (obj.setWidth 32) with
    | (false, x, _) => (false, x, obj)
    | (true, x, lo) => (true, x, hi.setWidth 64 <<< 32 ||| lo.setWidth 64)

def traverseOpaque (x : XDR) (obj : List Byte) : Bool × XDR × List Byte :=
  match x with
  | .encode out => (true, .encode (out ++ xdrPutpadbytes obj), obj)
  | .decode inp =>
    let (ret, obj, inp) := xdrGetpadbytes obj inp
    (ret, .decode inp, obj)

theorem length_traverseOpaque (x : XDR) (obj : List Byte) :
    (traverseOpaque x obj).2.2.length = obj.length := by
  cases x with
  | encode out => rfl
  | decode inp =>
    simp only [traverseOpaque, xdrGetpadbytes, xdrGetbytes]
    by_cases hlen : obj.length ≤ inp.length
    · rw [if_pos hlen]
      dsimp only
      split <;> [split; skip] <;> simp [hlen]
    · rw [if_neg hlen]

def traverseBytes (max : ℕ) (junk : Byte) (x : XDR) (obj : RpcVec Byte) :
    Option (Bool × XDR × RpcVec Byte) :=
  match x with
  | .encode out =>
    some (true, .encode (out ++ htonl (BitVec.ofNat 32 obj.elems.length) ++
      xdrPutpadbytes obj.elems), obj)
  | .decode inp =>
    match getint inp with
    | none => some (false, .decode inp, obj)
    | some (size, inp) =>
      if max < size.toNat then some (false, .decode inp, obj)
      else
        match xdrGetbytes ((size + 3) &&& ~~~3#32).toNat inp with
        | none => some (false, .decode inp, obj)
        | some (dp, inp) => do
            let obj ← obj.setsize max size.toNat junk
            return (true, .decode inp, { obj with elems := dp.take size.toNat })

/-- A string is null, or it has its bytes. -/
def traverseStr (max : ℕ) (x : XDR) (obj : Option (List Byte)) :
    Option (Bool × XDR × Option (List Byte)) :=
  match x with
  | .encode out =>
    match obj with
    | none => some (false, x, obj)
    | some s =>
      some (true, .encode (out ++ htonl (BitVec.ofNat 32 s.length) ++ xdrPutpadbytes s), obj)
  | .decode inp =>
    match getint inp with
    | none => some (false, .decode inp, obj)
    | some (size, inp) =>
      if max < size.toNat then some (false, .decode inp, obj)
      else
        match xdrGetbytes ((size + 3) &&& ~~~3#32).toNat inp with
        | none => some (false, .decode inp, obj)
        | some (dp, inp) =>
          let s := dp.take size.toNat
          if 0 ∈ s then some (false, .decode inp, obj)
          -- assert (len () == strlen (cstr ())); assert (len () <= maxsize)
          else if 0 ∈ s ∨ max < s.length then none
          else some (true, .decode inp, some s)

section Vec

variable {α : Type} (elm : XDR → α → Option (Bool × XDR × α))

/-- The elements that are there are traversed until one fails. -/
def traverseSlots (x : XDR) : List α → Option (Bool × XDR × List α)
  | [] => some (true, x, [])
  | e :: es => do
      let (ret, x, e) ← elm x e
      if ret then
        let (ret, x, es) ← traverseSlots x es
        return (ret, x, e :: es)
      else return (false, x, e :: es)

/-- The remaining elements are appended one by one, `fresh` before they are traversed. -/
def traversePushes (max : ℕ) (fresh : α) : ℕ → XDR → RpcVec α → Option (Bool × XDR × RpcVec α)
  | 0, x, obj => some (true, x, obj)
  | i + 1, x, obj => do
      let obj ← obj.pushBack max fresh
      let (ret, x, e) ← elm x fresh
      let obj := { obj with elems := obj.elems.dropLast ++ [e] }
      if ret then traversePushes max fresh i x obj else return (false, x, obj)

/-- Before the elements are read a vector is cut, or given some room. -/
def fitVec (max sizeofElm size : ℕ) (fresh : α) (obj : RpcVec α) : Option (RpcVec α) :=
  if size < obj.elems.length then obj.setsize max size fresh
  else if obj.elems.length < size then
    let maxreserve := min (0x10000 / sizeofElm) size
    if obj.elems.length < maxreserve then obj.reserve max (maxreserve - obj.elems.length)
    else some obj
  else some obj

def traverseVec (max sizeofElm : ℕ) (fresh : α) (x : XDR) (obj : RpcVec α) :
    Option (Bool × XDR × RpcVec α) :=
  let (ret, x, size) := traverseU32 x (BitVec.ofNat 32 obj.elems.length)
  if ret = false ∨ max < size.toNat then some (false, x, obj)
  else do
    let obj ← fitVec max sizeofElm size.toNat fresh obj
    let (ret, x, elems) ← traverseSlots elm x obj.elems
    let obj := { obj with elems := elems }
    if ret then traversePushes elm max fresh (size.toNat - elems.length) x obj
    else return (false, x, obj)

def traversePtr (fresh : α) (x : XDR) (obj : Option α) : Option (Bool × XDR × Option α) :=
  match traverseBool x obj.isSome with
  | (false, x, _) => some (false, x, obj)
  | (true, x, true) => do
      let (ret, x, p) ← elm x (obj.getD fresh)
      return (ret, x, some p)
  | (true, x, false) => some (true, x, none)

end Vec

/-- The objects of a type. -/
def Obj : XdrTy → Type
  | .u32 => BitVec 32
  | .u64 => BitVec 64
  | .bool => Bool
  | .rpcOpaque n _ => { p : List Byte // p.length = n.val }
  | .rpcBytes _ => RpcVec Byte
  | .rpcStr _ => Option (List Byte)
  | .rpcVec t _ => RpcVec (Obj t)
  | .rpcPtr t => Option (Obj t)

/-- A new object. A number has what the memory held. -/
def Obj.new (junk : BitVec 64) : (t : XdrTy) → Obj t
  | .u32 => junk.setWidth 32
  | .u64 => junk
  | .bool => junk.getLsbD 0
  | .rpcOpaque n _ => ⟨List.replicate n.val 0, List.length_replicate⟩
  | .rpcBytes _ => RpcVec.new
  | .rpcStr _ => some []
  | .rpcVec _ _ => RpcVec.new
  | .rpcPtr _ => none

/-- `rpc_traverse`; `sizeof` is the compiler's. -/
def rpcTraverse (sizeof : XdrTy → ℕ) (junk : BitVec 64) :
    (t : XdrTy) → XDR → Obj t → Option (Bool × XDR × Obj t)
  | .u32 => fun x obj => some (traverseU32 x obj)
  | .u64 => fun x obj => some (traverseU64 x obj)
  | .bool => fun x obj => some (traverseBool x obj)
  | .rpcOpaque _ _ => fun x obj =>
    let r := traverseOpaque x obj.1
    some (r.1, r.2.1, ⟨r.2.2, (length_traverseOpaque x obj.1).trans obj.2⟩)
  | .rpcBytes max => traverseBytes max.val (junk.setWidth 8)
  | .rpcStr max => traverseStr max.val
  | .rpcVec t max =>
    traverseVec (rpcTraverse sizeof junk t) max.val (sizeof t) (Obj.new junk t)
  | .rpcPtr t => traversePtr (rpcTraverse sizeof junk t) (Obj.new junk t)

end Sfslite.Arpc
