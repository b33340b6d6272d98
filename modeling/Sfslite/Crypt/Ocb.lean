import Sfslite.Async.SuioMemory
import Sfslite.Crypt.MpzWire
import Sfslite.Crypt.Pad

/-!
The offset codebook mode: `ocb.h` and `ocb.C`. The block cipher is an argument, and an index
outside of the table of L values answers `none`.
-/

namespace Sfslite.Crypt

open Sfslite.Arpc (Byte)
open Sfslite.Async
open Sfslite.Lib

/-- A `blk`, with `c[0]` at the high end. -/
abbrev Blk := BitVec 128

namespace Blk

def nc : ℕ := 16

def c (d : Blk) : List Byte := (Words.ofNat nc d.toNat).reverse

def ofBytes (bs : List Byte) : Blk := BitVec.ofNat 128 (bytesVal bs)

def get (mem : Mem) (s : ℕ) : Blk := ofBytes (mem.read s nc)

def put (mem : Mem) (d : ℕ) (b : Blk) : Mem := mem.write d b.c

/-- The loop of `lshift`, from the last byte to the first, and the carry out of it. -/
def lshiftBytes : List Byte → List Byte × Bool
  | [] => ([], false)
  | b :: bs =>
    let (d, carryin) := lshiftBytes bs
    ((b <<< 1 ||| if carryin then 1 else 0) :: d, b.msb)

def lshift (s : Blk) : Blk :=
  let (d, carryin) := lshiftBytes s.c
  ofBytes (if carryin then d.modifyLast (· ^^^ 0x87) else d)

/-- The loop of `rshift`, and the carry out of the last byte. -/
def rshiftBytes : Bool → List Byte → List Byte × Bool
  | carryin, [] => ([], carryin)
  | carryin, b :: bs =>
    let (d, carryout) := rshiftBytes (b.getLsbD 0) bs
    ((b >>> 1 ||| if carryin then 0x80 else 0) :: d, carryout)

def rshift (s : Blk) : Blk :=
  let (d, carryin) := rshiftBytes false s.c
  ofBytes (if carryin then (d.modifyHead (· ^^^ 0x80)).modifyLast (· ^^^ 0x43) else d)

end Blk

structure Aes where
  encipher : Blk → Blk
  decipher : Blk → Blk

/-- `l` is the array from `l[-1]` to `l[l_size]`. -/
structure Ocb where
  lSize : ℕ
  k : Aes
  l : List Blk

namespace Ocb

def calcLSize (mms : BitVec 64) : ℕ :=
  let r := uint (log2c64 mms)
  if 4 < r then r - 4 else 1

/-- `l[i + 1] = l[i] << 1`, `n` times. -/
def lshifts : ℕ → Blk → List Blk
  | 0, b => [b]
  | n + 1, b => b :: lshifts n b.lshift

/-- The constructor and `setkey`. -/
def setkey (mms : BitVec 64) (k : Aes) : Ocb :=
  let lSize := calcLSize mms
  let l0 := k.encipher 0#128
  { lSize := lSize, k := k, l := l0.rshift :: lshifts lSize l0 }

/-- `l[i]`. -/
def lAt (o : Ocb) (i : ℤ) : Option Blk := if -1 ≤ i then o.l[(i + 1).toNat]? else none

/-- `l[ffs (i) - 1]`, where the index is a `u_int`. -/
def lFfs (o : Ocb) (i : BitVec 64) : Option Blk := o.lAt (uint (ffs64 i - 1))

/-- `R`: the nonce and `l[0]`, enciphered. -/
def start (o : Ocb) (nonce : BitVec 64) : Option Blk :=
  (o.lAt 0).map fun l0 => o.k.encipher (nonce.setWidth 128 ^^^ l0)

structure St where
  mem : Mem
  ctext : ℕ
  ptext : ℕ
  len : ℕ
  r : Blk
  s : Blk
  i : BitVec 64

def encryptLoop (o : Ocb) (st : St) : Option St :=
  if _h : Blk.nc < st.len then
    match o.lFfs st.i with
    | none => none
    | some li =>
      let tmp := Blk.get st.mem st.ptext
      let s := st.s ^^^ tmp
      let r := st.r ^^^ li
      let tmp := o.k.encipher (tmp ^^^ r) ^^^ r
      encryptLoop o { st with
        mem := Blk.put st.mem st.ctext tmp
        ptext := st.ptext + Blk.nc
        ctext := st.ctext + Blk.nc
        len := st.len - Blk.nc
        r := r
        s := s
        i := st.i + 1 }
  else some st
termination_by st.len
decreasing_by
  have hnc : 0 < Blk.nc := by decide
  omega

/-- `ctext[b] = tmp.c[b] ^ ptext[b]` for the bytes of a block; the bytes written. -/
def encryptBytes : List Byte → Mem → (ctext ptext : ℕ) → Mem × List Byte
  | [], mem, _, _ => (mem, [])
  | t :: ts, mem, ctext, ptext =>
    let c := t ^^^ mem ptext
    let (mem, cs) := encryptBytes ts (mem.write ctext [c]) (ctext + 1) (ptext + 1)
    (mem, c :: cs)

/-- The pad of the last block: `tmp.c[tmp.nc - 1] ^= len << 3`, enciphered. -/
def lastPad (k : Aes) (ln1 r : Blk) (len : ℕ) : Blk :=
  k.encipher (.ofBytes ((ln1 ^^^ r).c.modifyLast (· ^^^ BitVec.ofNat 8 (len <<< 3))))

/-- The memory after it and the tag. -/
def encrypt (o : Ocb) (mem : Mem) (ctext : ℕ) (nonce : BitVec 64) (ptext len : ℕ) :
    Option (Mem × Blk) := do
  let r ← o.start nonce
  let st ← encryptLoop o ⟨mem, ctext, ptext, len, r, 0#128, 1#64⟩
  let r := st.r ^^^ (← o.lFfs st.i)
  let tmp := lastPad o.k (← o.lAt (-1)) r st.len
  let s := st.s ^^^ tmp
  let (mem, cs) := encryptBytes (tmp.c.take st.len) st.mem st.ctext st.ptext
  let s := Blk.ofBytes (xorBytes s.c cs)
  return (mem, o.k.encipher (s ^^^ r))

def decryptLoop (o : Ocb) (st : St) : Option St :=
  if _h : Blk.nc < st.len then
    match o.lFfs st.i with
    | none => none
    | some li =>
      let r := st.r ^^^ li
      let tmp := Blk.get st.mem st.ctext
      let tmp := o.k.decipher (tmp ^^^ r) ^^^ r
      let s := st.s ^^^ tmp
      decryptLoop o { st with
        mem := Blk.put st.mem st.ptext tmp
        ptext := st.ptext + Blk.nc
        ctext := st.ctext + Blk.nc
        len := st.len - Blk.nc
        r := r
        s := s
        i := st.i + 1 }
  else some st
termination_by st.len
decreasing_by
  have hnc : 0 < Blk.nc := by decide
  omega

/-- `ptext[b] = tmp.c[b] ^ ctext[b]` for the bytes of a block; the bytes read. -/
def decryptBytes : List Byte → Mem → (ptext ctext : ℕ) → Mem × List Byte
  | [], mem, _, _ => (mem, [])
  | t :: ts, mem, ptext, ctext =>
    let c := mem ctext
    let (mem, cs) := decryptBytes ts (mem.write ptext [t ^^^ c]) (ptext + 1) (ctext + 1)
    (mem, c :: cs)

/-- Whether the tag is right, and the memory after it. -/
def decrypt (o : Ocb) (mem : Mem) (ptext : ℕ) (nonce : BitVec 64) (ctext : ℕ) (tag : Blk)
    (len : ℕ) : Option (Bool × Mem) := do
  let r ← o.start nonce
  let st ← decryptLoop o ⟨mem, ctext, ptext, len, r, 0#128, 1#64⟩
  let r := st.r ^^^ (← o.lFfs st.i)
  let tmp := lastPad o.k (← o.lAt (-1)) r st.len
  let s := st.s ^^^ tmp
  let (mem, cs) := decryptBytes (tmp.c.take st.len) st.mem st.ptext st.ctext
  let s := Blk.ofBytes (xorBytes s.c cs)
  return (tag = o.k.encipher (s ^^^ r), mem)

end Ocb

end Sfslite.Crypt
