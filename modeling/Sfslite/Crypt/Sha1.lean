import Sfslite.Crypt.Mdblock

/-!
The compression function of `sha1.C`, and a hash made of any such function: blocks of the padded
message are taken into a state, and the state gives the bytes of the hash.
-/

namespace Sfslite.Crypt

open Sfslite.Arpc (Byte)
open Sfslite.Lib

namespace Sha1

/-- `sha1::hashsize` -/
def hashsize : ℕ := 20

abbrev Word := BitVec 32

/-- What `sha1` gives to the classes built on it. -/
structure Compress where
  State : Type
  newstate : State
  transform : State → List Byte → State
  state2bytes : State → List Byte
  length_state2bytes : ∀ s, (state2bytes s).length = hashsize

namespace Compress

variable (C : Compress)

/-- The hash of a message: `update`, `finish` and `state2bytes`. -/
def hash (msg : List Byte) : List Byte :=
  C.state2bytes ((Blocks.blocks Mdblock.blocksize
    (Mdblock.padded 0x80 msg (Mdblock.lengthBe msg))).foldl C.transform C.newstate)

theorem length_hash (msg : List Byte) : (C.hash msg).length = hashsize :=
  C.length_state2bytes _

end Compress

def rol (value : Word) (bits : ℕ) : Word :=
  (value <<< bits) ||| (value >>> (32 - bits))

/-- `getint (&block[4*i])` -/
def getint (block : List Byte) (i : ℕ) : Word :=
  block.getD (4 * i) 0 ++ block.getD (4 * i + 1) 0 ++ block.getD (4 * i + 2) 0 ++
    block.getD (4 * i + 3) 0

/-- The working variables in the order in which the next round names them, and the last 16 words
of the expanded block. -/
structure Working where
  v : Word
  w : Word
  x : Word
  y : Word
  z : Word
  tmp : List Word

/-- `blk0 (i)` in the first 16 rounds, `blk (i)` in the others. -/
def blk (block : List Byte) (tmp : List Word) (i : ℕ) : Word :=
  if i < 16 then getint block i
  else
    rol (tmp.getD ((i + 13) % 16) 0 ^^^ tmp.getD ((i + 8) % 16) 0 ^^^ tmp.getD ((i + 2) % 16) 0 ^^^
      tmp.getD (i % 16) 0) 1

/-- The function and the constant of round `i`: those of `R0` and `R1`, `R2`, `R3` and `R4`. -/
def mix (i : ℕ) (w x y : Word) : Word :=
  if i < 20 then ((w &&& (x ^^^ y)) ^^^ y) + 0x5A827999
  else if i < 40 then (w ^^^ x ^^^ y) + 0x6ED9EBA1
  else if i < 60 then (((w ||| x) &&& y) ||| (w &&& x)) + 0x8F1BBCDC
  else (w ^^^ x ^^^ y) + 0xCA62C1D6

/-- Round `i`. The variable that the next round calls `v` is the one called `z` here. -/
def round (block : List Byte) (s : Working) (i : ℕ) : Working :=
  let t := blk block s.tmp i
  { v := s.z + mix i s.w s.x s.y + t + rol s.v 5
    w := s.v
    x := rol s.w 30
    y := s.x
    z := s.y
    tmp := s.tmp.set (i % 16) t }

abbrev State := Word × Word × Word × Word × Word

def newstate : State :=
  (0x67452301, 0xefcdab89, 0x98badcfe, 0x10325476, 0xc3d2e1f0)

def transform : State → List Byte → State
  | (a, b, c, d, e), block =>
    let s := (List.range 80).foldl (round block) ⟨a, b, c, d, e, List.replicate 16 0⟩
    (a + s.v, b + s.w, c + s.x, d + s.y, e + s.z)

def putint (v : Word) : List Byte :=
  [(v >>> 24).setWidth 8, (v >>> 16).setWidth 8, (v >>> 8).setWidth 8, v.setWidth 8]

def state2bytes : State → List Byte
  | (a, b, c, d, e) => putint a ++ putint b ++ putint c ++ putint d ++ putint e

/-- The functions of `sha1.C`. -/
def sha1 : Compress where
  State := State
  newstate := newstate
  transform := transform
  state2bytes := state2bytes
  length_state2bytes _ := rfl

/-- The first test vector: the hash of `"abc"`. -/
example : sha1.hash [0x61, 0x62, 0x63] =
    [0xA9, 0x99, 0x3E, 0x36, 0x47, 0x06, 0x81, 0x6A, 0xBA, 0x3E, 0x25, 0x71, 0x78, 0x50, 0xC2, 0x6C,
      0x9C, 0xD0, 0xD8, 0x9D] := by
  decide +kernel

end Sha1

end Sfslite.Crypt
