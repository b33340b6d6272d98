import Sfslite.Crypt.Sha1

/-!
`umac::update`: bytes gathered into words, words into the blocks of the first hash, and the words
of a block taken into the second hash when more bytes follow it.
-/

namespace Sfslite.Crypt

open Sfslite.Arpc (Byte)

namespace Umac

abbrev Word := BitVec 32

abbrev Dword := BitVec 64

def wordSize : ℕ := 4

def l1KeyLen : ℕ := 1024

def l1KeyWords : ℕ := 256

def l1KeyShift : ℕ := 4

def l1BlockSize : ℕ := 32

def outputWords : ℕ := 3

/-- `wbuf` -/
abbrev Wbuf := Vector Word l1KeyWords

/-- What lies under `update`: `poly_reset`, what `consume` does with a block, and what `final` does
with `totlen`, the last block and `l1len`. -/
structure Hash where
  Poly : Type
  polyReset : Poly
  consume : Poly → Wbuf → Poly
  final : Poly → Dword → Wbuf → ℕ → List Byte

end Umac

/-- `wbuf`, `l1len` and `totlen` of a `umac`, and the state of the second hash. -/
structure Umac (H : Umac.Hash) where
  wbuf : Umac.Wbuf
  l1len : ℕ
  totlen : Umac.Dword
  poly : H.Poly

namespace Umac

variable {H : Hash}

/-- `reset`, over a buffer that still holds something. -/
def reset (H : Hash) (garbage : Wbuf) : Umac H :=
  { wbuf := garbage, l1len := 0, totlen := 0, poly := H.polyReset }

/-- `getword`; the callers put zeros where there are fewer than four bytes. -/
def getword (dp : List Byte) : Word :=
  dp.getD 3 0 ++ dp.getD 2 0 ++ dp.getD 1 0 ++ dp.getD 0 0

def consume (u : Umac H) : Umac H :=
  { u with totlen := u.totlen + BitVec.ofNat 64 l1KeyLen, poly := H.consume u.poly u.wbuf }

/-- The first part of `update`, where the last word is not full: `none` where it writes behind
`wbuf`. `l1len` is what it became with the bytes, and is advanced once more. -/
def fillWord (u : Umac H) (dp : List Byte) : Option (Umac H × List Byte) :=
  if u.l1len % wordSize = 0 then some (u, dp)
  else
    let i := u.l1len % wordSize
    let bytes := dp.take (wordSize - i)
    let c := List.replicate i 0 ++ bytes
    let l1len := u.l1len + bytes.length
    if h : l1len / wordSize < l1KeyWords then
      some ({ u with
        wbuf := u.wbuf.set (l1len / wordSize) (u.wbuf[l1len / wordSize] ||| getword c)
        l1len := l1len + 1 }, dp.drop (wordSize - i))
    else none

/-- The loop that fills the block: `n` words are left. -/
def blockLoop (wbuf : Wbuf) (l1pos : ℕ) : (n : ℕ) → List Byte → Wbuf
  | 0, _ => wbuf
  | n + 1, dp =>
    blockLoop (wbuf.setIfInBounds l1pos (getword (dp.take wordSize))) (l1pos + 1) n
      (dp.drop wordSize)

/-- The loop over the blocks that more bytes follow. -/
def keyLoop (u : Umac H) : (fuel l1pos : ℕ) → List Byte → Umac H × ℕ × List Byte
  | 0, l1pos, dp => (u, l1pos, dp)
  | fuel + 1, l1pos, dp =>
    if l1KeyLen - l1pos * wordSize < dp.length then
      keyLoop { u with wbuf := blockLoop u.wbuf l1pos (l1KeyWords - l1pos) dp }.consume fuel 0
        (dp.drop (l1KeyLen - l1pos * wordSize))
    else (u, l1pos, dp)

/-- The loop over the words that are left. -/
def wordLoop (wbuf : Wbuf) (l1pos : ℕ) : List Byte → Wbuf × ℕ × List Byte
  | a :: b :: c :: d :: dp =>
    wordLoop (wbuf.setIfInBounds l1pos (getword [a, b, c, d])) (l1pos + 1) dp
  | dp => (wbuf, l1pos, dp)

/-- `update` behind its first part. -/
def updateWords (u : Umac H) (dp : List Byte) : Umac H :=
  let (u, l1pos, dp) := keyLoop u (dp.length + 1) (u.l1len / wordSize) dp
  let (wbuf, l1pos, dp) := wordLoop u.wbuf l1pos dp
  let l1len := l1pos * wordSize
  if dp.isEmpty then { u with wbuf := wbuf, l1len := l1len }
  else
    { u with
      wbuf := wbuf.setIfInBounds (l1len / wordSize) (getword dp)
      l1len := l1len + dp.length }

def update (u : Umac H) (dp : List Byte) : Option (Umac H) :=
  if dp.isEmpty then some u
  else do
    let (u, dp) ← u.fillWord dp
    some (u.updateWords dp)

/-- Successive calls of `update`. -/
def updates (u : Umac H) (parts : List (List Byte)) : Option (Umac H) :=
  parts.foldlM update u

/-- `final` -/
def final (u : Umac H) : List Byte :=
  H.final u.poly u.totlen u.wbuf u.l1len

/-- What `setkey` leaves: `k1`, `k21`, `k31` and `k32`. -/
structure Keys where
  k1 : List Word
  k21 : List Dword
  k31 : List (List Dword)
  k32 : List Word

def nhInner (k m : List Word) : Dword :=
  let factor (i : ℕ) : Dword := (k.getD i 0 + m.getD i 0).setWidth 64
  factor 0 * factor 4 + factor 1 * factor 5 + factor 2 * factor 6 + factor 3 * factor 7

/-- The loop of `nh` over `n` blocks of eight words. -/
def nhLoop (k m : List Word) (y : Dword) : ℕ → Dword
  | 0 => y
  | n + 1 => nhLoop (k.drop (l1BlockSize / wordSize)) (m.drop (l1BlockSize / wordSize))
      (y + nhInner k m) n

/-- `nh` of a whole block -/
def nh (k m : List Word) : Dword :=
  nhLoop k m (BitVec.ofNat 64 (l1KeyLen * 8)) (l1KeyLen / l1BlockSize)

/-- `nh` of the first `len` bytes -/
def nhLen (k m : List Word) (len : ℕ) : Dword :=
  let extra := len % l1BlockSize
  let y := nhLoop k m (BitVec.ofNat 64 (len * 8)) (len / l1BlockSize)
  if extra = 0 then y
  else
    let words := len / l1BlockSize * (l1BlockSize / wordSize)
    let buf := (m.drop words).take ((extra + (wordSize - 1)) / wordSize)
    y + nhInner (k.drop words) buf

/-- `umac_prime<64>::prime`, `marker` and `maxword` -/
def prime64 : ℕ := 0xffffffffffffffc5

def marker64 : ℕ := prime64 - 1

def maxword64 : ℕ := 0xffffffff00000000

/-- `umac_prime<36>::prime` -/
def prime36 : Dword := 0x0000000ffffffffb

/-- `umac_poly<64>::poly_inner` -/
def polyInner (yp k m : Dword) : Dword :=
  let yp :=
    if maxword64 ≤ m.toNat then (yp.toNat * k.toNat + marker64) % prime64 else yp.toNat
  BitVec.ofNat 64 ((yp * k.toNat + m.toNat) % prime64)

/-- `l3hash`: `m[4]` to `m[7]` are the 16-bit digits of `val`, and the others are zero. -/
def l3hash (key : Keys) (polyno : ℕ) (val : Dword) : Word :=
  let m (i : ℕ) : Dword := ((val >>> (16 * (7 - i))).setWidth 16).setWidth 64
  let k (i : ℕ) : Dword := (key.k31.getD polyno []).getD i 0
  let sum := m 4 * k 4 + m 5 * k 5 + m 6 * k 6 + m 7 * k 7
  (sum % prime36 ^^^ (key.k32.getD polyno 0).setWidth 64).setWidth 32

/-- `putwordbe` -/
def putwordbe (v : Word) : List Byte :=
  [(v >>> 24).setWidth 8, (v >>> 16).setWidth 8, (v >>> 8).setWidth 8, v.setWidth 8]

/-- `k1 + i * l1_key_shift` -/
def shiftedKey (key : Keys) (i : ℕ) : List Word := key.k1.drop (i * l1KeyShift)

/-- `umac_u32_le` with its keys: the state is `y1`. -/
def umacU32Le (key : Keys) : Hash where
  Poly := List Dword
  polyReset := List.replicate outputWords 1
  consume y wbuf :=
    y.mapIdx fun i yp => polyInner yp (key.k21.getD i 0) (nh (shiftedKey key i) wbuf.toList)
  final y totlen wbuf l1len :=
    let last (i : ℕ) : Dword := nhLen (shiftedKey key i) wbuf.toList l1len
    let y :=
      if totlen = 0 then y.mapIdx fun i _ => last i
      else if l1len = 0 then y
      else y.mapIdx fun i yp => polyInner yp (key.k21.getD i 0) (last i)
    (y.mapIdx fun i yp => putwordbe (l3hash key i yp)).flatten

end Umac

end Sfslite.Crypt
