import Sfslite.Arpc.Bytes

/-!
Armored text: `armor.C`. A text is read from the bytes that are in memory from its pointer on.
An assertion that fails and a read or a write outside of a buffer answer `none`; the inner
option of a `str` is `none` for the null one.
-/

namespace Sfslite.Async.Armor

open Sfslite.Arpc (Byte)

abbrev Str := Option (List Byte)

def chars (cs : List Char) : List Byte := cs.map fun c => BitVec.ofNat 8 c.toNat

def b2aAt (tab : List Byte) (i : Byte) : Byte := tab.getD i.toNat 0

/-- An entry of a table of digits, which has one for each character. -/
def a2bAt (tab : List ℤ) (c : Byte) : ℤ := tab.getD c.toNat (-1)

def b2a32 : List Byte := chars
  ['a', 'b', 'c', 'd', 'e', 'f', 'g', 'h', 'i', 'j', 'k', 'm', 'n', 'p', 'q', 'r',
   's', 't', 'u', 'v', 'w', 'x', 'y', 'z', '2', '3', '4', '5', '6', '7', '8', '9']

def b2a32Rfc : List Byte := chars
  ['a', 'b', 'c', 'd', 'e', 'f', 'g', 'h', 'i', 'j', 'k', 'l', 'm', 'n', 'o', 'p',
   'q', 'r', 's', 't', 'u', 'v', 'w', 'x', 'y', 'z', '2', '3', '4', '5', '6', '7']

def a2b32 : List ℤ :=
  [-1, -1, -1, -1, -1, -1, -1, -1, -1, -1, -1, -1, -1, -1, -1, -1,
   -1, -1, -1, -1, -1, -1, -1, -1, -1, -1, -1, -1, -1, -1, -1, -1,
   -1, -1, -1, -1, -1, -1, -1, -1, -1, -1, -1, -1, -1, -1, -1, -1,
   -1, -1, 24, 25, 26, 27, 28, 29, 30, 31, -1, -1, -1, -1, -1, -1,
   -1, -1, -1, -1, -1, -1, -1, -1, -1, -1, -1, -1, -1, -1, -1, -1,
   -1, -1, -1, -1, -1, -1, -1, -1, -1, -1, -1, -1, -1, -1, -1, -1,
   -1, 0, 1, 2, 3, 4, 5, 6, 7, 8, 9, 10, -1, 11, 12, -1,
   13, 14, 15, 16, 17, 18, 19, 20, 21, 22, 23, -1, -1, -1, -1, -1,
   -1, -1, -1, -1, -1, -1, -1, -1, -1, -1, -1, -1, -1, -1, -1, -1,
   -1, -1, -1, -1, -1, -1, -1, -1, -1, -1, -1, -1, -1, -1, -1, -1,
   -1, -1, -1, -1, -1, -1, -1, -1, -1, -1, -1, -1, -1, -1, -1, -1,
   -1, -1, -1, -1, -1, -1, -1, -1, -1, -1, -1, -1, -1, -1, -1, -1,
   -1, -1, -1, -1, -1, -1, -1, -1, -1, -1, -1, -1, -1, -1, -1, -1,
   -1, -1, -1, -1, -1, -1, -1, -1, -1, -1, -1, -1, -1, -1, -1, -1,
   -1, -1, -1, -1, -1, -1, -1, -1, -1, -1, -1, -1, -1, -1, -1, -1,
   -1, -1, -1, -1, -1, -1, -1, -1, -1, -1, -1, -1, -1, -1, -1, -1]

def a2b32Rfc : List ℤ :=
  [-1, -1, -1, -1, -1, -1, -1, -1, -1, -1, -1, -1, -1, -1, -1, -1,
   -1, -1, -1, -1, -1, -1, -1, -1, -1, -1, -1, -1, -1, -1, -1, -1,
   -1, -1, -1, -1, -1, -1, -1, -1, -1, -1, -1, -1, -1, -1, -1, -1,
   -1, -1, 26, 27, 28, 29, 30, 31, -1, -1, -1, -1, -1, -1, -1, -1,
   -1, -1, -1, -1, -1, -1, -1, -1, -1, -1, -1, -1, -1, -1, -1, -1,
   -1, -1, -1, -1, -1, -1, -1, -1, -1, -1, -1, -1, -1, -1, -1, -1,
   -1, 0, 1, 2, 3, 4, 5, 6, 7, 8, 9, 10, 11, 12, 13, 14,
   15, 16, 17, 18, 19, 20, 21, 22, 23, 24, 25, -1, -1, -1, -1, -1,
   -1, -1, -1, -1, -1, -1, -1, -1, -1, -1, -1, -1, -1, -1, -1, -1,
   -1, -1, -1, -1, -1, -1, -1, -1, -1, -1, -1, -1, -1, -1, -1, -1,
   -1, -1, -1, -1, -1, -1, -1, -1, -1, -1, -1, -1, -1, -1, -1, -1,
   -1, -1, -1, -1, -1, -1, -1, -1, -1, -1, -1, -1, -1, -1, -1, -1,
   -1, -1, -1, -1, -1, -1, -1, -1, -1, -1, -1, -1, -1, -1, -1, -1,
   -1, -1, -1, -1, -1, -1, -1, -1, -1, -1, -1, -1, -1, -1, -1, -1,
   -1, -1, -1, -1, -1, -1, -1, -1, -1, -1, -1, -1, -1, -1, -1, -1,
   -1, -1, -1, -1, -1, -1, -1, -1, -1, -1, -1, -1, -1, -1, -1, -1]

def b2a32rem : List ℕ := [0, 2, 4, 5, 7]

def a2b32rem : List ℤ := [0, -1, 1, -1, 2, 3, -1, 4]

/-- The loop and the switch of `_armor32`. -/
def armor32Text (tab : List Byte) : List Byte → List Byte
  | p0 :: p1 :: p2 :: p3 :: p4 :: p =>
    b2aAt tab (p0 >>> 3) :: b2aAt tab ((p0 &&& 0x7) <<< 2 ||| p1 >>> 6) ::
      b2aAt tab (p1 >>> 1 &&& 0x1f) :: b2aAt tab ((p1 &&& 0x1) <<< 4 ||| p2 >>> 4) ::
      b2aAt tab ((p2 &&& 0xf) <<< 1 ||| p3 >>> 7) :: b2aAt tab (p3 >>> 2 &&& 0x1f) ::
      b2aAt tab ((p3 &&& 0x3) <<< 3 ||| p4 >>> 5) :: b2aAt tab (p4 &&& 0x1f) ::
      armor32Text tab p
  | [p0, p1, p2, p3] =>
    [b2aAt tab (p0 >>> 3), b2aAt tab ((p0 &&& 0x7) <<< 2 ||| p1 >>> 6),
      b2aAt tab (p1 >>> 1 &&& 0x1f), b2aAt tab ((p1 &&& 0x1) <<< 4 ||| p2 >>> 4),
      b2aAt tab ((p2 &&& 0xf) <<< 1 ||| p3 >>> 7), b2aAt tab (p3 >>> 2 &&& 0x1f),
      b2aAt tab ((p3 &&& 0x3) <<< 3)]
  | [p0, p1, p2] =>
    [b2aAt tab (p0 >>> 3), b2aAt tab ((p0 &&& 0x7) <<< 2 ||| p1 >>> 6),
      b2aAt tab (p1 >>> 1 &&& 0x1f), b2aAt tab ((p1 &&& 0x1) <<< 4 ||| p2 >>> 4),
      b2aAt tab ((p2 &&& 0xf) <<< 1)]
  | [p0, p1] =>
    [b2aAt tab (p0 >>> 3), b2aAt tab ((p0 &&& 0x7) <<< 2 ||| p1 >>> 6),
      b2aAt tab (p1 >>> 1 &&& 0x1f), b2aAt tab ((p1 &&& 0x1) <<< 4)]
  | [p0] => [b2aAt tab (p0 >>> 3), b2aAt tab ((p0 &&& 0x7) <<< 2)]
  | [] => []

/-- `_armor32`, with the assertion on the end of the buffer. -/
def armor32With (dp : List Byte) (tab : List Byte) : Option (List Byte) :=
  let res := armor32Text tab dp
  if res.length = dp.length / 5 * 8 + b2a32rem.getD (dp.length % 5) 0 then some res else none

/-- `_armor32len`, and the loop of `_armor64len`. -/
def armorLen (tab : List ℤ) : List Byte → Option ℕ
  | [] => none
  | c :: p => if 0 ≤ a2bAt tab c then (armorLen tab p).map (· + 1) else some 0

def armor32len (s : List Byte) : Option ℕ := armorLen a2b32 s

def armor32lenRfc (s : List Byte) : Option ℕ := armorLen a2b32Rfc s

/-- The length of a text: the one that was passed, unless that is negative. -/
def textLen (lenOf : List Byte → Option ℕ) (s : List Byte) (len : ℤ) : Option ℕ :=
  if len < 0 then lenOf s else some len.toNat

/-- The `int` of a character, `tab[s[i]]`. -/
def digit (tab : List ℤ) (s : List Byte) (i : ℕ) : Option (BitVec 32) :=
  s[i]?.map fun c => BitVec.ofInt 32 (a2bAt tab c)

section Bytes32

variable (c0 c1 c2 c3 c4 c5 c6 c7 : BitVec 32)

def byte32_0 : Byte := (c0 <<< 3 ||| c1.sshiftRight 2).setWidth 8

def byte32_1 : Byte := (c1 <<< 6 ||| c2 <<< 1 ||| c3.sshiftRight 4).setWidth 8

def byte32_2 : Byte := (c3 <<< 4 ||| c4.sshiftRight 1).setWidth 8

def byte32_3 : Byte := (c4 <<< 7 ||| c5 <<< 2 ||| c6.sshiftRight 3).setWidth 8

def byte32_4 : Byte := (c6 <<< 5 ||| c7).setWidth 8

end Bytes32

/-- The loop of `_dearmor32`, with the text behind it. -/
def dearmor32Groups (tab : List ℤ) : ℕ → List Byte → Option (List Byte × List Byte)
  | 0, s => some ([], s)
  | n + 1, s => do
      let c0 ← digit tab s 0
      let c1 ← digit tab s 1
      let c2 ← digit tab s 2
      let c3 ← digit tab s 3
      let c4 ← digit tab s 4
      let c5 ← digit tab s 5
      let c6 ← digit tab s 6
      let c7 ← digit tab s 7
      let (d, s) ← dearmor32Groups tab n (s.drop 8)
      some (byte32_0 c0 c1 :: byte32_1 c1 c2 c3 :: byte32_2 c3 c4 :: byte32_3 c4 c5 c6 ::
        byte32_4 c6 c7 :: d, s)

/-- What `_dearmor32` reads behind the loop. -/
def dearmor32Rem (tab : List ℤ) (rem : ℤ) (s : List Byte) : Option (List Byte) :=
  if 1 ≤ rem then do
    let c0 ← digit tab s 0
    let c1 ← digit tab s 1
    let d ←
      if 2 ≤ rem then do
        let c2 ← digit tab s 2
        let c3 ← digit tab s 3
        let d ←
          if 3 ≤ rem then do
            let c4 ← digit tab s 4
            let d ←
              if 4 ≤ rem then do
                let c5 ← digit tab s 5
                let c6 ← digit tab s 6
                some [byte32_3 c4 c5 c6]
              else some []
            some (byte32_2 c3 c4 :: d)
          else some []
        some (byte32_1 c1 c2 c3 :: d)
      else some []
    some (byte32_0 c0 c1 :: d)
  else some []

def dearmor32Bytes (tab : List ℤ) (n : ℕ) (rem : ℤ) (s : List Byte) : Option (List Byte) := do
  let (d, s) ← dearmor32Groups tab n s
  let d' ← dearmor32Rem tab rem s
  some (d ++ d')

/-- `_dearmor32`. The length of a text that ends with a null byte is taken with `armor32len`,
whichever table decodes it. -/
def dearmor32With (s : List Byte) (len : ℤ) (tab : List ℤ) : Option Str := do
  let len ← textLen armor32len s len
  let rem := a2b32rem.getD (len % 8) 0
  if rem < 0 then some none
  else if len = 0 then some (some [])
  else do
    let bin ← dearmor32Bytes tab (len / 8) rem s
    if (bin.length : ℤ) = (len / 8 : ℕ) * 5 + rem then some (some bin) else none

def armor32 (dp : List Byte) : Option (List Byte) := armor32With dp b2a32

def dearmor32 (s : List Byte) (len : ℤ) : Option Str := dearmor32With s len a2b32

def armor32Rfc (dp : List Byte) : Option (List Byte) := armor32With dp b2a32Rfc

def dearmor32Rfc (s : List Byte) (len : ℤ) : Option Str := dearmor32With s len a2b32Rfc

def b2a64 : List Byte := chars
  ['A', 'B', 'C', 'D', 'E', 'F', 'G', 'H', 'I', 'J', 'K', 'L', 'M', 'N', 'O', 'P',
   'Q', 'R', 'S', 'T', 'U', 'V', 'W', 'X', 'Y', 'Z', 'a', 'b', 'c', 'd', 'e', 'f',
   'g', 'h', 'i', 'j', 'k', 'l', 'm', 'n', 'o', 'p', 'q', 'r', 's', 't', 'u', 'v',
   'w', 'x', 'y', 'z', '0', '1', '2', '3', '4', '5', '6', '7', '8', '9', '+', '/']

def a2b64 : List ℤ :=
  [-1, -1, -1, -1, -1, -1, -1, -1, -1, -1, -1, -1, -1, -1, -1, -1,
   -1, -1, -1, -1, -1, -1, -1, -1, -1, -1, -1, -1, -1, -1, -1, -1,
   -1, -1, -1, -1, -1, -1, -1, -1, -1, -1, -1, 62, -1, -1, -1, 63,
   52, 53, 54, 55, 56, 57, 58, 59, 60, 61, -1, -1, -1, -1, -1, -1,
   -1, 0, 1, 2, 3, 4, 5, 6, 7, 8, 9, 10, 11, 12, 13, 14,
   15, 16, 17, 18, 19, 20, 21, 22, 23, 24, 25, -1, -1, -1, -1, -1,
   -1, 26, 27, 28, 29, 30, 31, 32, 33, 34, 35, 36, 37, 38, 39, 40,
   41, 42, 43, 44, 45, 46, 47, 48, 49, 50, 51, -1, -1, -1, -1, -1,
   -1, -1, -1, -1, -1, -1, -1, -1, -1, -1, -1, -1, -1, -1, -1, -1,
   -1, -1, -1, -1, -1, -1, -1, -1, -1, -1, -1, -1, -1, -1, -1, -1,
   -1, -1, -1, -1, -1, -1, -1, -1, -1, -1, -1, -1, -1, -1, -1, -1,
   -1, -1, -1, -1, -1, -1, -1, -1, -1, -1, -1, -1, -1, -1, -1, -1,
   -1, -1, -1, -1, -1, -1, -1, -1, -1, -1, -1, -1, -1, -1, -1, -1,
   -1, -1, -1, -1, -1, -1, -1, -1, -1, -1, -1, -1, -1, -1, -1, -1,
   -1, -1, -1, -1, -1, -1, -1, -1, -1, -1, -1, -1, -1, -1, -1, -1,
   -1, -1, -1, -1, -1, -1, -1, -1, -1, -1, -1, -1, -1, -1, -1, -1]

/-- The loop and the switch of `_armor64`. -/
def armor64Text (b2a : List Byte) : List Byte → List Byte
  | p0 :: p1 :: p2 :: p =>
    b2aAt b2a (p0 >>> 2) :: b2aAt b2a ((p0 &&& 0x3) <<< 4 ||| p1 >>> 4) ::
      b2aAt b2a ((p1 &&& 0xf) <<< 2 ||| p2 >>> 6) :: b2aAt b2a (p2 &&& 0x3f) ::
      armor64Text b2a p
  | [p0] => [b2aAt b2a (p0 >>> 2), b2aAt b2a ((p0 &&& 0x3) <<< 4)] ++ chars ['=', '=']
  | [p0, p1] =>
    [b2aAt b2a (p0 >>> 2), b2aAt b2a ((p0 &&& 0x3) <<< 4 ||| p1 >>> 4),
      b2aAt b2a ((p1 &&& 0xf) <<< 2)] ++ chars ['=']
  | [] => []

/-- `_armor64`, with its assertion and the one of `mstr::setlen`. -/
def armor64With (b2a : List Byte) (endpad : Bool) (dp : List Byte) : Option (List Byte) :=
  let rem := dp.length % 3
  let res := armor64Text b2a dp
  if res.length = (dp.length + 2) / 3 * 4 then
    if endpad = false ∧ rem ≠ 0 then some (res.take (res.length + rem - 3)) else some res
  else none

section Bytes64

variable (c0 c1 c2 c3 : BitVec 32)

def byte64_0 : Byte := (c0 <<< 2 ||| c1.sshiftRight 4).setWidth 8

def byte64_1 : Byte := (c1 <<< 4 ||| c2.sshiftRight 2).setWidth 8

def byte64_2 : Byte := (c2 <<< 6 ||| c3).setWidth 8

end Bytes64

/-- The loop of `_dearmor64`, which leaves the last four characters, or the fewer ones that
are there. -/
def dearmor64Groups (a2b : List ℤ) : ℕ → List Byte → Option (List Byte × List Byte)
  | len + 5, s => do
      let c0 ← digit a2b s 0
      let c1 ← digit a2b s 1
      let c2 ← digit a2b s 2
      let c3 ← digit a2b s 3
      let (d, s) ← dearmor64Groups a2b (len + 1) (s.drop 4)
      some (byte64_0 c0 c1 :: byte64_1 c1 c2 :: byte64_2 c2 c3 :: d, s)
  | _, s => some ([], s)

/-- The last characters, read as far as they are digits. -/
def dearmor64Last (a2b : List ℤ) (s : List Byte) : Option (List Byte) := do
  let c0 ← digit a2b s 0
  let c1 ← digit a2b s 1
  let c2 ← digit a2b s 2
  let d ←
    if c2.msb = false then do
      let c3 ← digit a2b s 3
      some (byte64_1 c1 c2 :: if c3.msb = false then [byte64_2 c2 c3] else [])
    else some []
  some (byte64_0 c0 c1 :: d)

def dearmor64Bytes (a2b : List ℤ) (len : ℕ) (s : List Byte) : Option (List Byte) := do
  let (d, s) ← dearmor64Groups a2b len s
  let d' ← dearmor64Last a2b s
  some (d ++ d')

/-- `_dearmor64`. What is written behind the buffer fails the assertion of `mstr::setlen`. -/
def dearmor64With (a2b : List ℤ) (s : List Byte) (len : ℕ) : Option Str :=
  if len = 0 then some (some [])
  else do
    let d ← dearmor64Bytes a2b len s
    if d.length ≤ len - len / 4 then some (some d) else none

def armor64lenWith (a2b : List ℤ) (pad : Bool) (s : List Byte) : Option ℕ := do
  let n ← armorLen a2b s
  if pad then do
    let c ← s[n]?
    let n := if c = 0x3d#8 then n + 1 else n
    let c ← s[n]?
    some (if c = 0x3d#8 then n + 1 else n)
  else some n

def armor64 (s : List Byte) : Option (List Byte) := armor64With b2a64 true s

def armor64len (s : List Byte) : Option ℕ := armor64lenWith a2b64 true s

def dearmor64 (s : List Byte) (len : ℤ) : Option Str := do
  let len ← textLen armor64len s len
  if len % 4 ≠ 0 then some none else dearmor64With a2b64 s len

def b2a64A : List Byte := chars
  ['A', 'B', 'C', 'D', 'E', 'F', 'G', 'H', 'I', 'J', 'K', 'L', 'M', 'N', 'O', 'P',
   'Q', 'R', 'S', 'T', 'U', 'V', 'W', 'X', 'Y', 'Z', 'a', 'b', 'c', 'd', 'e', 'f',
   'g', 'h', 'i', 'j', 'k', 'l', 'm', 'n', 'o', 'p', 'q', 'r', 's', 't', 'u', 'v',
   'w', 'x', 'y', 'z', '0', '1', '2', '3', '4', '5', '6', '7', '8', '9', '+', '-']

def a2b64A : List ℤ :=
  [-1, -1, -1, -1, -1, -1, -1, -1, -1, -1, -1, -1, -1, -1, -1, -1,
   -1, -1, -1, -1, -1, -1, -1, -1, -1, -1, -1, -1, -1, -1, -1, -1,
   -1, -1, -1, -1, -1, -1, -1, -1, -1, -1, -1, 62, -1, 63, -1, -1,
   52, 53, 54, 55, 56, 57, 58, 59, 60, 61, -1, -1, -1, -1, -1, -1,
   -1, 0, 1, 2, 3, 4, 5, 6, 7, 8, 9, 10, 11, 12, 13, 14,
   15, 16, 17, 18, 19, 20, 21, 22, 23, 24, 25, -1, -1, -1, -1, -1,
   -1, 26, 27, 28, 29, 30, 31, 32, 33, 34, 35, 36, 37, 38, 39, 40,
   41, 42, 43, 44, 45, 46, 47, 48, 49, 50, 51, -1, -1, -1, -1, -1,
   -1, -1, -1, -1, -1, -1, -1, -1, -1, -1, -1, -1, -1, -1, -1, -1,
   -1, -1, -1, -1, -1, -1, -1, -1, -1, -1, -1, -1, -1, -1, -1, -1,
   -1, -1, -1, -1, -1, -1, -1, -1, -1, -1, -1, -1, -1, -1, -1, -1,
   -1, -1, -1, -1, -1, -1, -1, -1, -1, -1, -1, -1, -1, -1, -1, -1,
   -1, -1, -1, -1, -1, -1, -1, -1, -1, -1, -1, -1, -1, -1, -1, -1,
   -1, -1, -1, -1, -1, -1, -1, -1, -1, -1, -1, -1, -1, -1, -1, -1,
   -1, -1, -1, -1, -1, -1, -1, -1, -1, -1, -1, -1, -1, -1, -1, -1,
   -1, -1, -1, -1, -1, -1, -1, -1, -1, -1, -1, -1, -1, -1, -1, -1]

def b2a64X : List Byte := chars
  ['A', 'B', 'C', 'D', 'E', 'F', 'G', 'H', 'I', 'J', 'K', 'L', 'M', 'N', 'O', 'P',
   'Q', 'R', 'S', 'T', 'U', 'V', 'W', 'X', 'Y', 'Z', 'a', 'b', 'c', 'd', 'e', 'f',
   'g', 'h', 'i', 'j', 'k', 'l', 'm', 'n', 'o', 'p', 'q', 'r', 's', 't', 'u', 'v',
   'w', 'x', 'y', 'z', '0', '1', '2', '3', '4', '5', '6', '7', '8', '9', '@', '_']

def a2b64X : List ℤ :=
  [-1, -1, -1, -1, -1, -1, -1, -1, -1, -1, -1, -1, -1, -1, -1, -1,
   -1, -1, -1, -1, -1, -1, -1, -1, -1, -1, -1, -1, -1, -1, -1, -1,
   -1, -1, -1, -1, -1, -1, -1, -1, -1, -1, -1, -1, -1, -1, -1, -1,
   52, 53, 54, 55, 56, 57, 58, 59, 60, 61, -1, -1, -1, -1, -1, -1,
   62, 0, 1, 2, 3, 4, 5, 6, 7, 8, 9, 10, 11, 12, 13, 14,
   15, 16, 17, 18, 19, 20, 21, 22, 23, 24, 25, -1, -1, -1, -1, 63,
   -1, 26, 27, 28, 29, 30, 31, 32, 33, 34, 35, 36, 37, 38, 39, 40,
   41, 42, 43, 44, 45, 46, 47, 48, 49, 50, 51, -1, -1, -1, -1, -1,
   -1, -1, -1, -1, -1, -1, -1, -1, -1, -1, -1, -1, -1, -1, -1, -1,
   -1, -1, -1, -1, -1, -1, -1, -1, -1, -1, -1, -1, -1, -1, -1, -1,
   -1, -1, -1, -1, -1, -1, -1, -1, -1, -1, -1, -1, -1, -1, -1, -1,
   -1, -1, -1, -1, -1, -1, -1, -1, -1, -1, -1, -1, -1, -1, -1, -1,
   -1, -1, -1, -1, -1, -1, -1, -1, -1, -1, -1, -1, -1, -1, -1, -1,
   -1, -1, -1, -1, -1, -1, -1, -1, -1, -1, -1, -1, -1, -1, -1, -1,
   -1, -1, -1, -1, -1, -1, -1, -1, -1, -1, -1, -1, -1, -1, -1, -1,
   -1, -1, -1, -1, -1, -1, -1, -1, -1, -1, -1, -1, -1, -1, -1, -1]

def armor64A (s : List Byte) : Option (List Byte) := armor64With b2a64A false s

def armor64X (s : List Byte) : Option (List Byte) := armor64With b2a64X true s

def armor64Alen (s : List Byte) : Option ℕ := armor64lenWith a2b64A false s

def armor64Xlen (s : List Byte) : Option ℕ := armor64lenWith a2b64X true s

def dearmor64A (s : List Byte) (len : ℤ) : Option Str := do
  let len ← textLen armor64Alen s len
  dearmor64With a2b64A s len

def dearmor64X (s : List Byte) (len : ℤ) : Option Str := do
  let len ← textLen armor64Xlen s len
  if len % 4 ≠ 0 then some none else dearmor64With a2b64X s len

inductive Encoding where
  | base32
  | base32Rfc
  | base64
  | base64A
  | base64X
deriving DecidableEq, Repr

def armor : Encoding → List Byte → Option (List Byte)
  | .base32 => armor32
  | .base32Rfc => armor32Rfc
  | .base64 => armor64
  | .base64A => armor64A
  | .base64X => armor64X

def dearmor : Encoding → List Byte → ℤ → Option Str
  | .base32 => dearmor32
  | .base32Rfc => dearmor32Rfc
  | .base64 => dearmor64
  | .base64A => dearmor64A
  | .base64X => dearmor64X

end Sfslite.Async.Armor
