import Mathlib.Data.Vector.Basic
import Sfslite.Arpc.Bytes

/-!
The padding of messages for encryption and for signatures: `pad.C`. The oracles and SHA-1 are any
functions with results of the right length, and what `rnd.getbytes` gives is an argument. An access
outside of a buffer and a loop that does not end answer `none`.
-/

namespace Sfslite.Crypt

open Sfslite.Arpc (Byte)

/-- An oracle: the bytes it gives for a length and an input. -/
abbrev Oracle := (dstlen : ℕ) → List Byte → List.Vector Byte dstlen

/-- The random bytes of a call. -/
abbrev Rnd := (len : ℕ) → List.Vector Byte len

def hashsize : ℕ := 20

/-- `sha1ctx::final` after some bytes were fed to it. -/
abbrev Sha1 := List Byte → List.Vector Byte hashsize

def encZbytes : ℕ := 16

def encMinpad : ℕ := 16

def sigRndbytes : ℕ := 16

def sigMinpad : ℕ := 16

/-- `0xff >> (-nbits & 7)`. -/
def msbmask (nbits : ℕ) : Byte := 0xff >>> ((8 - nbits % 8) % 8)

/-- `hp[padsize-1] &= msbmask`. -/
def maskLast (mask : Byte) (l : List Byte) : List Byte := l.modify (l.length - 1) (· &&& mask)

/-- `dst[i] ^= src[i]` as far as `src` goes. -/
def xorBytes (dst src : List Byte) : List Byte :=
  List.zipWith (· ^^^ ·) dst src ++ dst.drop src.length

/-- `pre_encrypt`, with the oracles of `enc_gidx` and `enc_hidx`. -/
def preEncrypt (g h : Oracle) (rnd : Rnd) (msg : List Byte) (nbits : ℕ) : ℤ :=
  if nbits / 8 < msg.length + encZbytes + encMinpad then 0
  else
    let msgzlen := msg.length + encZbytes
    let padsize := (nbits + 7) / 8 - msgzlen
    let hp := maskLast (msbmask nbits) (rnd padsize).toList
    let mp := xorBytes (g msgzlen hp).toList msg
    let hp := maskLast (msbmask nbits) (xorBytes hp (h padsize mp).toList)
    mpzSetRawmagLe (mp ++ hp)

/-- `post_decrypt`; `some none` is its failure. -/
def postDecrypt (g h : Oracle) (m : ℤ) (msglen nbits : ℕ) : Option (Option (List Byte)) :=
  -- const u_int msgzlen
  let msgzlen := (msglen + encZbytes) % 2 ^ 32
  let padsize := (nbits + 7) / 8 - msgzlen
  if nbits / 8 < msglen + encZbytes + encMinpad then some none
  else
    let msg := mpzGetRawmagLe ((nbits + 7) / 8) m
    -- hp[i] for i up to padsize
    if msg.length < msglen + encZbytes + padsize then none
    else
      let hp := (msg.drop (msglen + encZbytes)).take padsize
      let hp := maskLast (msbmask nbits) (xorBytes hp (h padsize (msg.take msgzlen)).toList)
      let mp := xorBytes (msg.take (msglen + encZbytes)) (g msgzlen hp).toList
      if ((mp.drop msglen).take encZbytes).any (· ≠ 0) then some none
      else some (some (mp.take msglen))

/-- `pre_sign`, where `sc` has what was fed to the context before. -/
def preSign (sha1 : Sha1) (g : Oracle) (rnd : Rnd) (sc : List Byte) (nbits : ℕ) : ℤ :=
  if nbits / 8 < sigMinpad + sigRndbytes + hashsize then 0
  else
    let r := (rnd sigRndbytes).toList
    let mp := (sha1 (sc ++ r)).toList
    let padsize := (nbits + 7) / 8 - hashsize
    let hp := maskLast (msbmask nbits) (g padsize mp).toList
    mpzSetRawmagLe (mp ++ xorBytes hp r)

def postVerify (sha1 : Sha1) (g : Oracle) (sc : List Byte) (s : ℤ) (nbits : ℕ) : Bool :=
  if nbits / 8 < sigMinpad + sigRndbytes + hashsize then false
  else
    let m := mpzGetRawmagLe ((nbits + 7) / 8) s
    let mp := m.take hashsize
    let hp := m.drop hashsize
    let padsize := (nbits + 7) / 8 - hashsize
    let g := maskLast (msbmask nbits) (g padsize mp).toList
    if hp.drop sigRndbytes ≠ g.drop sigRndbytes then false
    else
      let r := xorBytes (hp.take sigRndbytes) (g.take sigRndbytes)
      (sha1 (sc ++ r)).toList = mp

/-- The message as the loop of `pre_sign_r` puts it in: the loop counts an `int` from
`sig_rndbytes` up to the sum of that and the length, where the sum is cut to an `int`. -/
def embedded (msg : List Byte) : List Byte :=
  msg.take ((((sigRndbytes + msg.length : ℕ) : ℤ).bmod (2 ^ 32)).toNat - sigRndbytes)

def preSignR (sha1 : Sha1) (g : Oracle) (rnd : Rnd) (msg : List Byte) (nbits : ℕ) : ℤ :=
  if nbits / 8 < sigRndbytes + hashsize + max sigMinpad msg.length then 0
  else
    let r := (rnd sigRndbytes).toList
    let mp := (sha1 (msg ++ r)).toList
    let padsize := (nbits + 7) / 8 - hashsize
    let hp := maskLast (msbmask nbits) (g padsize mp).toList
    mpzSetRawmagLe (mp ++ xorBytes hp (r ++ embedded msg))

/-- `post_verify_r`, whose loops count a `u_int` up to `padsize`; `some none` is its
failure. -/
def postVerifyR (sha1 : Sha1) (g : Oracle) (s : ℤ) (msglen nbits : ℕ) :
    Option (Option (List Byte)) :=
  if nbits / 8 < sigRndbytes + hashsize + max sigMinpad msglen then some none
  else
    let m := mpzGetRawmagLe ((nbits + 7) / 8) s
    let mp := m.take hashsize
    let hp := m.drop hashsize
    let padsize := (nbits + 7) / 8 - hashsize
    if 2 ^ 32 ≤ padsize then none
    else
      let hp := xorBytes hp (maskLast (msbmask nbits) (g padsize mp).toList)
      if (hp.drop (sigRndbytes + msglen)).any (· ≠ 0) then some none
      else
        let msg := (hp.drop sigRndbytes).take msglen
        if (sha1 (msg ++ hp.take sigRndbytes)).toList ≠ mp then some none
        else some (some msg)

variable {a b l : List Byte} {mask : Byte}

@[simp] theorem length_xorBytes : (xorBytes a b).length = a.length := by
  simp only [xorBytes, List.length_append, List.length_zipWith, List.length_drop]
  omega

@[simp] theorem length_maskLast : (maskLast mask l).length = l.length := by
  simp [maskLast]

theorem getElem?_xorBytes (i : ℕ) : (xorBytes a b)[i]? = a[i]?.map (· ^^^ (b[i]?).getD 0) := by
  unfold xorBytes
  by_cases hi : i < min a.length b.length
  · have ha : i < a.length := by omega
    have hb : i < b.length := by omega
    rw [List.getElem?_append_left (by rw [List.length_zipWith]; exact hi)]
    simp [ha, hb]
  · rw [List.getElem?_append_right (by rw [List.length_zipWith]; omega), List.length_zipWith,
      List.getElem?_drop]
    by_cases hb : b.length ≤ a.length
    · have hidx : b.length + (i - min a.length b.length) = i := by omega
      rw [hidx, List.getElem?_eq_none (l := b) (by omega), Option.getD_none]
      simp
    · rw [List.getElem?_eq_none (by omega), List.getElem?_eq_none (l := a) (by omega)]
      rfl

theorem getElem?_maskLast (i : ℕ) :
    (maskLast mask l)[i]? = l[i]?.map fun x => if i + 1 = l.length then x &&& mask else x := by
  rw [maskLast, List.getElem?_modify]
  cases hi : l[i]? with
  | none => simp
  | some x =>
    have hlt : i < l.length := by
      by_contra hge
      rw [List.getElem?_eq_none (by omega)] at hi
      cases hi
    have hiff : l.length - 1 = i ↔ i + 1 = l.length := by omega
    simp [hiff]

theorem xorBytes_xorBytes : xorBytes (xorBytes a b) b = a := by
  apply List.ext_getElem?
  intro i
  rw [getElem?_xorBytes, getElem?_xorBytes]
  cases a[i]? with
  | none => rfl
  | some x =>
    refine congrArg some ?_
    change x ^^^ b[i]?.getD 0 ^^^ b[i]?.getD 0 = x
    rw [BitVec.xor_assoc, BitVec.xor_self, BitVec.xor_zero]

theorem xorBytes_comm (h : a.length = b.length) : xorBytes a b = xorBytes b a := by
  apply List.ext_getElem?
  intro i
  rw [getElem?_xorBytes, getElem?_xorBytes]
  by_cases hi : i < a.length
  · have hb : i < b.length := by omega
    simp [hi, hb, BitVec.xor_comm]
  · have ha : a[i]? = none := List.getElem?_eq_none (by omega)
    have hb : b[i]? = none := List.getElem?_eq_none (by omega)
    rw [ha, hb]

theorem xorBytes_append_replicate (n : ℕ) :
    xorBytes a (b ++ List.replicate n 0) = xorBytes a b := by
  apply List.ext_getElem?
  intro i
  rw [getElem?_xorBytes, getElem?_xorBytes]
  congr 2
  by_cases hi : i < b.length
  · rw [List.getElem?_append_left hi]
  · rw [List.getElem?_append_right (by omega), List.getElem?_eq_none (l := b) (by omega),
      List.getElem?_replicate]
    split <;> rfl

theorem xorBytes_left_cancel (h : a.length = b.length) : xorBytes (xorBytes a b) a = b := by
  rw [xorBytes_comm h, xorBytes_xorBytes]

theorem take_xorBytes (n : ℕ) : (xorBytes a b).take n = xorBytes (a.take n) b := by
  apply List.ext_getElem?
  intro i
  rw [List.getElem?_take, getElem?_xorBytes, getElem?_xorBytes, List.getElem?_take]
  split <;> rfl

theorem drop_xorBytes {n : ℕ} (h : b.length ≤ n) : (xorBytes a b).drop n = a.drop n := by
  apply List.ext_getElem?
  intro i
  rw [List.getElem?_drop, List.getElem?_drop, getElem?_xorBytes,
    List.getElem?_eq_none (l := b) (by omega)]
  simp

theorem xorBytes_right_inj {c : List Byte} {m n : ℕ} (hb : a.length = b.length + m)
    (hc : a.length = c.length + n) :
    xorBytes a b = xorBytes a c ↔ b ++ List.replicate m 0 = c ++ List.replicate n 0 := by
  rw [← xorBytes_append_replicate (b := b) m, ← xorBytes_append_replicate (b := c) n]
  constructor
  · intro h
    have hbm : xorBytes (xorBytes a (b ++ List.replicate m 0)) a = b ++ List.replicate m 0 :=
      xorBytes_left_cancel (by simpa using hb)
    have hcn : xorBytes (xorBytes a (c ++ List.replicate n 0)) a = c ++ List.replicate n 0 :=
      xorBytes_left_cancel (by simpa using hc)
    rw [← hbm, ← hcn, h]
  · intro h
    rw [h]

theorem xorBytes_eq_append_replicate {n : ℕ} (hb : a.length = b.length)
    (hl : a.length = l.length + n) : xorBytes a b = l ++ List.replicate n 0 ↔ a = xorBytes b l := by
  constructor
  · intro h
    have hlen : (l ++ List.replicate n (0 : Byte)).length = b.length := by
      rw [List.length_append, List.length_replicate, ← hl, hb]
    rw [← xorBytes_append_replicate (b := l) n, ← xorBytes_comm hlen, ← h, xorBytes_xorBytes]
  · intro h
    rw [h, ← xorBytes_append_replicate (b := l) n]
    apply xorBytes_left_cancel
    rw [List.length_append, List.length_replicate, ← hl, hb]

theorem any_ne_zero_eq_false : l.any (· ≠ 0) = false ↔ l = List.replicate l.length 0 := by
  rw [List.any_eq_false, List.eq_replicate_iff]
  simp

theorem maskLast_xorBytes_twice (r h : List Byte) :
    maskLast mask (xorBytes (maskLast mask (xorBytes (maskLast mask r) h)) h) =
      maskLast mask r := by
  apply List.ext_getElem?
  intro i
  simp only [getElem?_maskLast, getElem?_xorBytes, length_xorBytes, length_maskLast]
  cases r[i]? with
  | none => rfl
  | some x =>
    simp only [Option.map_some, Option.some.injEq]
    split
    · apply BitVec.eq_of_getLsbD_eq
      intro j hj
      simp only [BitVec.getLsbD_and, BitVec.getLsbD_xor]
      cases mask.getLsbD j <;> simp
    · rw [BitVec.xor_assoc, BitVec.xor_self, BitVec.xor_zero]

theorem magOfBytes_concat_lt (x : Byte) :
    magOfBytes (l ++ [x]) < 256 ^ l.length * (x.toNat + 1) := by
  have hl := magOfBytes_lt l
  rw [magOfBytes_append, magOfBytes, magOfBytes, Nat.mul_zero, Nat.add_zero, Nat.mul_add,
    Nat.mul_one, Nat.add_comm]
  omega

theorem msbmask_toNat (nbits : ℕ) : (msbmask nbits).toNat + 1 = 2 ^ (8 - (8 - nbits % 8) % 8) := by
  have hmod : nbits % 8 < 8 := Nat.mod_lt _ (by norm_num)
  unfold msbmask
  interval_cases nbits % 8 <;> rfl

theorem maskLast_append (x : Byte) : maskLast mask (l ++ [x]) = l ++ [x &&& mask] := by
  have hmodify : ∀ (m : List Byte) (n : ℕ), n = m.length →
      (m ++ [x]).modify n (· &&& mask) = m ++ [x &&& mask] := by
    intro m
    induction m with
    | nil => rintro n rfl; rfl
    | cons y m ih => rintro n rfl; exact congrArg (y :: ·) (ih _ rfl)
  rw [maskLast, List.length_append, List.length_singleton, Nat.add_sub_cancel]
  exact hmodify l _ rfl

theorem maskLast_append_of_ne_nil (h : b ≠ []) : maskLast mask (a ++ b) = a ++ maskLast mask b := by
  obtain ⟨init, x, rfl⟩ : ∃ init x, b = init ++ [x] :=
    ⟨b.dropLast, b.getLast h, (List.dropLast_append_getLast h).symm⟩
  rw [← List.append_assoc, maskLast_append, maskLast_append, List.append_assoc]

theorem magOfBytes_maskLast_lt {nbits : ℕ} (hpos : 0 < nbits) (hlen : l.length = (nbits + 7) / 8) :
    magOfBytes (maskLast (msbmask nbits) l) < 2 ^ nbits := by
  have hne : l ≠ [] := by
    rintro rfl
    rw [List.length_nil] at hlen
    omega
  obtain ⟨init, x, rfl⟩ : ∃ init x, l = init ++ [x] :=
    ⟨l.dropLast, l.getLast hne, (List.dropLast_append_getLast hne).symm⟩
  rw [List.length_append, List.length_singleton] at hlen
  have hbits : 8 * init.length + (8 - (8 - nbits % 8) % 8) = nbits := by omega
  have htop : (x &&& msbmask nbits).toNat + 1 ≤ 2 ^ (8 - (8 - nbits % 8) % 8) := by
    rw [← msbmask_toNat, BitVec.toNat_and]
    exact Nat.succ_le_succ Nat.and_le_right
  rw [maskLast_append]
  calc magOfBytes (init ++ [x &&& msbmask nbits])
      < 256 ^ init.length * ((x &&& msbmask nbits).toNat + 1) := magOfBytes_concat_lt _
    _ ≤ 256 ^ init.length * 2 ^ (8 - (8 - nbits % 8) % 8) := Nat.mul_le_mul_left _ htop
    _ = 2 ^ nbits := by
        rw [show 256 = 2 ^ 8 from rfl, ← pow_mul, ← pow_add, hbits]

end Sfslite.Crypt
