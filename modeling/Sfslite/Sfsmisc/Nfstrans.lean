import Sfslite.Arpc.Bytes
import Sfslite.Lib.Cbc

/-!
The file handles of `nfstrans.C`, with the chaining of `blowfish.C`. The words are in the order of
the machine, and the memory of a handle that is made holds whatever it held before.

Both directions pass through one plain text: the word of length and server number, the handle, and
zeros up to the end of the last block.
-/

namespace Sfslite.Sfsmisc.Nfstrans

open Sfslite.Arpc Sfslite.Lib

/-- The order of the bytes of a word in memory. -/
inductive ByteOrder where
  | big
  | little
deriving DecidableEq, Repr

def ByteOrder.bytes (o : ByteOrder) (w : BitVec 32) : List Byte :=
  match o with
  | .big => htonl w
  | .little => (htonl w).reverse

/-- The first word of some bytes and the bytes behind it. -/
def ByteOrder.getword (o : ByteOrder) (b : List Byte) : Option (BitVec 32 × List Byte) :=
  match o, b with
  | .big, b => getint b
  | .little, b₀ :: b₁ :: b₂ :: b₃ :: cp => getint (b₃ :: b₂ :: b₁ :: b₀ :: cp)
  | .little, _ => none

abbrev Block := BitVec 32 × BitVec 32

def Block.xor (a b : Block) : Block := (a.1 ^^^ b.1, a.2 ^^^ b.2)

/-- `block64cipher`, with a key that is set: what it enciphers it deciphers. -/
structure Block64cipher where
  encipher : Block → Block
  decipher : Block → Block
  decipher_encipher : ∀ b, decipher (encipher b) = b
  encipher_decipher : ∀ b, encipher (decipher b) = b

/-- The blocks of two words that `n` blocks of memory are read as. -/
def ByteOrder.getblocks (o : ByteOrder) : ℕ → List Byte → Option (List Block × List Byte)
  | 0, b => some ([], b)
  | n + 1, b => do
      let (l, b) ← o.getword b
      let (r, b) ← o.getword b
      let (bs, b) ← o.getblocks n b
      some ((l, r) :: bs, b)

def ByteOrder.putblocks (o : ByteOrder) (bs : List Block) : List Byte :=
  bs.flatMap fun d => o.bytes d.1 ++ o.bytes d.2

namespace Block64cipher

/-- `cbc64iv::encipher_words`, from the initial vector zero on. The length is asserted to be a
multiple of eight. -/
def encipherWords (c : Block64cipher) (o : ByteOrder) (data : List Byte) : Option (List Byte) :=
  if data.length &&& 7 = 0 then do
    let (bs, _) ← o.getblocks (data.length / 8) data
    some (o.putblocks (Cbc.encipher Block.xor c.encipher (0, 0) bs))
  else none

/-- `cbc64iv::decipher_words`. -/
def decipherWords (c : Block64cipher) (o : ByteOrder) (data : List Byte) : Option (List Byte) :=
  if data.length &&& 7 = 0 then do
    let (bs, _) ← o.getblocks (data.length / 8) data
    some (o.putblocks (Cbc.decipher Block.xor c.decipher (0, 0) bs))
  else none

end Block64cipher

def log2Fhsize : ℕ := 6

def nfs3Fhsize : ℕ := 64

def nfs3errBadhandle : ℕ := 10001

def nfs3errStale : ℕ := 70

def nfs3errXdev : ℕ := 18

inductive Mode where
  | ENCODE
  | DECODE
deriving DecidableEq, Repr

/-- `fh3trans`, without hooks. -/
structure Fh3trans where
  mode : Mode
  cipher : Block64cipher
  srvno : BitVec 32
  srvnoOk : Bool
  err : ℕ

namespace Fh3trans

/-- The constructor without a server number; the number is not set. -/
def new (m : Mode) (bc : Block64cipher) (unset : BitVec 32) : Option Fh3trans :=
  if m ≠ .ENCODE then some ⟨m, bc, unset, false, 0⟩ else none

/-- The constructor with a server number. -/
def newSrvno (m : Mode) (bc : Block64cipher) (sn : BitVec 32) : Option Fh3trans :=
  if sn < (-1 : BitVec 32) >>> log2Fhsize then some ⟨m, bc, sn, true, 0⟩ else none

end Fh3trans

/-- `n & ~7`. -/
def andNot7 (n : ℕ) : ℕ := n / 8 * 8

/-- `memcpy (l + i, src, src.len)`. -/
def memcpy (l : List Byte) (i : ℕ) (src : List Byte) : List Byte :=
  l.take i ++ src ++ l.drop (i + src.length)

/-- `rpc_traverse` of a handle: what it answers, the state and the handle behind it. `heap` is
what the memory of a new handle holds. An assertion that fails answers `none`. -/
def rpcTraverse (o : ByteOrder) (heap : ℕ → Byte) (fht : Fh3trans) (fh : List Byte) :
    Option (Bool × Fh3trans × List Byte) :=
  if fht.err ≠ 0 then some (false, fht, fh)
  else
    match fht.mode with
    | .ENCODE =>
      let srvno := fht.srvno
      if fh.length > nfs3Fhsize - 4 then
        some (false, { fht with err := nfs3errBadhandle }, fh)
      else do
        let size := andNot7 (fh.length + 11)
        let res := (List.range size).map heap
        let res := memcpy res (size - 7) (List.replicate 7 0)
        let snl := BitVec.ofNat 32 fh.length ||| srvno <<< log2Fhsize
        let res := memcpy res 0 (o.bytes snl)
        let res := memcpy res 4 fh
        let res ← fht.cipher.encipherWords o res
        some (true, fht, res)
    | .DECODE =>
      if fh.length &&& 7 ≠ 0 ∨ fh.length = 0 then
        some (false, { fht with err := nfs3errStale }, fh)
      else do
        let fh ← fht.cipher.decipherWords o fh
        let (snl, _) ← o.getword fh
        let len := (snl % 64).toNat
        if fh.length ≠ andNot7 (len + 11) then
          some (false, { fht with err := nfs3errStale }, fh)
        else if (fh.drop (4 + len)).take (fh.length - len - 4) ≠
            List.replicate (fh.length - len - 4) 0 then
          some (false, { fht with err := nfs3errStale }, fh)
        else
          let fh := (fh.drop 4).take len
          let srvno := snl >>> log2Fhsize
          if fht.srvnoOk = false then
            some (true, { fht with srvnoOk := true, srvno := srvno }, fh)
          else if fht.srvno ≠ srvno then
            some (false, { fht with err := nfs3errXdev }, fh)
          else some (true, fht, fh)

variable {b fh : List Byte} {n len : ℕ}

namespace ByteOrder

variable (o : ByteOrder)

@[simp] theorem length_bytes (w : BitVec 32) : (o.bytes w).length = 4 := by cases o <;> rfl

theorem getword_bytes (w : BitVec 32) (cp : List Byte) :
    o.getword (o.bytes w ++ cp) = some (w, cp) := by
  cases o with
  | big => exact getint_htonl w cp
  | little => exact getint_htonl w cp

theorem eq_of_getword {cp : List Byte} {w : BitVec 32} (h : o.getword b = some (w, cp)) :
    b = o.bytes w ++ cp := by
  cases o with
  | big => exact eq_of_getint h
  | little =>
    match b with
    | [] | [_] | [_, _] | [_, _, _] => cases h
    | b₀ :: b₁ :: b₂ :: b₃ :: cp' =>
      have hint : getint (b₃ :: b₂ :: b₁ :: b₀ :: cp') = some (w, cp) := h
      have heq := eq_of_getint hint
      simp only [htonl, List.cons_append, List.nil_append, List.cons.injEq] at heq
      obtain ⟨h₃, h₂, h₁, h₀, hcp⟩ := heq
      simp only [bytes, htonl, List.reverse_cons, List.reverse_nil, List.nil_append,
        List.cons_append, h₀, h₁, h₂, h₃, hcp]

theorem getword_of_le (h : 4 ≤ b.length) : ∃ w cp, o.getword b = some (w, cp) := by
  match b with
  | [] | [_] | [_, _] | [_, _, _] =>
    simp only [List.length_cons, List.length_nil] at h
    omega
  | b₀ :: b₁ :: b₂ :: b₃ :: cp => cases o <;> exact ⟨_, _, rfl⟩

@[simp] theorem putblocks_cons (d : Block) (bs : List Block) :
    o.putblocks (d :: bs) = o.bytes d.1 ++ (o.bytes d.2 ++ o.putblocks bs) := by
  rw [putblocks, List.flatMap_cons, List.append_assoc]
  rfl

@[simp] theorem length_putblocks (bs : List Block) : (o.putblocks bs).length = 8 * bs.length := by
  induction bs with
  | nil => rfl
  | cons d bs ih =>
    rw [putblocks_cons, List.length_append, List.length_append, length_bytes, length_bytes, ih,
      List.length_cons]
    omega

theorem getblocks_putblocks (bs : List Block) (cp : List Byte) :
    o.getblocks bs.length (o.putblocks bs ++ cp) = some (bs, cp) := by
  induction bs with
  | nil => rfl
  | cons d bs ih =>
    rw [putblocks_cons, List.length_cons, getblocks, List.append_assoc, List.append_assoc,
      getword_bytes]
    simp only [Option.bind_eq_bind, Option.bind_some, getword_bytes, ih]

theorem exists_putblocks (h : b.length = 8 * n) : ∃ bs, bs.length = n ∧ b = o.putblocks bs := by
  induction n generalizing b with
  | zero => exact ⟨[], rfl, List.eq_nil_of_length_eq_zero h⟩
  | succ n ih =>
    obtain ⟨l, b₁, hl⟩ := o.getword_of_le (by omega : 4 ≤ b.length)
    have hb := o.eq_of_getword hl
    have hlen₁ : b₁.length = 8 * n + 4 := by
      rw [hb, List.length_append, length_bytes] at h
      omega
    obtain ⟨r, b₂, hr⟩ := o.getword_of_le (by omega : 4 ≤ b₁.length)
    have hb₁ := o.eq_of_getword hr
    have hlen₂ : b₂.length = 8 * n := by
      rw [hb₁, List.length_append, length_bytes] at hlen₁
      omega
    obtain ⟨bs, hbs, hb₂⟩ := ih hlen₂
    refine ⟨(l, r) :: bs, by rw [List.length_cons, hbs], ?_⟩
    rw [putblocks_cons, ← hb₂, ← hb₁, hb]

end ByteOrder

theorem xor_xor_self (a b : Block) : (a.xor b).xor a = b := by
  have hword : ∀ x y : BitVec 32, x ^^^ y ^^^ x = y := by
    intro x y
    rw [BitVec.xor_comm x y, BitVec.xor_assoc, BitVec.xor_self, BitVec.xor_zero]
  exact Prod.ext (hword a.1 b.1) (hword a.2 b.2)

theorem xor_self_xor (a b : Block) : a.xor (b.xor a) = b := by
  have hword : ∀ x y : BitVec 32, x ^^^ (y ^^^ x) = y := by
    intro x y
    rw [BitVec.xor_comm y x, ← BitVec.xor_assoc, BitVec.xor_self, BitVec.zero_xor]
  exact Prod.ext (hword a.1 b.1) (hword a.2 b.2)

namespace Block64cipher

variable (c : Block64cipher) (o : ByteOrder)

theorem and_seven (n : ℕ) : n &&& 7 = n % 8 := Nat.and_two_pow_sub_one_eq_mod n 3

theorem encipherWords_putblocks (bs : List Block) :
    c.encipherWords o (o.putblocks bs) =
      some (o.putblocks (Cbc.encipher Block.xor c.encipher (0, 0) bs)) := by
  have hget := o.getblocks_putblocks bs []
  rw [List.append_nil] at hget
  rw [encipherWords, o.length_putblocks, and_seven, if_pos (Nat.mul_mod_right 8 _),
    Nat.mul_div_cancel_left _ (by decide), hget]
  rfl

theorem decipherWords_putblocks (bs : List Block) :
    c.decipherWords o (o.putblocks bs) =
      some (o.putblocks (Cbc.decipher Block.xor c.decipher (0, 0) bs)) := by
  have hget := o.getblocks_putblocks bs []
  rw [List.append_nil] at hget
  rw [decipherWords, o.length_putblocks, and_seven, if_pos (Nat.mul_mod_right 8 _),
    Nat.mul_div_cancel_left _ (by decide), hget]
  rfl

theorem encipherWords_spec (h : b.length = 8 * n) :
    ∃ b', c.encipherWords o b = some b' ∧ b'.length = 8 * n ∧ c.decipherWords o b' = some b := by
  obtain ⟨bs, hbs, rfl⟩ := o.exists_putblocks h
  refine ⟨_, c.encipherWords_putblocks o bs, ?_, ?_⟩
  · rw [o.length_putblocks, Cbc.length_encipher, hbs]
  · rw [decipherWords_putblocks, Cbc.decipher_encipher c.decipher_encipher xor_xor_self]

theorem decipherWords_spec (h : b.length = 8 * n) :
    ∃ b', c.decipherWords o b = some b' ∧ b'.length = 8 * n ∧ c.encipherWords o b' = some b := by
  obtain ⟨bs, hbs, rfl⟩ := o.exists_putblocks h
  refine ⟨_, c.decipherWords_putblocks o bs, ?_, ?_⟩
  · rw [o.length_putblocks, Cbc.length_decipher, hbs]
  · rw [encipherWords_putblocks, Cbc.encipher_decipher c.encipher_decipher xor_self_xor]

end Block64cipher

/-- The length and the server number in one word. -/
def snl (len : ℕ) (srvno : BitVec 32) : BitVec 32 := BitVec.ofNat 32 len ||| srvno <<< log2Fhsize

variable {srvno sn : BitVec 32}

theorem toNat_snl (hlen : len < 64) (hsn : srvno.toNat < 2 ^ 26) :
    (snl len srvno).toNat = srvno.toNat * 64 + len := by
  have hshift : (srvno <<< log2Fhsize).toNat = 2 ^ 6 * srvno.toNat := by
    rw [log2Fhsize, BitVec.toNat_shiftLeft, Nat.shiftLeft_eq, Nat.mod_eq_of_lt (by omega),
      Nat.mul_comm]
  rw [snl, BitVec.toNat_or, hshift, BitVec.toNat_ofNat, Nat.mod_eq_of_lt (by omega), Nat.or_comm,
    ← Nat.two_pow_add_eq_or_of_lt (by omega : len < 2 ^ 6)]
  omega

theorem snl_mod (hlen : len < 64) (hsn : srvno.toNat < 2 ^ 26) :
    (snl len srvno % 64).toNat = len := by
  rw [BitVec.toNat_umod, toNat_snl hlen hsn]
  change (srvno.toNat * 64 + len) % 64 = len
  omega

theorem snl_shift (hlen : len < 64) (hsn : srvno.toNat < 2 ^ 26) :
    snl len srvno >>> log2Fhsize = srvno := by
  apply BitVec.eq_of_toNat_eq
  rw [log2Fhsize, BitVec.toNat_ushiftRight, toNat_snl hlen hsn, Nat.shiftRight_eq_div_pow]
  omega

theorem snl_eta (w : BitVec 32) : snl (w % 64).toNat (w >>> log2Fhsize) = w := by
  have hw := w.isLt
  have hmod : (w % 64).toNat = w.toNat % 64 := BitVec.toNat_umod
  have hshift : (w >>> log2Fhsize).toNat = w.toNat / 64 := by
    rw [log2Fhsize, BitVec.toNat_ushiftRight, Nat.shiftRight_eq_div_pow]
  apply BitVec.eq_of_toNat_eq
  rw [toNat_snl (by omega) (by omega), hmod, hshift]
  omega

/-- What is enciphered: the word, the handle, and zeros up to whole blocks. -/
def plain (o : ByteOrder) (w : BitVec 32) (fh : List Byte) : List Byte :=
  o.bytes w ++ (fh ++ List.replicate (andNot7 (fh.length + 11) - fh.length - 4) 0)

theorem length_plain (o : ByteOrder) (w : BitVec 32) (fh : List Byte) :
    (plain o w fh).length = andNot7 (fh.length + 11) := by
  rw [plain, List.length_append, List.length_append, List.length_replicate, o.length_bytes,
    andNot7]
  omega

/-- The seven zeros at the end, the word and the handle leave nothing of the old memory. -/
theorem memcpy_plain (o : ByteOrder) (w : BitVec 32) (fh res : List Byte)
    (hres : res.length = andNot7 (fh.length + 11)) :
    memcpy (memcpy (memcpy res (res.length - 7) (List.replicate 7 0)) 0 (o.bytes w)) 4 fh =
      plain o w fh := by
  have hsize : 8 ≤ res.length ∧ fh.length + 4 ≤ res.length ∧ res.length ≤ fh.length + 11 := by
    rw [hres, andNot7]
    omega
  have hzeros : memcpy res (res.length - 7) (List.replicate 7 0) =
      res.take (res.length - 7) ++ List.replicate 7 0 := by
    rw [memcpy, List.length_replicate, List.drop_of_length_le (by omega), List.append_nil]
  have hword : ∀ l, memcpy l 0 (o.bytes w) = o.bytes w ++ l.drop 4 := by
    intro l
    rw [memcpy, o.length_bytes, List.take_zero, List.nil_append, Nat.zero_add]
  rw [hzeros, hword, memcpy, plain, List.take_left' (o.length_bytes w), List.append_assoc,
    ← List.drop_drop, List.drop_left' (o.length_bytes w), List.drop_drop, List.drop_append,
    List.drop_of_length_le (by rw [List.length_take]; omega), List.nil_append,
    List.drop_replicate, List.length_take, ← hres]
  congr 3
  omega

theorem plain_drop (o : ByteOrder) (w : BitVec 32) (fh : List Byte) :
    (plain o w fh).drop 4 =
      fh ++ List.replicate (andNot7 (fh.length + 11) - fh.length - 4) 0 :=
  List.drop_left' (o.length_bytes w)

theorem eq_plain {o : ByteOrder} {w : BitVec 32} {cp : List Byte}
    (hw : o.getword b = some (w, cp)) (hlen : b.length = andNot7 (len + 11))
    (hzeros : (b.drop (4 + len)).take (b.length - len - 4) =
      List.replicate (b.length - len - 4) 0) :
    b = plain o w ((b.drop 4).take len) ∧ ((b.drop 4).take len).length = len := by
  have hb := o.eq_of_getword hw
  have hsize : len + 4 ≤ b.length := by
    rw [hlen, andNot7]
    omega
  have htake : ((b.drop 4).take len).length = len := by
    rw [List.length_take, List.length_drop]
    omega
  refine ⟨?_, htake⟩
  have htail : b.drop (4 + len) = List.replicate (b.length - len - 4) 0 := by
    rw [← hzeros, List.take_of_length_le]
    rw [List.length_drop]
    omega
  have hcp : b.drop 4 = cp := by rw [hb, List.drop_left' (o.length_bytes w)]
  rw [plain, htake, ← hlen, ← htail, ← List.drop_drop, List.take_append_drop, hcp, ← hb]

variable {fht : Fh3trans}

theorem rpcTraverse_encode (o : ByteOrder) (heap : ℕ → Byte)
    (herr : fht.err = 0) (hmode : fht.mode = .ENCODE) (hfh : fh.length ≤ 60) :
    rpcTraverse o heap fht fh =
      (fht.cipher.encipherWords o (plain o (snl fh.length fht.srvno) fh)).map
        fun res => (true, fht, res) := by
  have hres := memcpy_plain o (snl fh.length fht.srvno) fh
    ((List.range (andNot7 (fh.length + 11))).map heap)
    (by rw [List.length_map, List.length_range])
  rw [List.length_map, List.length_range] at hres
  have hfits : ¬fh.length > nfs3Fhsize - 4 := by
    rw [nfs3Fhsize]
    omega
  rw [rpcTraverse, if_neg (not_not_intro herr), hmode]
  have hsnl : BitVec.ofNat 32 fh.length ||| fht.srvno <<< log2Fhsize = snl fh.length fht.srvno :=
    rfl
  simp only [if_neg hfits, hsnl, hres]
  cases fht.cipher.encipherWords o (plain o (snl fh.length fht.srvno) fh) <;> rfl

theorem rpcTraverse_encode_long (o : ByteOrder) (heap : ℕ → Byte)
    (herr : fht.err = 0) (hmode : fht.mode = .ENCODE) (hfh : 60 < fh.length) :
    rpcTraverse o heap fht fh = some (false, { fht with err := nfs3errBadhandle }, fh) := by
  have hlong : fh.length > nfs3Fhsize - 4 := hfh
  rw [rpcTraverse, if_neg (not_not_intro herr), hmode]
  simp only [if_pos hlong]

theorem rpcTraverse_decode (o : ByteOrder) (heap : ℕ → Byte)
    (herr : fht.err = 0) (hmode : fht.mode = .DECODE)
    (hfh : fh.length < 64) (hsn : sn.toNat < 2 ^ 26) (hb : b.length = andNot7 (fh.length + 11))
    (hplain : fht.cipher.decipherWords o b = some (plain o (snl fh.length sn) fh)) :
    rpcTraverse o heap fht b =
      if fht.srvnoOk = false then some (true, { fht with srvnoOk := true, srvno := sn }, fh)
      else if fht.srvno ≠ sn then some (false, { fht with err := nfs3errXdev }, fh)
      else some (true, fht, fh) := by
  have hblocks : ¬(b.length &&& 7 ≠ 0 ∨ b.length = 0) := by
    rw [Block64cipher.and_seven, hb, andNot7]
    omega
  have hword : o.getword (plain o (snl fh.length sn) fh) =
      some (snl fh.length sn, (plain o (snl fh.length sn) fh).drop 4) := by
    rw [plain_drop]
    exact o.getword_bytes _ _
  have hzeros : ((plain o (snl fh.length sn) fh).drop (4 + fh.length)).take
      ((plain o (snl fh.length sn) fh).length - fh.length - 4) =
      List.replicate ((plain o (snl fh.length sn) fh).length - fh.length - 4) 0 := by
    rw [← List.drop_drop, plain_drop, List.drop_left, length_plain, List.take_replicate,
      Nat.min_self]
  have hhandle : ((plain o (snl fh.length sn) fh).drop 4).take fh.length = fh := by
    rw [plain_drop, List.take_left]
  rw [rpcTraverse, if_neg (not_not_intro herr), hmode]
  simp only [if_neg hblocks, hplain, Option.bind_eq_bind, Option.bind_some, hword,
    snl_mod hfh hsn, snl_shift hfh hsn, length_plain, ne_eq, not_true_eq_false, if_false]
  rw [length_plain] at hzeros
  simp only [hzeros, hhandle, not_true_eq_false, if_false]

theorem decipherWords_of_accepted {o : ByteOrder} {heap : ℕ → Byte} {fht' : Fh3trans}
    (hmode : fht.mode = .DECODE) (h : rpcTraverse o heap fht b = some (true, fht', fh)) :
    b.length &&& 7 = 0 ∧ fh.length < 64 ∧ fht'.cipher = fht.cipher ∧
      fht.cipher.decipherWords o b = some (plain o (snl fh.length fht'.srvno) fh) := by
  simp only [rpcTraverse, hmode, Option.bind_eq_bind] at h
  split at h
  · cases h
  split at h
  · cases h
  next hblocks =>
  have hseven : b.length &&& 7 = 0 := by
    rw [not_or, not_not] at hblocks
    exact hblocks.1
  obtain ⟨p, hp, h⟩ := Option.bind_eq_some_iff.mp h
  obtain ⟨⟨w, cp⟩, hw, h⟩ := Option.bind_eq_some_iff.mp h
  dsimp only at h
  split at h
  · cases h
  next hlen =>
  split at h
  · cases h
  next hzeros =>
  rw [ne_eq, not_not] at hlen hzeros
  obtain ⟨hplain, hfh⟩ := eq_plain hw hlen hzeros
  have hlt : (w % 64).toNat < 64 := by
    rw [BitVec.toNat_umod]
    exact Nat.mod_lt _ (by decide)
  rw [← hfh] at hlt
  split at h
  · cases h
    refine ⟨hseven, hlt, rfl, ?_⟩
    rw [hp, hfh, snl_eta, ← hplain]
  split at h
  · cases h
  next hsrvno =>
    rw [ne_eq, not_not] at hsrvno
    cases h
    refine ⟨hseven, hlt, rfl, ?_⟩
    rw [hp, hfh, hsrvno, snl_eta, ← hplain]

theorem srvno_lt {m : Mode} {c : Block64cipher} (h : Fh3trans.newSrvno m c sn = some fht) :
    sn.toNat < 2 ^ 26 ∧ fht = ⟨m, c, sn, true, 0⟩ := by
  rw [Fh3trans.newSrvno] at h
  split at h
  · next hsn =>
    have hmax : sn.toNat < 67108863 := hsn
    cases h
    exact ⟨by omega, rfl⟩
  · cases h

theorem rpcTraverse_roundtrip (o : ByteOrder) (heap heap' : ℕ → Byte) {c : Block64cipher}
    {enc : Fh3trans} (henc : Fh3trans.newSrvno .ENCODE c sn = some enc) (hfh : fh.length ≤ 60) :
    ∃ res, rpcTraverse o heap enc fh = some (true, enc, res) ∧ 8 ∣ res.length ∧
      res.length ≤ 64 ∧
      (∀ unset dec, Fh3trans.new .DECODE c unset = some dec →
        rpcTraverse o heap' dec res =
          some (true, { dec with srvnoOk := true, srvno := sn }, fh)) ∧
      ∀ dec, Fh3trans.newSrvno .DECODE c sn = some dec →
        rpcTraverse o heap' dec res = some (true, dec, fh) := by
  obtain ⟨hsn, rfl⟩ := srvno_lt henc
  have hplain : (plain o (snl fh.length sn) fh).length = 8 * ((fh.length + 11) / 8) := by
    rw [length_plain, andNot7, Nat.mul_comm]
  obtain ⟨res, hres, hlen, hdec⟩ := c.encipherWords_spec o hplain
  have hsize : res.length = andNot7 (fh.length + 11) := by rw [hlen, andNot7, Nat.mul_comm]
  refine ⟨res, ?_, ⟨_, hlen⟩, by omega, ?_, ?_⟩
  · rw [rpcTraverse_encode o heap rfl rfl hfh, hres]
    rfl
  · intro unset dec hnew
    cases hnew
    rw [rpcTraverse_decode o heap' rfl rfl (by omega) hsn hsize hdec, if_pos rfl]
  · intro dec hnew
    obtain ⟨-, rfl⟩ := srvno_lt hnew
    rw [rpcTraverse_decode o heap' rfl rfl (by omega) hsn hsize hdec, if_neg Bool.noConfusion,
      if_neg (not_not_intro rfl)]

theorem rpcTraverse_canonical (o : ByteOrder) (heap heap' : ℕ → Byte) {dec dec' : Fh3trans}
    (hmode : dec.mode = .DECODE) (hb : b.length ≤ 64)
    (h : rpcTraverse o heap dec b = some (true, dec', fh)) :
    rpcTraverse o heap' ⟨.ENCODE, dec.cipher, dec'.srvno, true, 0⟩ fh =
      some (true, ⟨.ENCODE, dec.cipher, dec'.srvno, true, 0⟩, b) := by
  obtain ⟨hseven, -, -, hdec⟩ := decipherWords_of_accepted hmode h
  rw [Block64cipher.and_seven] at hseven
  have hblocks : b.length = 8 * (b.length / 8) := by omega
  obtain ⟨p, hp, hlen, henc⟩ := dec.cipher.decipherWords_spec o hblocks
  rw [hdec, Option.some.injEq] at hp
  have hfh : fh.length ≤ 60 := by
    rw [← hp, length_plain, andNot7] at hlen
    omega
  rw [rpcTraverse_encode o heap' rfl rfl hfh, hp, henc]
  rfl

/-- Encoding a handle of at most sixty bytes gives whole blocks, at most sixty-four bytes, that
decode to the handle and the number. A longer handle is refused and stays as it is. Of at most
sixty-four bytes only encodings are accepted. -/
theorem fh_transform (o : ByteOrder) (heap heap' : ℕ → Byte) (c : Block64cipher) :
    (∀ sn enc, Fh3trans.newSrvno .ENCODE c sn = some enc → ∀ fh,
      (fh.length ≤ 60 →
        ∃ res, rpcTraverse o heap enc fh = some (true, enc, res) ∧ 8 ∣ res.length ∧
          res.length ≤ 64 ∧
          (∀ unset dec, Fh3trans.new .DECODE c unset = some dec →
            rpcTraverse o heap' dec res =
              some (true, { dec with srvnoOk := true, srvno := sn }, fh)) ∧
          ∀ dec, Fh3trans.newSrvno .DECODE c sn = some dec →
            rpcTraverse o heap' dec res = some (true, dec, fh)) ∧
      (60 < fh.length →
        rpcTraverse o heap enc fh = some (false, { enc with err := nfs3errBadhandle }, fh))) ∧
    ∀ dec : Fh3trans, dec.mode = .DECODE → dec.cipher = c → ∀ b : List Byte, b.length ≤ 64 →
      ∀ dec' fh, rpcTraverse o heap dec b = some (true, dec', fh) →
        rpcTraverse o heap' ⟨.ENCODE, c, dec'.srvno, true, 0⟩ fh =
          some (true, ⟨.ENCODE, c, dec'.srvno, true, 0⟩, b) := by
  refine ⟨fun sn enc henc fh => ⟨rpcTraverse_roundtrip o heap heap' henc, ?_⟩, ?_⟩
  · obtain ⟨-, rfl⟩ := srvno_lt henc
    exact rpcTraverse_encode_long o heap rfl rfl
  · rintro dec hmode rfl b hb dec' fh h
    exact rpcTraverse_canonical o heap heap' hmode hb h

/-- A cipher that swaps the halves of a block. -/
def swapCipher : Block64cipher := ⟨Prod.swap, Prod.swap, fun _ => rfl, fun _ => rfl⟩

theorem fh_transform_swap :
    ∃ res, rpcTraverse .little (fun _ => 0xaa) ⟨.ENCODE, swapCipher, 5, true, 0⟩ [1, 2, 3] =
        some (true, ⟨.ENCODE, swapCipher, 5, true, 0⟩, res) ∧
      rpcTraverse .little (fun _ => 0xbb) ⟨.DECODE, swapCipher, 0, false, 0⟩ res =
        some (true, ⟨.DECODE, swapCipher, 5, true, 0⟩, [1, 2, 3]) := by
  have hspec := ((fh_transform .little (fun _ => 0xaa) (fun _ => 0xbb) swapCipher).1 5
    ⟨.ENCODE, swapCipher, 5, true, 0⟩ rfl [1, 2, 3]).1 (by decide)
  obtain ⟨res, henc, -, -, hdec, -⟩ := hspec
  exact ⟨res, henc, hdec 0 ⟨.DECODE, swapCipher, 0, false, 0⟩ rfl⟩

end Sfslite.Sfsmisc.Nfstrans
