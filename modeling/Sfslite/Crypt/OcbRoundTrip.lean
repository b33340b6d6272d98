import Mathlib.Data.LawfulXor.Basic
import Sfslite.Crypt.Ocb

/-!
Decryption undoes encryption, in place or not. Both work through the text with the same running
offsets; the last block, which may be a part of one or empty, has a pad of its own.
-/

namespace Sfslite.Async

variable {mem : Mem} {a p m n : ℕ} {bs bs' : List (BitVec 8)}

@[simp] theorem length_read (mem : Mem) (a n : ℕ) : (mem.read a n).length = n := by
  simp [Mem.read]

theorem read_write (mem : Mem) (a : ℕ) (bs : List (BitVec 8)) :
    (mem.write a bs).read a bs.length = bs := Suio.read_write

theorem read_add (mem : Mem) (p m n : ℕ) :
    mem.read p (m + n) = mem.read p m ++ mem.read (p + m) n := by
  unfold Mem.read
  rw [← List.map_append, List.range'_append_1]

theorem read_write_apart (h : p + n ≤ a ∨ a + bs.length ≤ p) :
    (mem.write a bs).read p n = mem.read p n := by
  apply List.map_congr_left
  intro x hx
  rw [List.mem_range'_1] at hx
  apply Suio.write_of_not_mem
  rw [List.mem_range'_1]
  omega

theorem write_append (mem : Mem) (a : ℕ) (bs bs' : List (BitVec 8)) :
    mem.write a (bs ++ bs') = (mem.write a bs).write (a + bs.length) bs' := by
  funext x
  unfold Mem.write
  by_cases hx : a + bs.length ≤ x
  · have hax : a ≤ x := by omega
    have hsub : x - a - bs.length = x - (a + bs.length) := by omega
    rw [if_pos hx, if_pos hax, List.getElem?_append_right (by omega), hsub, if_pos hax,
      List.getElem?_eq_none (by omega : bs.length ≤ x - a), Option.getD_none]
  · rw [if_neg hx]
    by_cases hax : a ≤ x
    · rw [if_pos hax, if_pos hax, List.getElem?_append_left (by omega)]
    · rw [if_neg hax, if_neg hax]

theorem write_nil (mem : Mem) (a : ℕ) : mem.write a [] = mem := by
  funext x
  simp [Mem.write]

end Sfslite.Async

namespace Sfslite.Crypt

open Sfslite.Arpc (Byte)
open Sfslite.Async
open Sfslite.Lib

namespace Blk

@[simp] theorem length_c (b : Blk) : b.c.length = nc := by simp [c]

theorem bytesVal_c (b : Blk) : bytesVal b.c = b.toNat := by
  have hlt : b.toNat < (2 ^ 8) ^ nc := b.isLt
  rw [bytesVal, c, List.reverse_reverse, Words.val_ofNat, Nat.mod_eq_of_lt hlt]

theorem ofBytes_c (b : Blk) : ofBytes b.c = b := by
  rw [ofBytes, bytesVal_c, BitVec.ofNat_toNat, BitVec.setWidth_eq]

theorem c_ofBytes {bs : List Byte} (h : bs.length = nc) : (ofBytes bs).c = bs := by
  have hlt := bytesVal_lt bs
  have hpow : 256 ^ nc = 2 ^ 128 := rfl
  have hlen : nc = bs.reverse.length := by rw [List.length_reverse, h]
  rw [h, hpow] at hlt
  rw [ofBytes, c, BitVec.toNat_ofNat, Nat.mod_eq_of_lt hlt, bytesVal]
  conv_lhs => rw [hlen, Words.ofNat_val]
  rw [List.reverse_reverse]

end Blk

namespace Ocb

/-- The first `m` blocks of some bytes. -/
def chunks : ℕ → List Byte → List Blk
  | 0, _ => []
  | m + 1, bs => .ofBytes (bs.take Blk.nc) :: chunks m (bs.drop Blk.nc)

def bytesOf (blks : List Blk) : List Byte := blks.flatMap Blk.c

def sum (blks : List Blk) : Blk := blks.foldr (· ^^^ ·) 0#128

theorem bytesOf_cons (b : Blk) (blks : List Blk) : bytesOf (b :: blks) = b.c ++ bytesOf blks := rfl

theorem sum_cons (b : Blk) (blks : List Blk) : sum (b :: blks) = b ^^^ sum blks := rfl

/-- The running offset: `R` and the L values of the first blocks. -/
def offset (o : Ocb) (r : Blk) : ℕ → Blk
  | 0 => r
  | j + 1 => offset o r j ^^^ (o.lFfs (BitVec.ofNat 64 (j + 1))).getD 0#128

/-- Whole blocks under the offsets from `j + 1` on. -/
def sealBlocks (k : Aes) (Δ : ℕ → Blk) : ℕ → List Blk → List Blk
  | _, [] => []
  | j, p :: ps => (k.encipher (p ^^^ Δ (j + 1)) ^^^ Δ (j + 1)) :: sealBlocks k Δ (j + 1) ps

def openBlocks (k : Aes) (Δ : ℕ → Blk) : ℕ → List Blk → List Blk
  | _, [] => []
  | j, p :: ps => (k.decipher (p ^^^ Δ (j + 1)) ^^^ Δ (j + 1)) :: openBlocks k Δ (j + 1) ps

/-- Every index into the table that the first `n` blocks use lies inside it. -/
def Covers (o : Ocb) (n : ℕ) : Prop :=
  ∀ j, 0 < j → j ≤ n → ∃ li, o.lFfs (BitVec.ofNat 64 j) = some li

/-- Two texts of a length that are the same buffer or have no byte in common. -/
def InPlaceOrApart (ctext ptext len : ℕ) : Prop :=
  ctext = ptext ∨ ctext + len ≤ ptext ∨ ptext + len ≤ ctext

section

variable {k : Aes} {Δ : ℕ → Blk} {o : Ocb} {r : Blk} {j m n : ℕ} {bs : List Byte} {st : St}

theorem length_sealBlocks (j : ℕ) (ps : List Blk) : (sealBlocks k Δ j ps).length = ps.length := by
  induction ps generalizing j with
  | nil => rfl
  | cons p ps ih => rw [sealBlocks, List.length_cons, ih, List.length_cons]

theorem length_openBlocks (j : ℕ) (ps : List Blk) : (openBlocks k Δ j ps).length = ps.length := by
  induction ps generalizing j with
  | nil => rfl
  | cons p ps ih => rw [openBlocks, List.length_cons, ih, List.length_cons]

theorem openBlocks_sealBlocks (hk : ∀ x, k.decipher (k.encipher x) = x) (j : ℕ) (ps : List Blk) :
    openBlocks k Δ j (sealBlocks k Δ j ps) = ps := by
  induction ps generalizing j with
  | nil => rfl
  | cons p ps ih => rw [sealBlocks, openBlocks, xor_cancel_right, hk, xor_cancel_right, ih]

@[simp] theorem length_chunks (m : ℕ) (bs : List Byte) : (chunks m bs).length = m := by
  induction m generalizing bs with
  | zero => rfl
  | succ m ih => rw [chunks, List.length_cons, ih]

@[simp] theorem length_bytesOf (blks : List Blk) :
    (bytesOf blks).length = Blk.nc * blks.length := by
  induction blks with
  | nil => rfl
  | cons b blks ih =>
    rw [bytesOf_cons, List.length_append, Blk.length_c, List.length_cons, ih, Nat.mul_succ,
      Nat.add_comm]

theorem chunks_bytesOf (blks : List Blk) (rest : List Byte) :
    chunks blks.length (bytesOf blks ++ rest) = blks := by
  induction blks with
  | nil => rfl
  | cons b blks ih =>
    rw [List.length_cons, chunks, bytesOf_cons, List.append_assoc, List.take_left' (Blk.length_c b),
      List.drop_left' (Blk.length_c b), Blk.ofBytes_c, ih]

theorem bytesOf_chunks {m : ℕ} {bs : List Byte} (h : Blk.nc * m ≤ bs.length) :
    bytesOf (chunks m bs) = bs.take (Blk.nc * m) := by
  induction m generalizing bs with
  | zero => rfl
  | succ m ih =>
    rw [Nat.mul_succ] at h
    have hhead : (bs.take Blk.nc).length = Blk.nc := List.length_take_of_le (by omega)
    have htail := @ih (bs.drop Blk.nc) (by rw [List.length_drop]; omega)
    rw [chunks, bytesOf_cons, Blk.c_ofBytes hhead, htail, Nat.mul_succ, Nat.add_comm, List.take_add]

theorem Covers.lFfs (h : Covers o n) (hj : j + 1 ≤ n) (r : Blk) :
    ∃ li, o.lFfs (BitVec.ofNat 64 (j + 1)) = some li ∧ offset o r (j + 1) = offset o r j ^^^ li := by
  obtain ⟨li, hli⟩ := h (j + 1) (Nat.succ_pos j) hj
  refine ⟨li, hli, ?_⟩
  rw [offset, hli, Option.getD_some]

theorem ofNat_succ (j : ℕ) : BitVec.ofNat 64 (j + 1) + 1 = BitVec.ofNat 64 (j + 1 + 1) := by
  rw [BitVec.ofNat_add (j + 1) 1]
  rfl

theorem read_block {mem : Mem} {a len : ℕ} (h : mem.read a (Blk.nc + len) = bs) :
    Blk.get mem a = .ofBytes (bs.take Blk.nc) ∧ mem.read (a + Blk.nc) len = bs.drop Blk.nc := by
  have hlen : (mem.read a Blk.nc).length = Blk.nc := length_read _ _ _
  rw [← h, read_add, List.take_left' hlen, List.drop_left' hlen]
  exact ⟨rfl, rfl⟩

theorem InPlaceOrApart.next {ctext ptext len : ℕ} (h : InPlaceOrApart ctext ptext (Blk.nc + len))
    (mem : Mem) {b : List Byte} (hb : b.length = Blk.nc) :
    InPlaceOrApart (ctext + Blk.nc) (ptext + Blk.nc) len ∧
      (mem.write ctext b).read (ptext + Blk.nc) len = mem.read (ptext + Blk.nc) len := by
  unfold InPlaceOrApart at h ⊢
  refine ⟨by omega, ?_⟩
  by_cases hlen : len = 0
  · rw [hlen]
    rfl
  · apply read_write_apart
    omega

theorem behind_block (a m : ℕ) : a + Blk.nc + Blk.nc * m = a + Blk.nc * (m + 1) := by
  rw [Nat.mul_succ]
  omega

theorem encryptLoop_spec (hcovers : Covers o (j + m)) (hn : n ≤ Blk.nc) (hm : m ≠ 0 → n ≠ 0)
    (hlen : st.len = Blk.nc * m + n) (hr : st.r = offset o r j)
    (hi : st.i = BitVec.ofNat 64 (j + 1)) (hapart : InPlaceOrApart st.ctext st.ptext st.len)
    (hbs : st.mem.read st.ptext st.len = bs) :
    encryptLoop o st = some {
      mem := st.mem.write st.ctext (bytesOf (sealBlocks o.k (offset o r) j (chunks m bs)))
      ctext := st.ctext + Blk.nc * m
      ptext := st.ptext + Blk.nc * m
      len := n
      r := offset o r (j + m)
      s := st.s ^^^ sum (chunks m bs)
      i := BitVec.ofNat 64 (j + m + 1) } := by
  induction m generalizing st j bs with
  | zero =>
    have hdone : ¬ Blk.nc < st.len := by omega
    rw [encryptLoop, dif_neg hdone]
    obtain ⟨mem, ctext, ptext, len, rr, s, i⟩ := st
    dsimp only at hlen hr hi
    have hlen' : len = n := by omega
    subst hlen' hr hi
    simp [chunks, sealBlocks, bytesOf, sum, write_nil]
  | succ m ih =>
    rw [Nat.mul_succ] at hlen
    have hmore : Blk.nc < st.len := by
      have hpos := hm (Nat.succ_ne_zero m)
      omega
    obtain ⟨li, hli, hoff⟩ := hcovers.lFfs (by omega : j + 1 ≤ j + (m + 1)) r
    obtain ⟨len', hlen'⟩ : ∃ len', st.len = Blk.nc + len' := ⟨st.len - Blk.nc, by omega⟩
    rw [hlen'] at hapart
    rw [hlen'] at hbs
    obtain ⟨hget, hdrop⟩ := read_block hbs
    obtain ⟨p, hp⟩ : ∃ p, p = Blk.ofBytes (bs.take Blk.nc) := ⟨_, rfl⟩
    obtain ⟨cb, hcb⟩ : ∃ cb, cb = o.k.encipher (p ^^^ offset o r (j + 1)) ^^^ offset o r (j + 1) :=
      ⟨_, rfl⟩
    obtain ⟨hapart', hkept⟩ := hapart.next st.mem (Blk.length_c cb)
    rw [encryptLoop, dif_pos hmore, hi, hli]
    dsimp only
    rw [hr, ← hoff, hget, ← hp, ← hcb, ofNat_succ, hlen', Nat.add_sub_cancel_left]
    have hstep := @ih (j + 1) (bs.drop Blk.nc)
      ⟨st.mem.write st.ctext cb.c, st.ctext + Blk.nc, st.ptext + Blk.nc, len',
        offset o r (j + 1), st.s ^^^ p, BitVec.ofNat 64 (j + 1 + 1)⟩
      (by rwa [Nat.add_right_comm]) (fun _ => hm (Nat.succ_ne_zero m)) (by dsimp only; omega) rfl rfl
      hapart' (hkept.trans hdrop)
    dsimp only at hstep
    unfold Blk.put
    rw [hstep, chunks, sealBlocks, ← hp, ← hcb, sum_cons, bytesOf_cons, write_append,
      Blk.length_c, BitVec.xor_assoc]
    have hjm : j + 1 + m = j + (m + 1) := by omega
    rw [hjm, behind_block, behind_block]

theorem decryptLoop_spec (hcovers : Covers o (j + m)) (hn : n ≤ Blk.nc) (hm : m ≠ 0 → n ≠ 0)
    (hlen : st.len = Blk.nc * m + n) (hr : st.r = offset o r j)
    (hi : st.i = BitVec.ofNat 64 (j + 1)) (hapart : InPlaceOrApart st.ptext st.ctext st.len)
    (hbs : st.mem.read st.ctext st.len = bs) :
    decryptLoop o st = some {
      mem := st.mem.write st.ptext (bytesOf (openBlocks o.k (offset o r) j (chunks m bs)))
      ctext := st.ctext + Blk.nc * m
      ptext := st.ptext + Blk.nc * m
      len := n
      r := offset o r (j + m)
      s := st.s ^^^ sum (openBlocks o.k (offset o r) j (chunks m bs))
      i := BitVec.ofNat 64 (j + m + 1) } := by
  induction m generalizing st j bs with
  | zero =>
    have hdone : ¬ Blk.nc < st.len := by omega
    rw [decryptLoop, dif_neg hdone]
    obtain ⟨mem, ctext, ptext, len, rr, s, i⟩ := st
    dsimp only at hlen hr hi
    have hlen' : len = n := by omega
    subst hlen' hr hi
    simp [chunks, openBlocks, bytesOf, sum, write_nil]
  | succ m ih =>
    rw [Nat.mul_succ] at hlen
    have hmore : Blk.nc < st.len := by
      have hpos := hm (Nat.succ_ne_zero m)
      omega
    obtain ⟨li, hli, hoff⟩ := hcovers.lFfs (by omega : j + 1 ≤ j + (m + 1)) r
    obtain ⟨len', hlen'⟩ : ∃ len', st.len = Blk.nc + len' := ⟨st.len - Blk.nc, by omega⟩
    rw [hlen'] at hapart
    rw [hlen'] at hbs
    obtain ⟨hget, hdrop⟩ := read_block hbs
    obtain ⟨p, hp⟩ : ∃ p, p = Blk.ofBytes (bs.take Blk.nc) := ⟨_, rfl⟩
    obtain ⟨cb, hcb⟩ : ∃ cb, cb = o.k.decipher (p ^^^ offset o r (j + 1)) ^^^ offset o r (j + 1) :=
      ⟨_, rfl⟩
    obtain ⟨hapart', hkept⟩ := hapart.next st.mem (Blk.length_c cb)
    rw [decryptLoop, dif_pos hmore, hi, hli]
    dsimp only
    rw [hr, ← hoff, hget, ← hp, ← hcb, ofNat_succ, hlen', Nat.add_sub_cancel_left]
    have hstep := @ih (j + 1) (bs.drop Blk.nc)
      ⟨st.mem.write st.ptext cb.c, st.ctext + Blk.nc, st.ptext + Blk.nc, len',
        offset o r (j + 1), st.s ^^^ cb, BitVec.ofNat 64 (j + 1 + 1)⟩
      (by rwa [Nat.add_right_comm]) (fun _ => hm (Nat.succ_ne_zero m)) (by dsimp only; omega) rfl rfl
      hapart' (hkept.trans hdrop)
    dsimp only at hstep
    unfold Blk.put
    rw [hstep, chunks, openBlocks, ← hp, ← hcb, sum_cons, bytesOf_cons, write_append,
      Blk.length_c, BitVec.xor_assoc]
    have hjm : j + 1 + m = j + (m + 1) := by omega
    rw [hjm, behind_block, behind_block]

end

section

variable {ctext ptext : ℕ} {ts : List Byte}

theorem InPlaceOrApart.tail {len : ℕ} (h : InPlaceOrApart ctext ptext (len + 1)) (mem : Mem)
    (x : Byte) : InPlaceOrApart (ctext + 1) (ptext + 1) len ∧
      (mem.write ctext [x]).read (ptext + 1) len = mem.read (ptext + 1) len := by
  unfold InPlaceOrApart at h ⊢
  refine ⟨by omega, ?_⟩
  by_cases hlen : len = 0
  · rw [hlen]
    rfl
  · apply read_write_apart
    rw [List.length_singleton]
    omega

theorem read_succ (mem : Mem) (a n : ℕ) : mem.read a (n + 1) = mem a :: mem.read (a + 1) n := by
  rw [Mem.read, List.range'_succ, List.map_cons]
  rfl

theorem write_cons (mem : Mem) (a : ℕ) (x : Byte) (xs : List Byte) :
    mem.write a (x :: xs) = (mem.write a [x]).write (a + 1) xs :=
  write_append mem a [x] xs

theorem encryptBytes_spec (mem : Mem) (h : InPlaceOrApart ctext ptext ts.length) :
    encryptBytes ts mem ctext ptext =
      (mem.write ctext (List.zipWith (· ^^^ ·) ts (mem.read ptext ts.length)),
        List.zipWith (· ^^^ ·) ts (mem.read ptext ts.length)) := by
  induction ts generalizing mem ctext ptext with
  | nil => rw [encryptBytes, List.zipWith_nil_left, write_nil]
  | cons t ts ih =>
    rw [List.length_cons] at h
    obtain ⟨hapart, hkept⟩ := h.tail mem (t ^^^ mem ptext)
    rw [encryptBytes, ih _ hapart, hkept, List.length_cons, read_succ, List.zipWith_cons_cons,
      ← write_cons]

theorem decryptBytes_spec (mem : Mem) (h : InPlaceOrApart ptext ctext ts.length) :
    decryptBytes ts mem ptext ctext =
      (mem.write ptext (List.zipWith (· ^^^ ·) ts (mem.read ctext ts.length)),
        mem.read ctext ts.length) := by
  induction ts generalizing mem ctext ptext with
  | nil =>
    rw [decryptBytes, List.zipWith_nil_left, write_nil]
    rfl
  | cons t ts ih =>
    rw [List.length_cons] at h
    obtain ⟨hapart, hkept⟩ := h.tail mem (t ^^^ mem ctext)
    rw [decryptBytes, ih _ hapart, hkept, List.length_cons, read_succ, List.zipWith_cons_cons,
      ← write_cons]

theorem zipWith_xor_cancel {pad xs : List Byte} (h : xs.length ≤ pad.length) :
    List.zipWith (· ^^^ ·) pad (List.zipWith (· ^^^ ·) pad xs) = xs := by
  induction pad generalizing xs with
  | nil =>
    rw [List.length_nil, Nat.le_zero, List.length_eq_zero_iff] at h
    rw [h]
    rfl
  | cons t ts ih =>
    cases xs with
    | nil => rfl
    | cons x xs =>
      rw [List.zipWith_cons_cons, List.zipWith_cons_cons, ih (Nat.le_of_succ_le_succ h),
        ← BitVec.xor_assoc, BitVec.xor_self, BitVec.zero_xor]

end

section

variable {b : Blk} {j n len : ℕ} {mms : BitVec 64} {k : Aes}

theorem getElem?_lshifts (h : j ≤ n) : (lshifts n b)[j]? = some (Blk.lshift^[j] b) := by
  induction n generalizing j b with
  | zero =>
    rw [Nat.le_zero] at h
    subst h
    rfl
  | succ n ih =>
    cases j with
    | zero => rfl
    | succ j => rw [lshifts, List.getElem?_cons_succ, ih (by omega), Function.iterate_succ_apply]

theorem lAt_setkey : (setkey mms k).lAt (-1) = some (k.encipher 0#128).rshift ∧
    ∀ j ≤ calcLSize mms, (setkey mms k).lAt j = some (Blk.lshift^[j] (k.encipher 0#128)) := by
  refine ⟨rfl, ?_⟩
  intro j hj
  have hidx : ((j : ℤ) + 1).toNat = j + 1 := by omega
  rw [lAt, if_pos (by omega), hidx]
  exact getElem?_lshifts hj

def fullBlocks (len : ℕ) : ℕ := (len - 1) / Blk.nc

theorem size_le_calcLSize (hlen : len ≤ mms.toNat) (hj : j ≤ fullBlocks len + 1) (hf : n ≤ 63)
    (hbit : 2 ^ n ≤ j) : n ≤ calcLSize mms := by
  have hnc : Blk.nc = 16 := rfl
  unfold fullBlocks at hj
  rw [hnc] at hj
  unfold calcLSize
  by_cases hzero : mms = 0
  · subst hzero
    have hr : uint (log2c64 0) = 2 ^ 32 - 1 := by decide
    dsimp only
    rw [hr, if_pos (by decide)]
    omega
  · obtain ⟨e, he⟩ := Int.eq_ofNat_of_zero_le (log2c64_nonneg hzero)
    have hle := (log2c64_le_iff hzero e).mp (Int.le_of_eq he)
    have he64 : log2c64 mms ≤ (64 : ℕ) := (log2c64_le_iff hzero 64).mpr (by omega)
    have hr : uint (log2c64 mms) = e := by
      rw [he]
      exact uint_natCast (by omega)
    dsimp only
    rw [hr]
    split
    · rename_i hbig
      have hpow : 2 ^ e = 16 * 2 ^ (e - 4) := by
        have hsplit : e = 4 + (e - 4) := by omega
        conv_lhs => rw [hsplit, pow_add]
        rfl
      apply (Nat.pow_le_pow_iff_right (by decide : 1 < 2)).mp
      have hpos := Nat.two_pow_pos (e - 4)
      omega
    · rename_i hsmall
      have hpow : 2 ^ e ≤ 2 ^ 4 := Nat.pow_le_pow_right (by decide) (by omega)
      by_contra hn
      have hn2 : 2 ^ 2 ≤ 2 ^ n := Nat.pow_le_pow_right (by decide) (by omega)
      omega

theorem lFfs_setkey (hlen : len ≤ mms.toNat) (hj0 : 0 < j) (hj : j ≤ fullBlocks len + 1) :
    ffs64 (BitVec.ofNat 64 j) - 1 ≤ calcLSize mms ∧
      (setkey mms k).lFfs (BitVec.ofNat 64 j) =
        some (Blk.lshift^[ffs64 (BitVec.ofNat 64 j) - 1] (k.encipher 0#128)) := by
  have hmms : mms.toNat < 2 ^ 64 := mms.isLt
  have hjlt : j < 2 ^ 64 := by
    have hnc : Blk.nc = 16 := rfl
    unfold fullBlocks at hj
    rw [hnc] at hj
    omega
  have hnat : (BitVec.ofNat 64 j).toNat = j := by
    rw [BitVec.toNat_ofNat, Nat.mod_eq_of_lt hjlt]
  have hne : BitVec.ofNat 64 j ≠ 0 := by
    intro hzero
    rw [hzero] at hnat
    simp at hnat
    omega
  obtain ⟨hpos, hle, hbit⟩ := getLsbD_ffs64 hne
  have hpow : 2 ^ (ffs64 (BitVec.ofNat 64 j) - 1) ≤ j := by
    apply Nat.ge_two_pow_of_testBit
    rwa [← BitVec.testBit_toNat, hnat] at hbit
  have hsize := size_le_calcLSize hlen hj (by omega) hpow
  have hidx : uint ((ffs64 (BitVec.ofNat 64 j) : ℤ) - 1) = ffs64 (BitVec.ofNat 64 j) - 1 := by
    unfold uint
    omega
  refine ⟨hsize, ?_⟩
  rw [lFfs, hidx]
  exact lAt_setkey.2 _ hsize

theorem covers_setkey (hlen : len ≤ mms.toNat) : Covers (setkey mms k) (fullBlocks len + 1) :=
  fun _ hj0 hj => ⟨_, (lFfs_setkey hlen hj0 hj).2⟩

end

section

variable {mms nonce : BitVec 64} {k : Aes} {mem : Mem} {ctext ptext len : ℕ} {bs cs : List Byte}

def lastOf (bs : List Byte) : List Byte := bs.drop (Blk.nc * fullBlocks bs.length)

def padOf (o : Ocb) (r : Blk) (len : ℕ) : Blk :=
  lastPad o.k ((o.lAt (-1)).getD 0#128) (offset o r (fullBlocks len + 1))
    (len - Blk.nc * fullBlocks len)

/-- A text under its offsets. -/
def sealText (o : Ocb) (r : Blk) (bs : List Byte) : List Byte :=
  bytesOf (sealBlocks o.k (offset o r) 0 (chunks (fullBlocks bs.length) bs)) ++
    List.zipWith (· ^^^ ·) (padOf o r bs.length).c (lastOf bs)

def openText (o : Ocb) (r : Blk) (cs : List Byte) : List Byte :=
  bytesOf (openBlocks o.k (offset o r) 0 (chunks (fullBlocks cs.length) cs)) ++
    List.zipWith (· ^^^ ·) (padOf o r cs.length).c (lastOf cs)

/-- The tag, from the whole blocks in clear and the last bytes of the encrypted text. -/
def tagOf (o : Ocb) (r : Blk) (len : ℕ) (ps : List Blk) (last : List Byte) : Blk :=
  o.k.encipher (.ofBytes (xorBytes (sum ps ^^^ padOf o r len).c last) ^^^
    offset o r (fullBlocks len + 1))

theorem fullBlocks_spec (len : ℕ) : Blk.nc * fullBlocks len ≤ len ∧
    len - Blk.nc * fullBlocks len ≤ Blk.nc ∧
    (fullBlocks len ≠ 0 → len - Blk.nc * fullBlocks len ≠ 0) := by
  have hnc : Blk.nc = 16 := rfl
  unfold fullBlocks
  rw [hnc]
  omega

/-- `R` of an object. -/
def startOf (k : Aes) (nonce : BitVec 64) : Blk :=
  k.encipher (nonce.setWidth 128 ^^^ k.encipher 0#128)

theorem start_setkey : (setkey mms k).start nonce = some (startOf k nonce) := by
  have hzero := (@lAt_setkey mms k).2 0 (Nat.zero_le _)
  rw [Nat.cast_zero, Function.iterate_zero_apply] at hzero
  rw [start, hzero]
  rfl

theorem length_lastOf (bs : List Byte) :
    (lastOf bs).length = bs.length - Blk.nc * fullBlocks bs.length := List.length_drop

theorem InPlaceOrApart.rest {m n : ℕ} (h : InPlaceOrApart ctext ptext (m + n)) (mem : Mem)
    {b : List Byte} (hb : b.length = m) :
    InPlaceOrApart (ctext + m) (ptext + m) n ∧
      (mem.write ctext b).read (ptext + m) n = mem.read (ptext + m) n := by
  unfold InPlaceOrApart at h ⊢
  refine ⟨by omega, ?_⟩
  by_cases hn : n = 0
  · rw [hn]
    rfl
  · apply read_write_apart
    omega

theorem zipWith_take_left {pad xs : List Byte} :
    List.zipWith (· ^^^ ·) (pad.take xs.length) xs = List.zipWith (· ^^^ ·) pad xs := by
  have htake := @List.take_zipWith _ _ _ (· ^^^ ·) pad xs xs.length
  rw [List.take_length, List.take_of_length_le (by rw [List.length_zipWith]; omega)] at htake
  exact htake.symm

/-- How both routines take a text apart: `m` whole blocks and `n` bytes of the last one, which is
still to be read after the whole blocks are written. -/
theorem text_parts {dst src : ℕ} (hlen : len ≤ mms.toNat) (hapart : InPlaceOrApart dst src len)
    (hbs : mem.read src len = bs) (r : Blk) :
    ∃ m n li, m = fullBlocks len ∧ len = Blk.nc * m + n ∧ n ≤ Blk.nc ∧ (m ≠ 0 → n ≠ 0) ∧
      bs.length = len ∧ (lastOf bs).length = n ∧ Covers (setkey mms k) (0 + m) ∧
      (setkey mms k).lFfs (BitVec.ofNat 64 (m + 1)) = some li ∧
      offset (setkey mms k) r (m + 1) = offset (setkey mms k) r m ^^^ li ∧
      lastPad k (k.encipher 0#128).rshift (offset (setkey mms k) r (m + 1)) n =
        padOf (setkey mms k) r len ∧
      ∀ out : List Byte, out.length = Blk.nc * m →
        InPlaceOrApart (dst + Blk.nc * m) (src + Blk.nc * m) n ∧
          (mem.write dst out).read (src + Blk.nc * m) n = lastOf bs := by
  obtain ⟨hle, hn, hm0⟩ := fullBlocks_spec len
  have hcovers := @covers_setkey len mms k hlen
  have hblen : bs.length = len := by rw [← hbs, length_read]
  obtain ⟨m, hm⟩ : ∃ m, m = fullBlocks len := ⟨_, rfl⟩
  rw [← hm] at hle hn hm0 hcovers
  obtain ⟨n, hlenmn⟩ : ∃ n, len = Blk.nc * m + n := ⟨len - Blk.nc * m, by omega⟩
  have hsub : len - Blk.nc * m = n := by omega
  rw [hsub] at hn hm0
  obtain ⟨li, hli, hoff⟩ := hcovers.lFfs (Nat.le_refl (m + 1)) r
  refine ⟨m, n, li, hm, hlenmn, hn, hm0, hblen, ?_, ?_, hli, hoff, ?_, ?_⟩
  · rw [length_lastOf, hblen, ← hm, hsub]
  · exact fun j hj hjm => hcovers j hj (by omega)
  · rw [padOf, ← hm, hsub, lAt_setkey.1, Option.getD_some]
    rfl
  · intro out hout
    rw [hlenmn] at hapart
    obtain ⟨hapart', hkept⟩ := hapart.rest mem hout
    refine ⟨hapart', ?_⟩
    rw [hkept, lastOf, hblen, ← hm, ← hbs, hlenmn, read_add, List.drop_left' (length_read _ _ _)]

theorem encrypt_spec (hlen : len ≤ mms.toNat) (hapart : InPlaceOrApart ctext ptext len)
    (hbs : mem.read ptext len = bs) :
    encrypt (setkey mms k) mem ctext nonce ptext len =
      some (mem.write ctext (sealText (setkey mms k) (startOf k nonce) bs),
        tagOf (setkey mms k) (startOf k nonce) len (chunks (fullBlocks len) bs)
          (List.zipWith (· ^^^ ·) (padOf (setkey mms k) (startOf k nonce) len).c (lastOf bs))) := by
  obtain ⟨m, n, li, hm, hmn, hn, hm0, hblen, hlast, hcovers, hli, hoff, hpad, hrest⟩ :=
    @text_parts mms k mem len bs ctext ptext hlen hapart hbs (startOf k nonce)
  have hloop := @encryptLoop_spec (setkey mms k) (startOf k nonce) 0 m n bs
    ⟨mem, ctext, ptext, len, startOf k nonce, 0#128, 1#64⟩ hcovers hn hm0 hmn rfl rfl hapart hbs
  obtain ⟨out, hout⟩ : ∃ out, out =
      bytesOf (sealBlocks k (offset (setkey mms k) (startOf k nonce)) 0 (chunks m bs)) := ⟨_, rfl⟩
  have houtlen : out.length = Blk.nc * m := by
    rw [hout, length_bytesOf, length_sealBlocks, length_chunks]
  obtain ⟨hapart', hread⟩ := hrest out houtlen
  have htake : ((padOf (setkey mms k) (startOf k nonce) len).c.take n).length = n :=
    List.length_take_of_le (by rw [Blk.length_c]; exact hn)
  rw [← htake] at hapart'
  have hbytes := encryptBytes_spec (mem.write ctext out) hapart'
  rw [htake, hread] at hbytes
  conv at hbytes => rhs; rw [← hlast, zipWith_take_left]
  have hk : (setkey mms k).k = k := rfl
  unfold encrypt
  rw [start_setkey]
  simp only [Option.bind_eq_bind, Option.bind_some, hloop, Nat.zero_add, hli, lAt_setkey.1,
    BitVec.zero_xor, ← hoff, hk, hpad, ← hout, hbytes, pure]
  rw [sealText, write_append, hblen, ← hm, hk, ← hout, houtlen, tagOf, ← hm, hk]

theorem decrypt_spec (hlen : len ≤ mms.toNat) (hapart : InPlaceOrApart ptext ctext len)
    (hcs : mem.read ctext len = cs) (tag : Blk) :
    decrypt (setkey mms k) mem ptext nonce ctext tag len =
      some (decide (tag = tagOf (setkey mms k) (startOf k nonce) len
          (openBlocks k (offset (setkey mms k) (startOf k nonce)) 0 (chunks (fullBlocks len) cs))
          (lastOf cs)),
        mem.write ptext (openText (setkey mms k) (startOf k nonce) cs)) := by
  obtain ⟨m, n, li, hm, hmn, hn, hm0, hclen, hlast, hcovers, hli, hoff, hpad, hrest⟩ :=
    @text_parts mms k mem len cs ptext ctext hlen hapart hcs (startOf k nonce)
  have hloop := @decryptLoop_spec (setkey mms k) (startOf k nonce) 0 m n cs
    ⟨mem, ctext, ptext, len, startOf k nonce, 0#128, 1#64⟩ hcovers hn hm0 hmn rfl rfl hapart hcs
  obtain ⟨out, hout⟩ : ∃ out, out =
      bytesOf (openBlocks k (offset (setkey mms k) (startOf k nonce)) 0 (chunks m cs)) := ⟨_, rfl⟩
  have houtlen : out.length = Blk.nc * m := by
    rw [hout, length_bytesOf, length_openBlocks, length_chunks]
  obtain ⟨hapart', hread⟩ := hrest out houtlen
  have htake : ((padOf (setkey mms k) (startOf k nonce) len).c.take n).length = n :=
    List.length_take_of_le (by rw [Blk.length_c]; exact hn)
  rw [← htake] at hapart'
  have hbytes := decryptBytes_spec (mem.write ptext out) hapart'
  rw [htake, hread] at hbytes
  conv at hbytes => rhs; rw [← hlast, zipWith_take_left]
  have hk : (setkey mms k).k = k := rfl
  unfold decrypt
  rw [start_setkey]
  simp only [Option.bind_eq_bind, Option.bind_some, hloop, Nat.zero_add, hli, lAt_setkey.1,
    BitVec.zero_xor, ← hoff, hk, hpad, ← hout, hbytes, pure]
  rw [openText, write_append, hclen, ← hm, hk, ← hout, houtlen, tagOf, ← hm, hk]

theorem length_sealText (o : Ocb) (r : Blk) (bs : List Byte) :
    (sealText o r bs).length = bs.length := by
  obtain ⟨hle, hn, -⟩ := fullBlocks_spec bs.length
  rw [sealText, List.length_append, length_bytesOf, length_sealBlocks, length_chunks,
    List.length_zipWith, Blk.length_c, length_lastOf]
  omega

theorem sealText_parts (o : Ocb) (r : Blk) (bs : List Byte) :
    chunks (fullBlocks bs.length) (sealText o r bs) =
        sealBlocks o.k (offset o r) 0 (chunks (fullBlocks bs.length) bs) ∧
      lastOf (sealText o r bs) = List.zipWith (· ^^^ ·) (padOf o r bs.length).c (lastOf bs) := by
  have hlen : (sealBlocks o.k (offset o r) 0 (chunks (fullBlocks bs.length) bs)).length =
      fullBlocks bs.length := by
    rw [length_sealBlocks, length_chunks]
  constructor
  · have hchunks := chunks_bytesOf (sealBlocks o.k (offset o r) 0 (chunks (fullBlocks bs.length) bs))
      (List.zipWith (· ^^^ ·) (padOf o r bs.length).c (lastOf bs))
    rwa [hlen] at hchunks
  · rw [lastOf, length_sealText, sealText]
    apply List.drop_left'
    rw [length_bytesOf, hlen]

theorem openText_sealText (hk : ∀ x, k.decipher (k.encipher x) = x) (r : Blk) (bs : List Byte) :
    openText (setkey mms k) r (sealText (setkey mms k) r bs) = bs := by
  obtain ⟨hchunks, hlast⟩ := sealText_parts (setkey mms k) r bs
  obtain ⟨hle, hn, -⟩ := fullBlocks_spec bs.length
  have hopen := @openBlocks_sealBlocks k (offset (setkey mms k) r) hk 0
    (chunks (fullBlocks bs.length) bs)
  have hpad : (lastOf bs).length ≤ (padOf (setkey mms k) r bs.length).c.length := by
    rw [length_lastOf, Blk.length_c]
    exact hn
  have hkk : (setkey mms k).k = k := rfl
  rw [openText, length_sealText, hchunks, hlast, hkk, hopen, zipWith_xor_cancel hpad,
    bytesOf_chunks hle, lastOf, List.take_append_drop]

/-- Whatever memory the encrypted text is moved to, decryption there accepts the tag and gives the
text back. Nothing but the text's own buffer is written. -/
theorem ocb_round_trip (hk : ∀ x, k.decipher (k.encipher x) = x) (hlen : len ≤ mms.toNat)
    (hapart : InPlaceOrApart ctext ptext len) :
    ∃ mem₁ tag, encrypt (setkey mms k) mem ctext nonce ptext len = some (mem₁, tag) ∧
      (∀ a, a < ctext ∨ ctext + len ≤ a → mem₁ a = mem a) ∧
      ∀ mem₂ ptext₂ ctext₂, mem₂.read ctext₂ len = mem₁.read ctext len →
        InPlaceOrApart ptext₂ ctext₂ len →
        ∃ mem₃, decrypt (setkey mms k) mem₂ ptext₂ nonce ctext₂ tag len = some (true, mem₃) ∧
          mem₃.read ptext₂ len = mem.read ptext len ∧
          ∀ a, a < ptext₂ ∨ ptext₂ + len ≤ a → mem₃ a = mem₂ a := by
  obtain ⟨bs, hbs⟩ : ∃ bs, mem.read ptext len = bs := ⟨_, rfl⟩
  have hblen : bs.length = len := by rw [← hbs, length_read]
  have hframe : ∀ (m : Mem) (base : ℕ) (out : List Byte), out.length = len →
      ∀ a, a < base ∨ base + len ≤ a → m.write base out a = m a := by
    intro m base out hout a ha
    apply Suio.write_of_not_mem
    rw [List.mem_range'_1]
    omega
  have hseal := length_sealText (setkey mms k) (startOf k nonce) bs
  rw [hblen] at hseal
  refine ⟨_, _, encrypt_spec hlen hapart hbs, hframe _ _ _ hseal, ?_⟩
  intro mem₂ ptext₂ ctext₂ hmoved hapart₂
  have hsame := read_write mem ctext (sealText (setkey mms k) (startOf k nonce) bs)
  rw [hseal] at hsame
  rw [hsame] at hmoved
  obtain ⟨hchunks, hlast⟩ := sealText_parts (setkey mms k) (startOf k nonce) bs
  rw [hblen] at hchunks hlast
  have hopen := @openText_sealText mms k hk (startOf k nonce) bs
  have hblocks := @openBlocks_sealBlocks k (offset (setkey mms k) (startOf k nonce)) hk 0
    (chunks (fullBlocks len) bs)
  have hkk : (setkey mms k).k = k := rfl
  refine ⟨mem₂.write ptext₂ bs, ?_, ?_, hframe _ _ _ hblen⟩
  · rw [decrypt_spec hlen hapart₂ hmoved, hopen, hchunks, hlast, hkk, hblocks, decide_eq_true rfl]
  · have hread := read_write mem₂ ptext₂ bs
    rw [hblen] at hread
    rw [hread, hbs]

/-- In place, with a part of a third block. -/
theorem ocb_round_trip_in_place : ∃ mem₁ tag mem₃,
    encrypt (setkey 48 ⟨(· ^^^ 1#128), (· ^^^ 1#128)⟩) (fun _ => 5) 0 7 0 33 = some (mem₁, tag) ∧
    decrypt (setkey 48 ⟨(· ^^^ 1#128), (· ^^^ 1#128)⟩) mem₁ 0 7 0 tag 33 = some (true, mem₃) ∧
    mem₃.read 0 33 = Mem.read (fun _ => 5) 0 33 := by
  have hk : ∀ x : Blk, x ^^^ 1#128 ^^^ 1#128 = x := fun x => xor_cancel_right x 1#128
  obtain ⟨mem₁, tag, henc, -, hdec⟩ := @ocb_round_trip 48 7 ⟨(· ^^^ 1#128), (· ^^^ 1#128)⟩
    (fun _ => 5) 0 0 33 hk (by decide) (Or.inl rfl)
  obtain ⟨mem₃, hok, hread, -⟩ := hdec mem₁ 0 0 rfl (Or.inl rfl)
  exact ⟨mem₁, tag, mem₃, henc, hok, hread⟩

end

end Ocb

end Sfslite.Crypt
