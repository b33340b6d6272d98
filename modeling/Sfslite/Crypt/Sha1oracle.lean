import Sfslite.Crypt.Sha1

/-!
`sha1oracle`: one hash state for each run of output bytes, all of them over the same message behind
the number of the state and the index. The comment of the source says what comes out.
-/

namespace Sfslite.Crypt

open Sfslite.Arpc (Byte)
open Sfslite.Lib

/-- `htonq`, as the bytes of the result. -/
def htonq (n : ℕ) : List Byte :=
  (Words.ofNat 8 n).reverse

@[simp]
theorem length_htonq (n : ℕ) : (htonq n).length = 8 := by
  simp [htonq]

open Sha1 (Compress)

/-- `hashused`, `nctx`, `idx` and `resultsize` of a `sha1oracle`; `state` and `firstblock`. -/
structure Sha1oracle (C : Compress) where
  hashused : ℕ
  nctx : ℕ
  idx : BitVec 64
  resultsize : ℕ
  state : List C.State
  firstblock : Bool

namespace Sha1oracle

variable {C : Compress}

/-- The constructor, with `reset`. Nothing can be allocated for a size from `2 ^ 64` on. -/
def new (C : Compress) (nbytes : ℕ) (idx : BitVec 64) (used : ℕ) : Sha1oracle C :=
  let nctx := (nbytes + used - 1) % 2 ^ 64 / used
  { hashused := used
    nctx := nctx
    idx := idx
    resultsize := nbytes
    state := List.replicate nctx C.newstate
    firstblock := true }

/-- `consume`. The first block is the buffer, whose first eight bytes are written over. -/
def consume (o : Sha1oracle C) (p : List Byte) : Sha1oracle C :=
  if o.firstblock then
    { o with
      state := o.state.mapIdx fun i s => C.transform s (htonq i ++ p.drop 8)
      firstblock := false }
  else { o with state := o.state.map fun s => C.transform s p }

/-- The states when `reset`, the calls of `update` with `parts` and `finish` are done; the buffer
held `garbage` at first. -/
def finished (o : Sha1oracle C) (garbage : Vector Byte Mdblock.blocksize)
    (parts : List (List Byte)) : Sha1oracle C :=
  let m := (Mdblock.init garbage).update (List.replicate 8 0 ++ htonq o.idx.toNat)
  ((m.updatev parts).finishBe.consumed).foldl consume o

/-- The loop of `final`: where `p` and `sp` stand behind it, and what `_p` points to. -/
def finalLoop (o : Sha1oracle C) : ℕ → (p sp : ℕ) → List Byte → Option (ℕ × ℕ × List Byte)
  | 0, _, _, _ => none
  | fuel + 1, p, sp, out =>
    if p + Sha1.hashsize ≤ o.resultsize then do
      let s ← o.state[sp]?
      finalLoop o fuel (p + o.hashused) (sp + 1) (overwrite 0 out p (C.state2bytes s))
    else some (p, sp, out)

/-- What `final` writes behind its loop. -/
def finalTail (o : Sha1oracle C) (p sp : ℕ) (out : List Byte) : Option (List Byte) := do
  let (p, sp, out) ←
    if p + o.hashused ≤ o.resultsize then do
      let s ← o.state[sp]?
      let buf := C.state2bytes s
      some (p + o.hashused, sp + 1, overwrite 0 out p (buf.take o.hashused))
    else some (p, sp, out)
  if p < o.resultsize then do
    let s ← o.state[sp]?
    let buf := C.state2bytes s
    some (overwrite 0 out p (buf.take (o.resultsize - p)))
  else some out

/-- `final` behind `finish`, into a buffer of `resultsize` bytes; `none` where a state is read
that does not exist. -/
def final (o : Sha1oracle C) (out : List Byte) : Option (List Byte) := do
  let (p, sp, out) ← finalLoop o (o.resultsize + 1) 0 0 out
  finalTail o p sp out

/-- What comes out of an oracle that is fed `parts` and writes into `out`. -/
def output (C : Compress) (nbytes : ℕ) (idx : BitVec 64) (used : ℕ)
    (garbage : Vector Byte Mdblock.blocksize) (parts : List (List Byte)) (out : List Byte) :
    Option (List Byte) :=
  ((new C nbytes idx used).finished garbage parts).final out

/-- The first `used` bytes of the hash of `<i> || <index> || M`. -/
def piece (C : Compress) (used : ℕ) (idx : BitVec 64) (msg : List Byte) (i : ℕ) : List Byte :=
  (C.hash (htonq i ++ htonq idx.toNat ++ msg)).take used

/-- The first `nbytes` bytes of the pieces one behind the other. -/
def documented (C : Compress) (nbytes : ℕ) (idx : BitVec 64) (used : ℕ) (msg : List Byte) :
    List Byte :=
  ((List.range nbytes).flatMap (piece C used idx msg)).take nbytes

/-- How often the loop of `final` runs. -/
def rounds (nbytes used : ℕ) : ℕ :=
  if nbytes < Sha1.hashsize then 0 else (nbytes - Sha1.hashsize) / used + 1

/-- The number of states does not wrap, and what the loop leaves fits two pieces. -/
def Fits (nbytes used : ℕ) : Prop :=
  nbytes + used ≤ 2 ^ 64 ∧ nbytes ≤ (rounds nbytes used + 2) * used

instance (nbytes used : ℕ) : Decidable (Fits nbytes used) :=
  inferInstanceAs (Decidable (_ ∧ _))

theorem foldl_consume (o : Sha1oracle C) (blocks : List (List Byte)) (h : o.firstblock = false) :
    (blocks.foldl consume o) =
      { o with state := o.state.map fun s => blocks.foldl C.transform s } := by
  induction blocks generalizing o with
  | nil => simp
  | cons b blocks ih =>
    have hstep : o.consume b = { o with state := o.state.map fun s => C.transform s b } := by
      rw [consume, if_neg (by simp [h])]
    rw [List.foldl_cons, hstep, ih { o with state := o.state.map fun s => C.transform s b } h]
    simp [List.map_map, Function.comp_def]

theorem padded_append (a b msg : List Byte) (hlen : a.length = b.length) :
    ∃ rest, Mdblock.padded 0x80 (a ++ msg) (Mdblock.lengthBe (a ++ msg)) = a ++ rest ∧
      Mdblock.padded 0x80 (b ++ msg) (Mdblock.lengthBe (b ++ msg)) = b ++ rest := by
  refine ⟨msg ++ 0x80 :: List.replicate ((2 * Mdblock.blocksize - 9 -
    (b ++ msg).length % Mdblock.blocksize) % Mdblock.blocksize) 0 ++
    Mdblock.lengthBe (b ++ msg), ?_, ?_⟩
  · have hsame : (a ++ msg).length = (b ++ msg).length := by
      simp [hlen]
    rw [Mdblock.padded, hsame, Mdblock.lengthBe, Mdblock.lengthLe, hsame]
    simp [Mdblock.lengthBe, Mdblock.lengthLe]
  · simp [Mdblock.padded]

theorem blocksize_le_padded (msg : List Byte) :
    Mdblock.blocksize ≤ (Mdblock.padded 0x80 msg (Mdblock.lengthBe msg)).length := by
  have hsize : Mdblock.blocksize = 64 := rfl
  have hlen : (Mdblock.lengthBe msg).length = 8 := by
    simp [Mdblock.lengthBe, Mdblock.lengthLe]
  simp only [Mdblock.padded, List.length_append, List.length_cons, List.length_replicate, hlen,
    hsize]
  omega

theorem blocks_append {n : ℕ} (hn : 0 < n) (b l : List Byte) (hb : b.length = n) :
    Blocks.blocks n (b ++ l) = b :: Blocks.blocks n l :=
  (((Blocks.cut_blocks hn l).cons hb).eq_blocks).symm

theorem blocks_padded (a msg : List Byte) (ha : a.length = 8) :
    ∃ first rest,
      Blocks.blocks Mdblock.blocksize (Mdblock.padded 0x80 (a ++ msg)
        (Mdblock.lengthBe (a ++ msg))) = (a ++ first) :: rest ∧
      ∀ b : List Byte, b.length = 8 →
        Blocks.blocks Mdblock.blocksize (Mdblock.padded 0x80 (b ++ msg)
          (Mdblock.lengthBe (b ++ msg))) = (b ++ first) :: rest := by
  have hsize : Mdblock.blocksize = 64 := rfl
  obtain ⟨tail, htail, -⟩ := padded_append a a msg rfl
  have hlong := blocksize_le_padded (a ++ msg)
  rw [htail, List.length_append, ha, hsize] at hlong
  have hcut : ∀ b : List Byte, b.length = 8 →
      Blocks.blocks Mdblock.blocksize (b ++ tail) =
        (b ++ tail.take 56) :: Blocks.blocks Mdblock.blocksize (tail.drop 56) := by
    intro b hb
    have hlen : (b ++ tail.take 56).length = Mdblock.blocksize := by
      rw [List.length_append, List.length_take, hb, hsize]
      omega
    have happ := blocks_append (by decide) (b ++ tail.take 56) (tail.drop 56) hlen
    rwa [List.append_assoc, List.take_append_drop] at happ
  refine ⟨tail.take 56, Blocks.blocks Mdblock.blocksize (tail.drop 56), ?_, fun b hb => ?_⟩
  · rw [htail, hcut a ha]
  · obtain ⟨tail', htail', hb'⟩ := padded_append a b msg (ha.trans hb.symm)
    have hsame : tail' = tail := List.append_cancel_left (htail'.symm.trans htail)
    rw [hb', hsame, hcut b hb]

/-- State `i` is the one of the hash of `<i> || <index> || M`. -/
theorem state_finished (nbytes used : ℕ) (idx : BitVec 64)
    (garbage : Vector Byte Mdblock.blocksize) (parts : List (List Byte)) (i : ℕ) :
    (((new C nbytes idx used).finished garbage parts).state[i]?).map C.state2bytes =
      if i < (nbytes + used - 1) % 2 ^ 64 / used then
        some (C.hash (htonq i ++ htonq idx.toNat ++ parts.flatten)) else none := by
  have hholds := Mdblock.holds_updatev ((Mdblock.holds_init garbage).update
    (List.replicate 8 0 ++ htonq idx.toNat)) parts
  have hconsumed := hholds.finish 0x80 (by simp [Mdblock.lengthBe, Mdblock.lengthLe])
    (fun _ => Mdblock.lengthBe_eq)
  rw [List.nil_append, List.append_assoc] at hconsumed
  obtain ⟨first, rest, hblocks, hother⟩ :=
    blocks_padded (List.replicate 8 0) (htonq idx.toNat ++ parts.flatten) (by simp)
  rw [hblocks] at hconsumed
  have hfinished : ((new C nbytes idx used).finished garbage parts).state =
      (List.replicate ((nbytes + used - 1) % 2 ^ 64 / used) C.newstate).mapIdx fun i s =>
        rest.foldl C.transform (C.transform s (htonq i ++ first)) := by
    have hrun : (new C nbytes idx used).finished garbage parts =
        ((List.replicate 8 0 ++ first) :: rest).foldl consume (new C nbytes idx used) := by
      rw [← hconsumed]
      rfl
    rw [hrun, List.foldl_cons, foldl_consume _ _ rfl]
    apply List.ext_getElem?
    intro k
    simp [consume, new, Function.comp_def]
  rw [hfinished, List.getElem?_mapIdx, List.getElem?_replicate]
  have hhash : C.hash (htonq i ++ htonq idx.toNat ++ parts.flatten) =
      C.state2bytes (rest.foldl C.transform (C.transform C.newstate (htonq i ++ first))) := by
    rw [Compress.hash, List.append_assoc, hother _ (length_htonq i)]
    rfl
  rw [hhash]
  split_ifs
  · rfl
  · rfl

section Output

variable {o : Sha1oracle C} {H : ℕ → List Byte} {p sp : ℕ} {out : List Byte}

theorem overwrite_take {v : List Byte} {n k : ℕ} (hlen : out.length = n) (hfit : p + k ≤ n)
    (hk : k ≤ v.length) (hv : p + v.length ≤ n) :
    (overwrite 0 out p v).length = n ∧
      (overwrite 0 out p v).take (p + k) = out.take p ++ v.take k := by
  have hzeros : p - out.length = 0 := by
    omega
  cases v with
  | nil =>
    have hzero : k = 0 := Nat.le_zero.mp hk
    subst hzero
    simp [hlen]
  | cons b v =>
    simp only [overwrite, List.isEmpty_cons, Bool.false_eq_true, if_false, hzeros,
      List.replicate_zero, List.append_nil]
    have htake : (out.take p).length = p := by
      rw [List.length_take]
      omega
    refine ⟨?_, ?_⟩
    · simp only [List.length_append, List.length_drop, htake]
      omega
    · rw [List.append_assoc, List.take_append, htake, Nat.add_sub_cancel_left,
        List.take_of_length_le (by rw [htake]; omega), List.take_append_of_le_length hk]

def prefixOf (H : ℕ → List Byte) (used k : ℕ) : List Byte :=
  (List.range k).flatMap fun i => (H i).take used

theorem prefixOf_succ (used k : ℕ) :
    prefixOf H used (k + 1) = prefixOf H used k ++ (H k).take used := by
  simp [prefixOf, List.range_succ]

theorem length_prefixOf (hH : ∀ i, (H i).length = Sha1.hashsize) {used : ℕ}
    (hused : used ≤ Sha1.hashsize) (k : ℕ) : (prefixOf H used k).length = k * used := by
  induction k with
  | zero => simp [prefixOf]
  | succ k ih =>
    rw [prefixOf_succ, List.length_append, ih, List.length_take, hH, Nat.min_eq_left hused,
      Nat.succ_mul]

theorem take_prefixOf (hH : ∀ i, (H i).length = Sha1.hashsize) {used : ℕ}
    (hused : used ≤ Sha1.hashsize)
    {j k : ℕ} (hjk : j ≤ k) : (prefixOf H used k).take (j * used) = prefixOf H used j := by
  induction k, hjk using Nat.le_induction with
  | base => rw [List.take_of_length_le (Nat.le_of_eq (length_prefixOf hH hused j))]
  | succ k hjk ih =>
    rw [prefixOf_succ, List.take_append_of_le_length, ih]
    rw [length_prefixOf hH hused]
    exact Nat.mul_le_mul_right used hjk

theorem finalLoop_eq (hstate : ∀ i, i < o.nctx → (o.state[i]?).map C.state2bytes = some (H i))
    (hpos : 0 < o.hashused) (hused : o.hashused ≤ Sha1.hashsize)
    (hctx : o.resultsize ≤ o.nctx * o.hashused) (fuel : ℕ) (hlen : out.length = o.resultsize)
    (hle : sp * o.hashused ≤ o.resultsize)
    (htake : out.take (sp * o.hashused) = prefixOf H o.hashused sp)
    (hfuel : o.resultsize < sp * o.hashused + fuel) :
    ∃ k out', finalLoop o fuel (sp * o.hashused) sp out = some (k * o.hashused, k, out') ∧
      sp ≤ k ∧ out'.length = o.resultsize ∧ k * o.hashused ≤ o.resultsize ∧
      o.resultsize < k * o.hashused + Sha1.hashsize ∧
      (k = sp ∨ (k - 1) * o.hashused + Sha1.hashsize ≤ o.resultsize) ∧
      out'.take (k * o.hashused) = prefixOf H o.hashused k := by
  induction fuel generalizing sp out with
  | zero => omega
  | succ fuel ih =>
    rw [finalLoop]
    split_ifs with hmore
    · have hsp : sp < o.nctx := by
        have hlt : sp * o.hashused < o.nctx * o.hashused := by
          unfold Sha1.hashsize at hmore
          omega
        exact Nat.lt_of_mul_lt_mul_right hlt
      obtain ⟨st, hst, hbytes⟩ := Option.map_eq_some_iff.mp (hstate sp hsp)
      have hstlen := C.length_state2bytes st
      obtain ⟨hlen', htake'⟩ := overwrite_take (k := o.hashused) hlen (by omega)
        (by omega) (show sp * o.hashused + (C.state2bytes st).length ≤ o.resultsize by omega)
      rw [hbytes] at hlen' hstlen
      rw [htake, hbytes, ← prefixOf_succ, ← Nat.succ_mul] at htake'
      rw [hst, Option.bind_eq_bind, Option.bind_some, hbytes, ← Nat.succ_mul]
      have hsucc : sp.succ * o.hashused = sp * o.hashused + o.hashused := Nat.succ_mul _ _
      obtain ⟨k, out', hloop, hspk, hlast, hkle, hend, hback, hpre⟩ :=
        ih hlen' (by omega) htake' (by omega)
      refine ⟨k, out', hloop, by omega, hlast, hkle, hend, Or.inr ?_, hpre⟩
      rcases hback with rfl | hback
      · rwa [Nat.succ_sub_one]
      · exact hback
    · exact ⟨sp, out, rfl, le_refl _, hlen, hle, by omega, Or.inl rfl, htake⟩

theorem rounds_eq {n used k : ℕ} (hend : n < k * used + Sha1.hashsize)
    (hback : k = 0 ∨ (k - 1) * used + Sha1.hashsize ≤ n) : k = rounds n used := by
  unfold rounds
  split_ifs with hlt
  · rcases hback with hback | hback
    · exact hback
    · omega
  · rcases hback with rfl | hback
    · omega
    · cases k with
      | zero => omega
      | succ k =>
        rw [Nat.succ_sub_one] at hback
        rw [Nat.succ_mul] at hend
        have hdiv : (n - Sha1.hashsize) / used = k :=
          Nat.div_eq_of_lt_le (by omega) (by rw [Nat.succ_mul]; omega)
        rw [hdiv]

/-- The piece that `final` writes last; what is left may be longer than a piece. -/
def lastPiece (nbytes used : ℕ) : ℕ :=
  if (rounds nbytes used + 1) * used ≤ nbytes then rounds nbytes used + 1
  else rounds nbytes used

theorem lastPiece_mul_le {n used : ℕ} (hle : rounds n used * used ≤ n) :
    lastPiece n used * used ≤ n := by
  unfold lastPiece
  split_ifs with hmore
  · exact hmore
  · exact hle

theorem rounds_mul_le {n used : ℕ} (hused : used ≤ Sha1.hashsize) : rounds n used * used ≤ n := by
  unfold rounds
  split_ifs with hlt
  · omega
  · have hdiv := Nat.div_mul_le_self (n - Sha1.hashsize) used
    rw [Nat.succ_mul]
    omega

theorem lt_rounds_mul {n used : ℕ} (hpos : 0 < used) :
    n < rounds n used * used + Sha1.hashsize := by
  unfold rounds
  split_ifs with hlt
  · omega
  · have hdiv := Nat.lt_div_mul_add (a := n - Sha1.hashsize) hpos
    rw [Nat.succ_mul]
    omega

theorem final_eq (hH : ∀ i, (H i).length = Sha1.hashsize)
    (hstate : ∀ i, i < o.nctx → (o.state[i]?).map C.state2bytes = some (H i))
    (hpos : 0 < o.hashused) (hused : o.hashused ≤ Sha1.hashsize)
    (hctx : o.resultsize ≤ o.nctx * o.hashused) (hlen : out.length = o.resultsize) :
    final o out = some (prefixOf H o.hashused (lastPiece o.resultsize o.hashused) ++
      (H (lastPiece o.resultsize o.hashused)).take
        (o.resultsize - lastPiece o.resultsize o.hashused * o.hashused)) := by
  have hread : ∀ i, i * o.hashused < o.resultsize →
      ∃ st, o.state[i]? = some st ∧ C.state2bytes st = H i := by
    intro i hi
    have hlt : i < o.nctx := Nat.lt_of_mul_lt_mul_right (Nat.lt_of_lt_of_le hi hctx)
    exact Option.map_eq_some_iff.mp (hstate i hlt)
  obtain ⟨k, out', hloop, -, hlen', hkle, hend, hback, htake⟩ :=
    finalLoop_eq hstate hpos hused hctx (o.resultsize + 1) hlen
      (Nat.zero_mul _ ▸ Nat.zero_le _) (by simp [prefixOf]) (by omega)
  rw [Nat.zero_mul] at hloop
  have hk := rounds_eq hend hback
  have hsucc : (k + 1) * o.hashused = k * o.hashused + o.hashused := Nat.succ_mul _ _
  have hlast : ∀ q out', out'.length = o.resultsize → q * o.hashused < o.resultsize →
      o.resultsize < q * o.hashused + Sha1.hashsize →
      out'.take (q * o.hashused) = prefixOf H o.hashused q →
      overwrite 0 out' (q * o.hashused) ((H q).take (o.resultsize - q * o.hashused)) =
        prefixOf H o.hashused q ++ (H q).take (o.resultsize - q * o.hashused) := by
    intro q out' hlen' hlt hend htake
    have hpiece : ((H q).take (o.resultsize - q * o.hashused)).length =
        o.resultsize - q * o.hashused := by
      rw [List.length_take, hH]
      omega
    obtain ⟨hlen'', htake''⟩ := overwrite_take (k := o.resultsize - q * o.hashused) hlen'
      (p := q * o.hashused) (by omega) (Nat.le_of_eq hpiece.symm) (by omega)
    rw [htake, List.take_take, Nat.min_self, Nat.add_sub_cancel' (by omega),
      List.take_of_length_le (Nat.le_of_eq hlen'')] at htake''
    exact htake''
  rw [final, hloop, Option.bind_eq_bind, Option.bind_some, lastPiece, ← hk]
  dsimp only
  rw [finalTail]
  by_cases hmore : (k + 1) * o.hashused ≤ o.resultsize
  · obtain ⟨st, hst, hbytes⟩ := hread k (by omega)
    have hpiece : ((H k).take o.hashused).length = o.hashused := by
      rw [List.length_take, hH, Nat.min_eq_left hused]
    obtain ⟨hlen'', htake'⟩ := overwrite_take hlen' (p := k * o.hashused)
      (v := (H k).take o.hashused) (k := o.hashused) (by omega) (Nat.le_of_eq hpiece.symm)
      (by omega)
    rw [htake, List.take_take, Nat.min_self, ← prefixOf_succ, ← hsucc] at htake'
    rw [if_pos hmore, if_pos (hsucc ▸ hmore), hst]
    simp only [Option.bind_eq_bind, Option.bind_some, hbytes]
    rw [← hsucc]
    split_ifs with hrest
    · obtain ⟨st', hst', hbytes'⟩ := hread (k + 1) hrest
      rw [hst', Option.bind_some, hbytes', hlast (k + 1) _ hlen'' hrest (by omega) htake']
    · have hall : o.resultsize = (k + 1) * o.hashused := by
        omega
      rw [hall] at hlen'' ⊢
      rw [List.take_of_length_le (Nat.le_of_eq hlen'')] at htake'
      rw [htake', Nat.sub_self, List.take_zero, List.append_nil]
  · rw [if_neg hmore, if_neg (hsucc ▸ hmore)]
    simp only [Option.bind_eq_bind, Option.bind_some]
    split_ifs with hrest
    · obtain ⟨st, hst, hbytes⟩ := hread k hrest
      rw [hst, Option.bind_some, hbytes, hlast k _ hlen' hrest hend htake]
    · have hall : o.resultsize = k * o.hashused := by
        omega
      rw [hall] at hlen' ⊢
      rw [List.take_of_length_le (Nat.le_of_eq hlen')] at htake
      rw [htake, Nat.sub_self, List.take_zero, List.append_nil]

theorem documented_eq (hH : ∀ i, (H i).length = Sha1.hashsize) {n used k : ℕ}
    (hused : used ≤ Sha1.hashsize) (hk : k ≤ n) (hn : n ≤ k * used) :
    (prefixOf H used n).take n = (prefixOf H used k).take n := by
  rw [← take_prefixOf hH hused hk, List.take_take, Nat.min_eq_left hn]

theorem last_eq_documented (hH : ∀ i, (H i).length = Sha1.hashsize) {n used : ℕ} (hpos : 0 < used)
    (hused : used ≤ Sha1.hashsize) (hfits : n ≤ (rounds n used + 2) * used) :
    prefixOf H used (lastPiece n used) ++
        (H (lastPiece n used)).take (n - lastPiece n used * used) =
      (prefixOf H used n).take n := by
  have hle := lastPiece_mul_le (rounds_mul_le (n := n) hused)
  generalize hq : lastPiece n used = q at hle
  have hend : n ≤ (q + 1) * used := by
    rw [← hq, lastPiece]
    split_ifs with hmore
    · exact hfits
    · exact Nat.le_of_lt (Nat.lt_of_not_le hmore)
  have hsucc : (q + 1) * used = q * used + used := Nat.succ_mul _ _
  have hlen := length_prefixOf hH hused q
  rcases Nat.eq_or_lt_of_le hle with heq | hlt
  · have hqn : q ≤ n := Nat.le_trans (Nat.le_mul_of_pos_right q hpos) hle
    rw [documented_eq hH hused hqn (Nat.le_of_eq heq.symm), heq, Nat.sub_self, List.take_zero,
      List.append_nil, List.take_of_length_le]
    omega
  · have hqn : q + 1 ≤ n := Nat.lt_of_le_of_lt (Nat.le_mul_of_pos_right q hpos) hlt
    have htake : (prefixOf H used q).take n = prefixOf H used q :=
      List.take_of_length_le (by omega)
    rw [documented_eq hH hused hqn hend, prefixOf_succ, List.take_append, hlen, htake,
      List.take_take, Nat.min_eq_left (by omega)]

end Output

section Documented

variable {nbytes used : ℕ} {idx : BitVec 64} {garbage : Vector Byte Mdblock.blocksize}
  {parts : List (List Byte)} {out : List Byte}

theorem documented_eq_prefixOf (C : Compress) (nbytes : ℕ) (idx : BitVec 64) (used : ℕ)
    (msg : List Byte) : documented C nbytes idx used msg =
      (prefixOf (fun i => C.hash (htonq i ++ htonq idx.toNat ++ msg)) used nbytes).take nbytes :=
  rfl

theorem le_nctx_mul (hused : 0 < used) (hwrap : nbytes + used ≤ 2 ^ 64) :
    nbytes ≤ (nbytes + used - 1) % 2 ^ 64 / used * used := by
  have hlt : nbytes + used - 1 < 2 ^ 64 := by
    omega
  have hdiv := Nat.lt_div_mul_add (a := nbytes + used - 1) hused
  rw [Nat.mod_eq_of_lt hlt]
  omega

theorem fields_foldl_consume (blocks : List (List Byte)) (o : Sha1oracle C) :
    (blocks.foldl consume o).resultsize = o.resultsize ∧
      (blocks.foldl consume o).hashused = o.hashused ∧
      (blocks.foldl consume o).nctx = o.nctx := by
  induction blocks generalizing o with
  | nil => exact ⟨rfl, rfl, rfl⟩
  | cons b blocks ih =>
    have hstep : (o.consume b).resultsize = o.resultsize ∧
        (o.consume b).hashused = o.hashused ∧ (o.consume b).nctx = o.nctx := by
      unfold consume
      split_ifs
      · exact ⟨rfl, rfl, rfl⟩
      · exact ⟨rfl, rfl, rfl⟩
    obtain ⟨hsize, hhash, hctx⟩ := ih (o.consume b)
    exact ⟨hsize.trans hstep.1, hhash.trans hstep.2.1, hctx.trans hstep.2.2⟩

theorem output_eq (hpos : 0 < used) (hused : used ≤ Sha1.hashsize) (hwrap : nbytes + used ≤ 2 ^ 64)
    (hlen : out.length = nbytes) :
    output C nbytes idx used garbage parts out =
      some (prefixOf (fun i => C.hash (htonq i ++ htonq idx.toNat ++ parts.flatten)) used
          (lastPiece nbytes used) ++
        (C.hash (htonq (lastPiece nbytes used) ++ htonq idx.toNat ++ parts.flatten)).take
          (nbytes - lastPiece nbytes used * used)) := by
  have hstate := fun i => state_finished (C := C) nbytes used idx garbage parts i
  have hrun := fields_foldl_consume (((Mdblock.init garbage).update (List.replicate 8 0 ++
    htonq idx.toNat)).updatev parts).finishBe.consumed (new C nbytes idx used)
  unfold output
  generalize ho : (new C nbytes idx used).finished garbage parts = o at hstate
  have hrun' : o.resultsize = nbytes ∧ o.hashused = used ∧
      o.nctx = (nbytes + used - 1) % 2 ^ 64 / used := by
    rw [← ho]
    exact hrun
  obtain ⟨hsize, hhash, hctx⟩ := hrun'
  have hfinal := final_eq (o := o)
    (H := fun i => C.hash (htonq i ++ htonq idx.toNat ++ parts.flatten))
    (fun i => C.length_hash _) (fun i hi => by rw [hstate, if_pos (hctx ▸ hi)])
    (hhash ▸ hpos) (hhash ▸ hused) (by rw [hsize, hctx, hhash]; exact le_nctx_mul hpos hwrap)
    (hlen.trans hsize.symm)
  rw [hfinal, hsize, hhash]

/-- A compression function whose hash shows the number of the state in every byte. -/
def numbered : Compress where
  State := Option Byte
  newstate := none
  transform s block := some (s.getD (block.getD 7 0))
  state2bytes s := List.replicate Sha1.hashsize (s.getD 0)
  length_state2bytes _ := List.length_replicate

theorem hash_numbered (i : ℕ) (msg : List Byte) :
    numbered.hash (htonq i ++ msg) = List.replicate Sha1.hashsize (BitVec.ofNat 8 i) := by
  obtain ⟨first, rest, hblocks, -⟩ := blocks_padded (htonq i) msg (length_htonq i)
  have hkeep : ∀ (blocks : List (List Byte)) (b : Byte),
      blocks.foldl numbered.transform (some b) = some b := by
    intro blocks b
    induction blocks with
    | nil => rfl
    | cons c blocks ih => exact ih
  have hfirst : numbered.transform numbered.newstate (htonq i ++ first) =
      some (BitVec.ofNat 8 i) := by
    have hbyte : (htonq i ++ first).getD 7 0 = BitVec.ofNat 8 i := rfl
    exact congrArg some hbyte
  rw [Compress.hash, hblocks, List.foldl_cons, hfirst, hkeep]
  rfl

theorem output_eq_none (hlt : nbytes < 2 ^ 64) (hused : used ≤ Sha1.hashsize)
    (hwrap : 2 ^ 64 < nbytes + used) : output C nbytes idx used garbage parts out = none := by
  unfold Sha1.hashsize at hused
  have hmod : (nbytes + used - 1) % 2 ^ 64 = nbytes + used - 1 - 2 ^ 64 := by
    rw [Nat.mod_eq_sub_mod (by omega), Nat.mod_eq_of_lt (by omega)]
  have hctx : (nbytes + used - 1) % 2 ^ 64 / used = 0 := by
    rw [hmod]
    exact Nat.div_eq_of_lt (by omega)
  have hstate := state_finished (C := C) nbytes used idx garbage parts 0
  rw [hctx, if_neg (Nat.lt_irrefl 0), Option.map_eq_none_iff] at hstate
  have hfields := fields_foldl_consume (((Mdblock.init garbage).update (List.replicate 8 0 ++
    htonq idx.toNat)).updatev parts).finishBe.consumed (new C nbytes idx used)
  have hsize : ((new C nbytes idx used).finished garbage parts).resultsize = nbytes := hfields.1
  have hmore : 0 + Sha1.hashsize ≤ nbytes := by
    unfold Sha1.hashsize
    omega
  rw [output, final, finalLoop, hsize, if_pos hmore, hstate]
  rfl

theorem output_numbered_ne (hpos : 0 < used) (hused : used ≤ Sha1.hashsize)
    (hwrap : nbytes + used ≤ 2 ^ 64) (hlong : (rounds nbytes used + 2) * used < nbytes)
    (hlen : out.length = nbytes) :
    output numbered nbytes idx used garbage parts out ≠
      some (documented numbered nbytes idx used parts.flatten) := by
  rw [output_eq hpos hused hwrap hlen, documented_eq_prefixOf, ne_eq, Option.some.injEq]
  generalize hk : rounds nbytes used = k at hlong
  have hlast : lastPiece nbytes used = k + 1 := by
    rw [lastPiece, hk, if_pos]
    have hle : (k + 1) * used ≤ (k + 2) * used := Nat.mul_le_mul_right used (by omega)
    omega
  rw [hlast]
  simp only [List.append_assoc, hash_numbered]
  generalize hH : (fun i => List.replicate Sha1.hashsize (BitVec.ofNat 8 i)) = H
  have hHlen : ∀ i, (H i).length = Sha1.hashsize := by
    intro i
    rw [← hH, List.length_replicate]
  intro heq
  have hbyte := congrArg (fun l => l[(k + 2) * used]?) heq
  have hone : (k + 2) * used = (k + 1) * used + used := Nat.succ_mul _ _
  have hend := lt_rounds_mul (n := nbytes) hpos
  rw [hk] at hend
  have hsucc : (k + 1) * used = k * used + used := Nat.succ_mul _ _
  have hthree : k + 3 ≤ nbytes := by
    have hle : k + 2 ≤ (k + 2) * used := Nat.le_mul_of_pos_right _ hpos
    omega
  have hpre : (prefixOf H used nbytes)[(k + 2) * used]? =
      (prefixOf H used (k + 3))[(k + 2) * used]? := by
    have hthreemul : (k + 3) * used = (k + 2) * used + used := Nat.succ_mul _ _
    rw [← take_prefixOf hHlen hused hthree, List.getElem?_take_of_lt (by omega)]
  unfold Sha1.hashsize at hend hused
  have hleft : (prefixOf H used (k + 1) ++ (List.replicate Sha1.hashsize
      (BitVec.ofNat 8 (k + 1))).take (nbytes - (k + 1) * used))[(k + 2) * used]? =
        some (BitVec.ofNat 8 (k + 1)) := by
    rw [List.getElem?_append_right (by rw [length_prefixOf hHlen hused]; omega),
      length_prefixOf hHlen hused, hone, Nat.add_sub_cancel_left,
      List.getElem?_take_of_lt (by omega), List.getElem?_replicate, if_pos (by
        unfold Sha1.hashsize; omega)]
  have hright : (prefixOf H used (k + 3))[(k + 2) * used]? = some (BitVec.ofNat 8 (k + 2)) := by
    rw [prefixOf_succ, List.getElem?_append_right (by rw [length_prefixOf hHlen hused]),
      length_prefixOf hHlen hused, Nat.sub_self, List.getElem?_take_of_lt hpos, ← hH,
      List.getElem?_replicate, if_pos (by unfold Sha1.hashsize; omega)]
  rw [hleft, List.getElem?_take_of_lt hlong, hpre, hright, Option.some.injEq] at hbyte
  have hnat := congrArg BitVec.toNat hbyte
  rw [BitVec.toNat_ofNat, BitVec.toNat_ofNat] at hnat
  omega

/-- For sizes and hash lengths that the type and the hash allow: what comes out is what the comment
says if and only if the number of states does not wrap and what the loop of `final` leaves fits two
pieces. -/
theorem output_documented_iff (nbytes used : ℕ) (hlt : nbytes < 2 ^ 64) (hpos : 0 < used)
    (hused : used ≤ Sha1.hashsize) :
    (∀ (C : Compress) (idx : BitVec 64) (garbage : Vector Byte Mdblock.blocksize)
        (parts : List (List Byte)) (out : List Byte), out.length = nbytes →
      output C nbytes idx used garbage parts out =
        some (documented C nbytes idx used parts.flatten)) ↔ Fits nbytes used := by
  refine ⟨fun h => ?_, fun hfits C idx garbage parts out hlen => ?_⟩
  · have hnumbered := h numbered 0 (Vector.replicate Mdblock.blocksize 0) []
      (List.replicate nbytes 0) List.length_replicate
    have hwrap : nbytes + used ≤ 2 ^ 64 := by
      by_contra hgt
      rw [output_eq_none hlt hused (Nat.lt_of_not_le hgt)] at hnumbered
      exact absurd hnumbered (by simp)
    refine ⟨hwrap, ?_⟩
    by_contra hlong
    exact output_numbered_ne hpos hused hwrap (Nat.lt_of_not_le hlong) List.length_replicate
      hnumbered
  · rw [output_eq hpos hused hfits.1 hlen, documented_eq_prefixOf,
      last_eq_documented (fun i => C.length_hash _) hpos hused hfits.2]

/-- Pieces of 8 bytes as in the comment, for the sizes up to 16. -/
theorem output_documented_iff_sixteen :
    (∀ (C : Compress) (idx : BitVec 64) (garbage : Vector Byte Mdblock.blocksize)
        (parts : List (List Byte)) (out : List Byte), out.length = 16 →
      output C 16 idx 8 garbage parts out = some (documented C 16 idx 8 parts.flatten)) ↔
      Fits 16 8 :=
  output_documented_iff 16 8 (by decide) (by decide) (by decide)

/-- With pieces of 8 bytes the last byte of 17 is one of the second hash, not of the third. -/
theorem output_seventeen : ¬ ∀ (nbytes used : ℕ) (idx : BitVec 64)
    (garbage : Vector Byte Mdblock.blocksize) (parts : List (List Byte)) (out : List Byte),
    0 < used → used ≤ Sha1.hashsize → out.length = nbytes →
      output Sha1.sha1 nbytes idx used garbage parts out =
        some (documented Sha1.sha1 nbytes idx used parts.flatten) := by
  intro h
  have hbad := h 17 8 0 (Vector.replicate Mdblock.blocksize 0) [] (List.replicate 17 0) (by decide)
    (by decide) (by decide)
  rw [output_eq (by decide) (by decide) (by decide) (by decide), documented_eq_prefixOf,
    Option.some.injEq] at hbad
  have hbyte := congrArg (fun l => l[16]?) hbad
  revert hbyte
  decide +kernel

end Documented

end Sha1oracle

end Sfslite.Crypt
