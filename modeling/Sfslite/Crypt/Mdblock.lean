import Sfslite.Arpc.Bytes
import Sfslite.Lib.Blocks
import Sfslite.Lib.FileStore
import Sfslite.Lib.Words

/-!
`mdblock`: the padding to blocks that the hash functions share. What `consume` is called with is
kept in order.
-/

namespace Sfslite.Crypt

open Sfslite.Arpc (Byte)
open Sfslite.Lib

namespace Mdblock

/-- `mdblock::blocksize`. -/
def blocksize : ℕ := 64

end Mdblock

structure Mdblock where
  count : BitVec 64
  buffer : List Byte
  consumed : List (List Byte)
deriving DecidableEq

namespace Mdblock

/-- The constructor leaves the buffer as it finds it. -/
def init (garbage : Vector Byte blocksize) : Mdblock where
  count := 0
  buffer := garbage.toList
  consumed := []

def consume (m : Mdblock) (block : List Byte) : Mdblock :=
  { m with consumed := m.consumed ++ [block] }

/-- `memcpy (&buffer[pos], data, len)`. -/
def memcpy (m : Mdblock) (pos : ℕ) (data : List Byte) : Mdblock :=
  { m with buffer := overwrite 0 m.buffer pos data }

/-- The `while` loop of `update`, where `data` is the `len` bytes from `&data[i]` on. -/
def consumeLoop : ℕ → Mdblock → List Byte → Mdblock × List Byte
  | 0, m, data => (m, data)
  | fuel + 1, m, data =>
    if blocksize ≤ data.length then
      consumeLoop fuel (m.consume (data.take blocksize)) (data.drop blocksize)
    else (m, data)

def update (m : Mdblock) (data : List Byte) : Mdblock :=
  let bcount := m.count.toNat % blocksize
  let m := { m with count := m.count + BitVec.ofNat 64 data.length }
  if bcount + data.length < blocksize then m.memcpy bcount data
  else
    let (m, data) :=
      if bcount = 0 then (m, data)
      else
        let j := blocksize - bcount
        let m := m.memcpy bcount (data.take j)
        (m.consume m.buffer, data.drop j)
    let (m, data) := consumeLoop data.length m data
    m.memcpy 0 data

/-- `finish_le` and `finish_be`: the byte of the padding bit, and by how much `count` is shifted
for each byte behind the zeros. -/
def finish (padbit : Byte) (shifts : List ℕ) (m : Mdblock) : Mdblock :=
  let bcount := m.count.toNat % blocksize
  let (m, dp) :=
    if bcount > blocksize - 9 then
      let tmp := padbit :: List.replicate (blocksize - bcount - 1) 0
      let m := m.update tmp
      ({ m with count := m.count - BitVec.ofNat 64 (blocksize - bcount) }, 0)
    else (m.memcpy bcount [padbit], bcount + 1)
  let m := m.memcpy dp (List.replicate (blocksize - 8 - dp) 0)
  let m := { m with count := m.count <<< 3 }
  let m := m.memcpy (blocksize - 8) (shifts.map fun s => (m.count >>> s).setWidth 8)
  m.consume m.buffer

/-- The padding that Tiger asks for. -/
def finishLe : Mdblock → Mdblock := finish 0x01 [0, 8, 16, 24, 32, 40, 48, 56]

/-- The padding that SHA-1 asks for. -/
def finishBe : Mdblock → Mdblock := finish 0x80 [56, 48, 40, 32, 24, 16, 8, 0]

def updatev (m : Mdblock) (iov : List (List Byte)) : Mdblock := iov.foldl update m

/-- The number of bits in 64 bits, the least significant byte first. -/
def lengthLe (msg : List Byte) : List Byte := Words.ofNat 8 (8 * msg.length)

def lengthBe (msg : List Byte) : List Byte := (lengthLe msg).reverse

/-- The message, a padding byte, zeros and the eight bytes of the length, with as few zeros as
there can be in whole blocks. -/
def padded (padbit : Byte) (msg len : List Byte) : List Byte :=
  msg ++ padbit :: List.replicate ((2 * blocksize - 9 - msg.length % blocksize) % blocksize) 0 ++
    len

/-- `m` has taken in `msg`. -/
structure Holds (m : Mdblock) (msg : List Byte) : Prop where
  length_buffer : m.buffer.length = blocksize
  count_eq : m.count = BitVec.ofNat 64 msg.length
  cut : Blocks.Cut blocksize msg m.consumed (m.buffer.take (msg.length % blocksize))

variable {m : Mdblock} {msg data : List Byte}

theorem holds_init (garbage : Vector Byte blocksize) : Holds (init garbage) [] where
  length_buffer := by simp [init]
  count_eq := rfl
  cut := Blocks.Cut.nil (by decide)

theorem Holds.bcount_eq (h : Holds m msg) : m.count.toNat % blocksize = msg.length % blocksize := by
  rw [h.count_eq, BitVec.toNat_ofNat, Nat.mod_mod_of_dvd _ (by decide)]

theorem length_memcpy {pos : ℕ} (hbuf : m.buffer.length = blocksize)
    (hlen : pos + data.length ≤ blocksize) : (m.memcpy pos data).buffer.length = blocksize := by
  unfold memcpy overwrite
  split
  · exact hbuf
  · simp only [List.length_append, List.length_take, List.length_drop, List.length_replicate]
    omega

theorem buffer_memcpy {pos : ℕ} (hbuf : m.buffer.length = blocksize)
    (hlen : pos + data.length ≤ blocksize) :
    (m.memcpy pos data).buffer =
      m.buffer.take pos ++ data ++ m.buffer.drop (pos + data.length) := by
  have hsplit : m.buffer = m.buffer.take pos ++ (m.buffer.drop pos).take data.length ++
      m.buffer.drop (pos + data.length) := by
    rw [List.append_assoc, ← List.drop_drop, List.take_append_drop, List.take_append_drop]
  have hpos : (m.buffer.take pos).length = pos := by
    rw [List.length_take]
    omega
  have hover := overwrite_middle 0 (m.buffer.take pos) (m.buffer.drop (pos + data.length))
    (p := (m.buffer.drop pos).take data.length) (v := data) (by simp; omega)
  rw [← hsplit, hpos] at hover
  exact hover

theorem take_memcpy {pos : ℕ} (hbuf : m.buffer.length = blocksize)
    (hlen : pos + data.length ≤ blocksize) :
    (m.memcpy pos data).buffer.take (pos + data.length) = m.buffer.take pos ++ data := by
  rw [buffer_memcpy hbuf hlen, List.take_left']
  rw [List.length_append, List.length_take]
  omega

theorem consumeLoop_spec (fuel : ℕ) (m : Mdblock) (data : List Byte) (hfuel : data.length ≤ fuel) :
    ∃ bs r, consumeLoop fuel m data = ({ m with consumed := m.consumed ++ bs }, r) ∧
      Blocks.Cut blocksize data bs r := by
  induction fuel generalizing m data with
  | zero =>
    obtain rfl := List.length_eq_zero_iff.mp (Nat.le_zero.mp hfuel)
    refine ⟨[], [], ?_, Blocks.Cut.nil (by decide)⟩
    rw [List.append_nil, consumeLoop]
  | succ fuel ih =>
    unfold consumeLoop
    split
    · rename_i hle
      have hpos : 0 < blocksize := by decide
      obtain ⟨bs, r, hloop, hcut⟩ := ih (m.consume (data.take blocksize)) (data.drop blocksize)
        (by rw [List.length_drop]; omega)
      refine ⟨data.take blocksize :: bs, r, ?_, ?_⟩
      · rw [hloop]
        simp [consume]
      · have hcons := hcut.cons (b := data.take blocksize) (List.length_take_of_le hle)
        rwa [List.take_append_drop] at hcons
    · rename_i hlt
      refine ⟨[], data, ?_, Blocks.Cut.of_lt (Nat.lt_of_not_le hlt)⟩
      rw [List.append_nil]

theorem count_update (hcount : m.count = BitVec.ofNat 64 msg.length) (data : List Byte) :
    m.count + BitVec.ofNat 64 data.length = BitVec.ofNat 64 (msg ++ data).length := by
  rw [hcount, List.length_append, BitVec.ofNat_add]

theorem Holds.leftover {bs : List (List Byte)} {r : List Byte}
    (hbuf : m.buffer.length = blocksize) (hcount : m.count = BitVec.ofNat 64 msg.length)
    (hcut : Blocks.Cut blocksize msg (m.consumed ++ bs) r) :
    Holds (memcpy { m with consumed := m.consumed ++ bs } 0 r) msg := by
  have hlt := hcut.length_rest
  have hle : 0 + r.length ≤ blocksize := by omega
  refine ⟨length_memcpy hbuf hle, hcount, ?_⟩
  have htake := take_memcpy (m := { m with consumed := m.consumed ++ bs }) hbuf hle
  rw [Nat.zero_add, List.take_zero, List.nil_append] at htake
  rw [← hcut.length_rest_eq, htake]
  exact hcut

theorem Holds.update (h : Holds m msg) (data : List Byte) :
    Holds (m.update data) (msg ++ data) := by
  have hb := h.bcount_eq
  have hrest := h.cut.length_rest_eq
  have hlt : msg.length % blocksize < blocksize := Nat.mod_lt _ (by decide)
  have hcut := h.cut
  have hbuf := h.length_buffer
  unfold Mdblock.update
  simp only [hb]
  generalize hm' : ({ m with count := m.count + BitVec.ofNat 64 data.length } : Mdblock) = m'
  have hcount : m'.count = BitVec.ofNat 64 (msg ++ data).length :=
    hm' ▸ count_update h.count_eq data
  have hbuf' : m'.buffer = m.buffer := hm' ▸ rfl
  have hconsumed : m'.consumed = m.consumed := hm' ▸ rfl
  rw [← hbuf', ← hconsumed] at hcut
  rw [← hbuf'] at hrest hbuf
  split
  · rename_i hfit
    have happ := hcut.append (Blocks.Cut.of_lt (l := m'.buffer.take _ ++ data)
      (by rw [List.length_append, hrest]; exact hfit))
    rw [List.append_nil] at happ
    have hlen := happ.length_rest_eq
    rw [List.length_append, hrest] at hlen
    refine ⟨length_memcpy hbuf (Nat.le_of_lt hfit), hcount, ?_⟩
    rw [← hlen, take_memcpy hbuf (Nat.le_of_lt hfit)]
    exact happ
  · rename_i hover
    split
    · rename_i hzero
      obtain ⟨bs, r, hloop, hblocks⟩ := consumeLoop_spec data.length m' data (Nat.le_refl _)
      rw [hloop]
      apply Holds.leftover hbuf hcount
      apply hcut.append
      rw [hzero, List.take_zero, List.nil_append]
      exact hblocks
    · -- the first block is what the buffer holds and the head of the data
      generalize hj : blocksize - msg.length % blocksize = j
      have htake : (data.take j).length = j := by
        rw [List.length_take]
        omega
      have hfull : msg.length % blocksize + (data.take j).length = blocksize := by omega
      have hbuf'' := length_memcpy hbuf (Nat.le_of_eq hfull)
      have hblock := take_memcpy hbuf (Nat.le_of_eq hfull)
      rw [hfull, List.take_of_length_le (Nat.le_of_eq hbuf'')] at hblock
      generalize hm'' : m'.memcpy (msg.length % blocksize) (data.take j) = m'' at hbuf'' hblock
      obtain ⟨bs, r, hloop, hblocks⟩ := consumeLoop_spec (data.drop j).length
        (m''.consume m''.buffer) (data.drop j) (Nat.le_refl _)
      rw [hloop]
      apply Holds.leftover (m := m''.consume m''.buffer) hbuf'' (hm'' ▸ hcount)
      have hconsumed' : m''.consumed = m'.consumed := hm'' ▸ rfl
      have hcons := hblocks.cons hbuf''
      rw [hblock, List.append_assoc, List.take_append_drop, ← hblock] at hcons
      have happ := hcut.append hcons
      rwa [← List.singleton_append, ← List.append_assoc, ← hconsumed'] at happ

theorem setWidth_count (n : ℕ) {s : ℕ} (hs : s ≤ 56) :
    ((BitVec.ofNat 64 n <<< 3) >>> s).setWidth 8 = BitVec.ofNat 8 (8 * n / 2 ^ s) := by
  have hpow : 2 ^ 64 = 2 ^ s * 2 ^ (64 - s) := by rw [← pow_add, Nat.add_sub_cancel' (by omega)]
  have hdvd : 2 ^ 8 ∣ 2 ^ (64 - s) := pow_dvd_pow 2 (by omega)
  apply BitVec.eq_of_toNat_eq
  rw [BitVec.toNat_setWidth, BitVec.toNat_ushiftRight, BitVec.toNat_shiftLeft, BitVec.toNat_ofNat,
    BitVec.toNat_ofNat, Nat.shiftRight_eq_div_pow, Nat.shiftLeft_eq, Nat.mod_mul_mod,
    Nat.mul_comm n, hpow, Nat.mod_mul_right_div_self, Nat.mod_mod_of_dvd _ hdvd]

theorem lengthLe_eq {c : BitVec 64} (hcount : c = BitVec.ofNat 64 msg.length) :
    ([0, 8, 16, 24, 32, 40, 48, 56].map fun s => ((c <<< 3) >>> s).setWidth 8) =
      lengthLe msg := by
  subst hcount
  simp only [List.map_cons, List.map_nil, setWidth_count _ (by decide : 0 ≤ 56),
    setWidth_count _ (by decide : 8 ≤ 56), setWidth_count _ (by decide : 16 ≤ 56),
    setWidth_count _ (by decide : 24 ≤ 56), setWidth_count _ (by decide : 32 ≤ 56),
    setWidth_count _ (by decide : 40 ≤ 56), setWidth_count _ (by decide : 48 ≤ 56),
    setWidth_count _ (by decide : 56 ≤ 56)]
  simp only [lengthLe, Words.ofNat, Nat.div_div_eq_div_mul, ← pow_add, pow_zero, Nat.div_one]

theorem lengthBe_eq {c : BitVec 64} (hcount : c = BitVec.ofNat 64 msg.length) :
    ([56, 48, 40, 32, 24, 16, 8, 0].map fun s => ((c <<< 3) >>> s).setWidth 8) =
      lengthBe msg := by
  rw [lengthBe, ← lengthLe_eq hcount, ← List.map_reverse]
  rfl

/-- The last block: what the buffer holds up to `dp`, zeros and the eight bytes of the length. -/
theorem cut_last (dp : ℕ) {len : List Byte} (hbuf : m.buffer.length = blocksize)
    (hdp : dp ≤ blocksize - 8) (hlen : len.length = 8)
    (hcut : Blocks.Cut blocksize msg m.consumed (m.buffer.take dp)) :
    Blocks.Cut blocksize (msg ++ List.replicate (blocksize - 8 - dp) 0 ++ len)
      (m.consumed ++ [((m.memcpy dp (List.replicate (blocksize - 8 - dp) 0)).memcpy
        (blocksize - 8) len).buffer]) [] := by
  have hsize : blocksize = 64 := rfl
  generalize hz : List.replicate (blocksize - 8 - dp) (0 : Byte) = zeros
  have hzlen : zeros.length = blocksize - 8 - dp := by rw [← hz, List.length_replicate]
  have hfit : dp + zeros.length ≤ blocksize := by omega
  have hbuf' := length_memcpy hbuf hfit
  have htake := take_memcpy hbuf hfit
  generalize m.memcpy dp zeros = m' at hbuf' htake
  have hfit' : blocksize - 8 + len.length ≤ blocksize := by omega
  have hbuf'' := length_memcpy hbuf' hfit'
  have htake' := take_memcpy hbuf' hfit'
  have hend : dp + zeros.length = blocksize - 8 := by omega
  have hend' : blocksize - 8 + len.length = blocksize := by omega
  rw [hend', List.take_of_length_le (Nat.le_of_eq hbuf''), ← hend, htake] at htake'
  rw [hend] at htake'
  have hlast : Blocks.Cut blocksize (m.buffer.take dp ++ (zeros ++ len))
      [(m'.memcpy (blocksize - 8) len).buffer] [] := by
    rw [← List.append_assoc, ← htake', ← List.append_nil (m'.memcpy _ len).buffer]
    have hcons := (Blocks.Cut.nil (α := Byte) (by decide : 0 < blocksize)).cons hbuf''
    rwa [List.append_nil] at hcons ⊢
  have happ := hcut.append hlast
  rwa [← List.append_assoc] at happ

variable {len : List Byte} {shifts : List ℕ}

theorem Holds.finish (h : Holds m msg) (padbit : Byte) (hlen : len.length = 8)
    (hshifts : ∀ c : BitVec 64, c = BitVec.ofNat 64 msg.length →
      (shifts.map fun s => ((c <<< 3) >>> s).setWidth 8) = len) :
    (m.finish padbit shifts).consumed = Blocks.blocks blocksize (padded padbit msg len) := by
  have hb := h.bcount_eq
  have hrest := h.cut.length_rest_eq
  have hlt : msg.length % blocksize < blocksize := Nat.mod_lt _ (by decide)
  have hsize : blocksize = 64 := rfl
  have hbuf := h.length_buffer
  apply Blocks.Cut.eq_blocks (r := [])
  unfold Mdblock.finish padded
  simp only [hb]
  generalize hbc : msg.length % blocksize = b at *
  split
  · rename_i hbig
    generalize htmp : padbit :: List.replicate (blocksize - b - 1) (0 : Byte) = tmp
    have htlen : tmp.length = blocksize - b := by
      rw [← htmp, List.length_cons, List.length_replicate]
      omega
    have h' := h.update tmp
    have hmod : (msg ++ tmp).length % blocksize = 0 := by
      rw [hsize] at hbc ⊢
      rw [List.length_append]
      omega
    have hcut := h'.cut
    rw [hmod] at hcut
    generalize m.update tmp = m' at h' hcut
    have hcount : m'.count - BitVec.ofNat 64 (blocksize - b) = BitVec.ofNat 64 msg.length := by
      rw [h'.count_eq, List.length_append, htlen, BitVec.ofNat_add, BitVec.add_sub_cancel]
    have hzeros : (2 * blocksize - 9 - b) % blocksize =
        (blocksize - b - 1) + (blocksize - 8 - 0) := by
      rw [hsize]
      omega
    have hlast := cut_last 0 h'.length_buffer (by decide) hlen hcut
    have hmsg : msg ++ padbit :: List.replicate ((2 * blocksize - 9 - b) % blocksize) 0 ++ len =
        msg ++ tmp ++ List.replicate (blocksize - 8 - 0) 0 ++ len := by
      rw [hzeros, List.replicate_add, ← htmp]
      simp
    rw [hmsg]
    simp only [memcpy, hshifts _ hcount]
    exact hlast
  · rename_i hsmall
    have hfit : b + [padbit].length ≤ blocksize := by
      rw [List.length_singleton]
      omega
    have htake := take_memcpy hbuf hfit
    have hbuf' := length_memcpy hbuf hfit
    have hcount : (m.memcpy b [padbit]).count = BitVec.ofNat 64 msg.length := h.count_eq
    have hcut : Blocks.Cut blocksize (msg ++ [padbit]) (m.memcpy b [padbit]).consumed
        ((m.memcpy b [padbit]).buffer.take (b + 1)) := by
      rw [List.length_singleton] at htake
      rw [htake]
      have happ := h.cut.append (Blocks.Cut.of_lt (l := m.buffer.take _ ++ [padbit])
        (by rw [List.length_append, hbc, hrest, List.length_singleton]; omega))
      rwa [List.append_nil, hbc] at happ
    generalize m.memcpy b [padbit] = m' at hbuf' hcount hcut
    have hzeros : (2 * blocksize - 9 - b) % blocksize = blocksize - 8 - (b + 1) := by
      rw [hsize]
      omega
    have hlast := cut_last (b + 1) hbuf' (by omega) hlen hcut
    have hmsg : msg ++ padbit :: List.replicate ((2 * blocksize - 9 - b) % blocksize) 0 ++ len =
        msg ++ [padbit] ++ List.replicate (blocksize - 8 - (b + 1)) 0 ++ len := by
      rw [hzeros]
      simp
    rw [hmsg]
    simp only [memcpy, hshifts _ hcount]
    exact hlast

theorem holds_updatev (h : Holds m msg) (parts : List (List Byte)) :
    Holds (m.updatev parts) (msg ++ parts.flatten) := by
  induction parts generalizing m msg with
  | nil =>
    rw [List.flatten_nil, List.append_nil]
    exact h
  | cons data parts ih =>
    rw [List.flatten_cons, ← List.append_assoc]
    exact ih (h.update data)

/-- The blocks are those of the padded message, in whatever parts the message comes. -/
theorem consumed_finish (garbage : Vector Byte blocksize) (parts : List (List Byte)) :
    (((init garbage).updatev parts).finishBe).consumed =
        Blocks.blocks blocksize (padded 0x80 parts.flatten (lengthBe parts.flatten)) ∧
      (((init garbage).updatev parts).finishLe).consumed =
        Blocks.blocks blocksize (padded 0x01 parts.flatten (lengthLe parts.flatten)) := by
  have h := holds_updatev (holds_init garbage) parts
  rw [List.nil_append] at h
  constructor
  · exact h.finish 0x80 (by simp [lengthBe, lengthLe]) fun _ => lengthBe_eq
  · exact h.finish 0x01 (by simp [lengthLe]) fun _ => lengthLe_eq

/-- With the byte order of Tiger the padding byte is not `0x80`. -/
theorem finishLe_not_padded : ¬ ∀ (garbage : Vector Byte blocksize) (parts : List (List Byte)),
    (((init garbage).updatev parts).finishLe).consumed =
      Blocks.blocks blocksize (padded 0x80 parts.flatten (lengthLe parts.flatten)) := by
  intro h
  have hnil := h (Vector.replicate blocksize 0) []
  revert hnil
  decide

end Mdblock

end Sfslite.Crypt
