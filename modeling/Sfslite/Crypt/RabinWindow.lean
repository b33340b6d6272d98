import Sfslite.Crypt.Rabinpoly

/-!
The window of the last 48 bytes, whose fingerprint is that of these bytes alone, and
`rabin_fprint::chunk_data`: a boundary where the fingerprint has a given remainder, between a
smallest and a largest chunk.
-/

namespace Sfslite.Crypt

open Polynomial
open Sfslite.Arpc (Byte)
open Sfslite.Async (fls64)
open Sfslite.Lib.Gf2Poly

namespace Rabinpoly

variable {r : Rabinpoly}

def fingerprint (r : Rabinpoly) (bytes : List Byte) : Option U64 :=
  bytes.foldlM r.append8 0

theorem Ready.monic (h : Ready r) : (ofWord r.poly).Monic := by
  obtain ⟨htop, hlt, -⟩ := degree_fls64 h.poly_ne_zero
  exact (monic_ofWord htop hlt).1

theorem Ready.reduced (h : Ready r) {s : U64} {p : (ZMod 2)[X]}
    (hs : ofWord s = p %ₘ ofWord r.poly) : (ofWord s).degree < (ofWord r.poly).degree := by
  rw [hs]
  exact degree_modByMonic_lt p h.monic

theorem Ready.foldlM_append8 (h : Ready r) (bytes : List Byte) {s : U64} {p : (ZMod 2)[X]}
    (hs : ofWord s = p %ₘ ofWord r.poly) :
    ∃ f, bytes.foldlM r.append8 s = some f ∧
      ofWord f = (p * X ^ (8 * bytes.length) + ofBytes bytes) %ₘ ofWord r.poly := by
  induction bytes generalizing s p with
  | nil => exact ⟨s, rfl, by simpa [ofBytes] using hs⟩
  | cons b bytes ih =>
    obtain ⟨s', hs', hval⟩ := h.append8 (h.reduced hs) b
    rw [hs, mul_add_mod h.monic] at hval
    obtain ⟨f, hf, hfval⟩ := ih hval
    refine ⟨f, ?_, ?_⟩
    · rw [List.foldlM_cons, hs']
      exact hf
    · have hpoly : p * X ^ (8 * (b :: bytes).length) + ofBytes (b :: bytes) =
          (p * X ^ 8 + ofWord b) * X ^ (8 * bytes.length) + ofBytes bytes := by
        rw [ofBytes_cons, List.length_cons, Nat.mul_succ, pow_add]
        ring
      rw [hfval, hpoly]

theorem Ready.fingerprint (h : Ready r) (bytes : List Byte) :
    ∃ f, r.fingerprint bytes = some f ∧ ofWord f = ofBytes bytes %ₘ ofWord r.poly := by
  have hword : ofWord (0 : U64) = 0 := ofWord_zero
  have hzero : ofWord (0 : U64) = 0 %ₘ ofWord r.poly := by
    rw [hword, zero_modByMonic]
  obtain ⟨f, hf, hval⟩ := h.foldlM_append8 bytes hzero
  rw [zero_mul, zero_add] at hval
  exact ⟨f, hf, hval⟩

end Rabinpoly

namespace Window

open Rabinpoly (Ready)

variable {w w' : Window} {l : List Byte}

/-- A call of `slide8` or `reset`. -/
inductive Op where
  | slide8 (m : Byte)
  | reset

def step (w : Window) : Op → Option Window
  | .slide8 m => w.slide8 m
  | .reset => some w.reset

/-- The bytes since the last `reset`. -/
def recent (bytes : List Byte) : Op → List Byte
  | .slide8 m => bytes ++ [m]
  | .reset => []

/-- The last 48 of them, with zeros in front where there are fewer. -/
def padded (bytes : List Byte) : List Byte :=
  (List.replicate size 0 ++ bytes).drop bytes.length

/-- `l` is what the buffer holds, the oldest byte first, and the fingerprint is that of `l`. -/
structure Holds (w : Window) (l : List Byte) : Prop where
  ready : Ready w.toRabinpoly
  length_buf : w.buf.length = size
  bufpos_ge : -1 ≤ w.bufpos
  bufpos_lt : w.bufpos < size
  order : w.buf.drop (w.bufpos + 1).toNat ++ w.buf.take (w.bufpos + 1).toNat = l
  fingerprint : ofWord w.fingerprint = ofBytes l %ₘ ofWord w.poly
  table : ∀ i, i < 256 → ∃ u, w.U[i]? = some u ∧
    ofWord u = (ofWord (BitVec.ofNat 64 i) * X ^ (8 * (size - 1))) %ₘ ofWord w.poly

theorem sizeshift_spec {r : Rabinpoly} (h : Ready r) (n : ℕ) :
    ∃ s, sizeshift r n = some s ∧ ofWord s = X ^ (8 * n) %ₘ ofWord r.poly := by
  induction n with
  | zero =>
    have hone : ofWord (1 : U64) = 1 := by
      ext n
      rw [coeff_ofWord, coeff_one]
      cases n with
      | zero => rfl
      | succ n => simp
    obtain ⟨htop, hlt, hk⟩ := Rabinpoly.degree_fls64 h.poly_ne_zero
    obtain ⟨hq, hdegree⟩ := monic_ofWord htop hlt
    have hpos : 0 < fls64 r.poly - 1 := by
      by_contra hzero
      have hge := h.poly_ge
      have hexp : fls64 r.poly - 1 + 1 = 1 := by
        omega
      rw [hexp] at hlt
      omega
    refine ⟨1, rfl, ?_⟩
    rw [Nat.mul_zero, pow_zero, hone]
    refine ((modByMonic_eq_self_iff hq).mpr ?_).symm
    rw [hdegree, degree_one]
    exact_mod_cast hpos
  | succ n ih =>
    obtain ⟨s, hs, hval⟩ := ih
    obtain ⟨s', hs', hval'⟩ := h.append8 (h.reduced hval) 0
    have hzero : ofWord (0 : Byte) = 0 := ofWord_zero
    rw [hzero, add_zero, hval, mul_comm, mul_mod h.monic, ← pow_add] at hval'
    refine ⟨s', by rw [sizeshift, hs]; exact hs', ?_⟩
    rw [hval', Nat.mul_succ, Nat.add_comm]

theorem ofBytes_zeros : ofBytes (List.replicate size 0) = 0 := by
  rw [← List.append_nil (List.replicate size 0), ofBytes_replicate_append]
  rfl

theorem new_spec {poly : U64} (h : 0x100 ≤ poly.toNat) :
    ∃ w, new poly = some w ∧ w.poly = poly ∧ Holds w (List.replicate size 0) := by
  obtain ⟨r, hr, hpoly, hready⟩ := Rabinpoly.new_spec h
  obtain ⟨s, hs, hval⟩ := sizeshift_spec hready (size - 1)
  have hentry := fun i : ℕ => Rabinpoly.polymmult_spec hready.poly_ne_zero (BitVec.ofNat 64 i) s
  rw [hpoly] at hentry
  obtain ⟨U, hU, hread⟩ := Rabinpoly.mapM_range 256 fun i _ => (hentry i).imp fun _ ht => ht.1
  refine ⟨⟨r, 0, -1, U, List.replicate size 0⟩, ?_, hpoly, hready, List.length_replicate,
    le_refl _, show (-1 : ℤ) < 48 by decide, by simp, ?_, fun i hi => ?_⟩
  · rw [new, hr]
    simp only [Option.bind_eq_bind, Option.bind_some, hs, hU]
  · have hword : ofWord (0 : U64) = 0 := ofWord_zero
    rw [hword, ofBytes_zeros, zero_modByMonic]
  · obtain ⟨u, hu, huval⟩ := hentry i
    refine ⟨u, (hread i hi).trans hu, ?_⟩
    rw [huval, hval, ← hpoly, mul_mod hready.monic]

theorem ofNat_toNat_byte (b : Byte) : ofWord (BitVec.ofNat 64 b.toNat) = ofWord b := by
  have hword : BitVec.ofNat 64 b.toNat = b.setWidth 64 := by
    apply BitVec.eq_of_toNat_eq
    simp
  rw [hword, ofWord_setWidth b (by decide)]

theorem rotate_set {buf : List Byte} {q : ℕ} (hq : q < buf.length) (m : Byte) :
    ∃ om, buf[q]? = some om ∧ buf.drop q ++ buf.take q = om :: (buf.drop (q + 1) ++ buf.take q) ∧
      (buf.set q m).drop (q + 1) ++ (buf.set q m).take (q + 1) =
        buf.drop (q + 1) ++ buf.take q ++ [m] := by
  refine ⟨buf[q], List.getElem?_eq_getElem hq, ?_, ?_⟩
  · rw [List.drop_eq_getElem_cons hq, List.cons_append]
  · rw [List.drop_set_of_lt (Nat.lt_succ_self q), List.take_succ_eq_append_getElem (by simpa using hq),
      List.take_set_of_le (Nat.le_refl q)]
    simp

theorem Holds.slide8 (h : Holds w l) (m : Byte) :
    ∃ w', w.slide8 m = some w' ∧ w'.toRabinpoly = w.toRabinpoly ∧
      Holds w' (l.tail ++ [m]) := by
  have hmonic : (ofWord w.poly).Monic := h.ready.monic
  generalize hpos : (if (size : ℤ) ≤ w.bufpos + 1 then 0 else w.bufpos + 1) = bufpos
  have hge := h.bufpos_ge
  have hlt := h.bufpos_lt
  have hbufpos : 0 ≤ bufpos ∧ bufpos < size := by
    have hsize : (0 : ℤ) < size := by
      decide
    rw [← hpos]
    split_ifs
    · exact ⟨le_refl _, hsize⟩
    · omega
  have horder : w.buf.drop bufpos.toNat ++ w.buf.take bufpos.toNat = l := by
    rw [← h.order, ← hpos]
    split_ifs with hwrap
    · have hend : (w.bufpos + 1).toNat = w.buf.length := by
        rw [h.length_buf]
        omega
      simp [hend]
    · rfl
  have hq : bufpos.toNat < w.buf.length := by
    rw [h.length_buf]
    omega
  obtain ⟨om, hom, hhead, hset⟩ := rotate_set hq m
  rw [horder] at hhead
  generalize hrest : w.buf.drop (bufpos.toNat + 1) ++ w.buf.take bufpos.toNat = rest at hhead hset
  have hlen : rest.length = size - 1 := by
    have htotal := congrArg List.length horder
    rw [hhead, List.length_cons, List.length_append, List.length_drop, List.length_take,
      h.length_buf] at htotal
    omega
  obtain ⟨u, hu, huval⟩ := h.table om.toNat om.isLt
  rw [ofNat_toNat_byte] at huval
  have hout : ofWord (w.fingerprint ^^^ u) = ofBytes rest %ₘ ofWord w.poly := by
    have hpoly : ofWord om * X ^ (8 * (size - 1)) + ofBytes rest +
        ofWord om * X ^ (8 * (size - 1)) = ofBytes rest := by
      rw [add_comm, ← add_assoc, CharTwo.add_self_eq_zero, zero_add]
    rw [ofWord_xor, h.fingerprint, huval, hhead, ofBytes_cons, hlen, ← add_modByMonic, hpoly]
  obtain ⟨s, hs, hval⟩ := h.ready.append8 (h.ready.reduced hout) m
  rw [hout, mul_add_mod hmonic] at hval
  refine ⟨{ w with fingerprint := s, bufpos := bufpos, buf := w.buf.set bufpos.toNat m }, ?_, rfl,
    h.ready, by rw [List.length_set, h.length_buf], le_trans (by decide) hbufpos.1, hbufpos.2,
    ?_, ?_, h.table⟩
  · rw [Window.slide8, hpos]
    simp only [Option.bind_eq_bind, hom, Option.bind_some, hu, hs]
  · have hnext : (bufpos + 1).toNat = bufpos.toNat + 1 := by
      omega
    rw [hnext, hset, hhead, List.tail_cons]
  · rw [hhead, List.tail_cons, ofBytes_concat]
    exact hval

theorem Holds.reset (h : Holds w l) :
    Holds w.reset (List.replicate size 0) where
  ready := h.ready
  length_buf := List.length_replicate
  bufpos_ge := h.bufpos_ge
  bufpos_lt := h.bufpos_lt
  order := by
    have hlt := h.bufpos_lt
    simp only [Window.reset, List.drop_replicate, List.take_replicate, List.replicate_append_replicate]
    congr 1
    omega
  fingerprint := by
    have hword : ofWord (0 : U64) = 0 := ofWord_zero
    rw [ofBytes_zeros, zero_modByMonic]
    exact hword
  table := h.table

theorem padded_concat (bytes : List Byte) (m : Byte) :
    padded (bytes ++ [m]) = (padded bytes).tail ++ [m] := by
  unfold padded
  rw [List.tail_drop, ← List.append_assoc, List.drop_append_of_le_length (by simp [size]),
    List.length_append]
  rfl

/-- The step lemma: what the window holds is always the bytes since the last `reset`. -/
theorem Holds.step {bytes : List Byte} (h : Holds w (padded bytes)) (op : Op) :
    ∃ w', w.step op = some w' ∧ w'.toRabinpoly = w.toRabinpoly ∧
      Holds w' (padded (recent bytes op)) := by
  cases op with
  | slide8 m =>
    obtain ⟨w', hw', hsame, hholds⟩ := h.slide8 m
    exact ⟨w', hw', hsame, by rwa [recent, padded_concat]⟩
  | reset => exact ⟨w.reset, rfl, rfl, h.reset⟩

theorem Holds.run {bytes : List Byte} (h : Holds w (padded bytes)) (ops : List Op) :
    ∃ w', ops.foldlM Window.step w = some w' ∧ w'.toRabinpoly = w.toRabinpoly ∧
      Holds w' (padded (ops.foldl recent bytes)) := by
  induction ops generalizing w bytes with
  | nil => exact ⟨w, rfl, rfl, h⟩
  | cons op ops ih =>
    obtain ⟨v, hv, hsame, hholds⟩ := h.step op
    obtain ⟨w', hw', hsame', hholds'⟩ := ih hholds
    refine ⟨w', ?_, hsame'.trans hsame, hholds'⟩
    rw [List.foldlM_cons, hv]
    exact hw'

theorem ofBytes_padded (bytes : List Byte) :
    ofBytes (padded bytes) = ofBytes (bytes.drop (bytes.length - size)) := by
  unfold padded
  rw [List.drop_append, List.length_replicate, List.drop_replicate, ofBytes_replicate_append]

end Window

/-- `polymod` and `polymmult` for every divisor but zero, `append8` for every polynomial of degree
at least 8, and the window after every run of `slide8` and `reset`: its fingerprint is that of the
last 48 bytes. -/
theorem rabinpoly_spec :
    (∀ nh nl d : U64, d ≠ 0 → ∃ r, Rabinpoly.polymod nh nl d = some r ∧
      ofWord r = (X ^ 64 * ofWord nh + ofWord nl) %ₘ ofWord d) ∧
    (∀ x y d : U64, d ≠ 0 → ∃ r, Rabinpoly.polymmult x y d = some r ∧
      ofWord r = (ofWord x * ofWord y) %ₘ ofWord d) ∧
    (∀ poly : U64, 0x100 ≤ poly.toNat → ∃ r, Rabinpoly.new poly = some r ∧
      ∀ (p : U64) (m : Byte), (ofWord p).degree < (ofWord poly).degree →
        ∃ s, r.append8 p m = some s ∧ ofWord s = (ofWord p * X ^ 8 + ofWord m) %ₘ ofWord poly) ∧
    ∀ poly : U64, 0x100 ≤ poly.toNat → ∃ w, Window.new poly = some w ∧
      ∀ ops : List Window.Op, ∃ w', ops.foldlM Window.step w = some w' ∧
        let bytes := ops.foldl Window.recent []
        let last := bytes.drop (bytes.length - Window.size)
        w'.toRabinpoly.fingerprint last = some w'.fingerprint ∧
          ofWord w'.fingerprint = ofBytes last %ₘ ofWord poly := by
  refine ⟨fun nh nl d hd => Rabinpoly.polymod_spec hd nh nl,
    fun x y d hd => Rabinpoly.polymmult_spec hd x y, fun poly hpoly => ?_, fun poly hpoly => ?_⟩
  · obtain ⟨r, hr, rfl, hready⟩ := Rabinpoly.new_spec hpoly
    exact ⟨r, hr, fun p m hp => hready.append8 hp m⟩
  · obtain ⟨w, hw, hwpoly, hholds⟩ := Window.new_spec hpoly
    refine ⟨w, hw, fun ops => ?_⟩
    obtain ⟨w', hw', hsame, hholds'⟩ :=
      Window.Holds.run (show Window.Holds w (Window.padded []) from hholds) ops
    refine ⟨w', hw', ?_⟩
    have hval := hholds'.fingerprint
    rw [Window.ofBytes_padded, hsame, hwpoly] at hval
    obtain ⟨f, hf, hfval⟩ := hholds'.ready.fingerprint
      ((ops.foldl Window.recent []).drop ((ops.foldl Window.recent []).length - Window.size))
    rw [hsame, hwpoly, ← hval] at hfval
    rw [ofWord_injective hfval] at hf
    exact ⟨hf, hval⟩

theorem Rabinpoly.shift_new {poly : U64} {r : Rabinpoly} (h : Rabinpoly.new poly = some r) :
    r.shift = (fls64 poly - 1 : ℕ) - 8 := by
  simp only [Rabinpoly.new, Option.bind_eq_bind, Option.bind_eq_some_iff, Option.some.injEq] at h
  obtain ⟨T1, -, T, -, rfl⟩ := h
  rfl

/-- With a polynomial of degree 1 the shift is negative. -/
theorem append8_degree_one : ¬ ∀ (poly p : U64) (m : Byte), poly ≠ 0 →
    (ofWord p).degree < (ofWord poly).degree → ∃ r s, Rabinpoly.new poly = some r ∧
      r.append8 p m = some s ∧ ofWord s = (ofWord p * X ^ 8 + ofWord m) %ₘ ofWord poly := by
  intro h
  have hdegree : (ofWord (0 : U64)).degree < (ofWord (3 : U64)).degree := by
    have hword : ofWord (0 : U64) = 0 := ofWord_zero
    have hthree := (monic_ofWord (v := (3 : U64)) (k := 1) (by decide) (by decide)).2
    rw [hword, hthree, degree_zero]
    exact WithBot.bot_lt_coe 1
  obtain ⟨r, s, hr, hs, -⟩ := h 3 0 0 (by decide) hdegree
  have hshift : r.shift < 0 := by
    rw [Rabinpoly.shift_new hr]
    decide
  rw [Rabinpoly.append8, if_pos hshift] at hs
  cases hs

/-- `_w`, `_last_pos` and `_cur_pos` of a `rabin_fprint`, and the static counters. -/
structure RabinFprint where
  w : Window
  lastPos : BitVec 64
  curPos : BitVec 64
  minSizeSuppress : BitVec 32
  maxSizeSuppress : BitVec 32

namespace RabinFprint

/-- `FINGERPRINT_PT` -/
def fingerprintPt : U64 := 0xbfe6b8a5bf378d83

def breakmarkValue : ℕ := 0x78

def minChunkSize : ℕ := 2048

def maxChunkSize : ℕ := 65535

def chunkSize : ℕ := 32768

/-- The constructor; the static counters are what they were. -/
def new (minSizeSuppress maxSizeSuppress : BitVec 32) : Option RabinFprint := do
  let w ← Window.new fingerprintPt
  some
    { w := w.reset
      lastPos := 0
      curPos := 0
      minSizeSuppress := minSizeSuppress
      maxSizeSuppress := maxSizeSuppress }

/-- Whether the fingerprint has the remainder of a boundary. -/
def breakmark (f : RabinFprint) : Bool :=
  f.w.fingerprint.toNat % chunkSize == breakmarkValue

/-- The two counters: a boundary that comes too early, and one that has to come. -/
def suppress (f : RabinFprint) (cs : ℕ) : RabinFprint :=
  if f.breakmark ∧ cs < minChunkSize then { f with minSizeSuppress := f.minSizeSuppress + 1 }
  else if cs = maxChunkSize then { f with maxSizeSuppress := f.maxSizeSuppress + 1 }
  else f

/-- One pass of the loop of `chunk_data`, with `iv`. -/
def byteStep (s : RabinFprint × Option (List (BitVec 32))) (b : Byte) :
    Option (RabinFprint × Option (List (BitVec 32))) := do
  let w ← s.1.w.slide8 b
  let cs := s.1.curPos - s.1.lastPos
  let f := { s.1 with w := w }.suppress cs.toNat
  if f.breakmark ∧ minChunkSize ≤ cs.toNat ∨ maxChunkSize ≤ cs.toNat then
    some ({ f with w := f.w.reset, lastPos := f.curPos, curPos := f.curPos + 1 },
      some (s.2.getD [] ++ [cs.setWidth 32]))
  else some ({ f with curPos := f.curPos + 1 }, s.2)

/-- `chunk_data`, with `none` for the `NULL` of a call without a boundary. -/
def chunkData (f : RabinFprint) (data : List Byte) :
    Option (RabinFprint × Option (List (BitVec 32))) :=
  data.foldlM byteStep (f, none)

/-- Successive calls, and all that they return. -/
def chunkCalls (f : RabinFprint) : List (List Byte) → Option (RabinFprint × List (BitVec 32))
  | [] => some (f, [])
  | data :: parts => do
      let (f, iv) ← f.chunkData data
      let (f, sizes) ← f.chunkCalls parts
      some (f, iv.getD [] ++ sizes)

variable {f f' : RabinFprint} {iv iv' : Option (List (BitVec 32))} {sizes : List (BitVec 32)}

/-- What was in `iv` stays in front of what is added. -/
def behind (iv iv' : Option (List (BitVec 32))) : Option (List (BitVec 32)) :=
  match iv' with
  | none => iv
  | some sizes => some (iv.getD [] ++ sizes)

theorem getD_behind (iv iv' : Option (List (BitVec 32))) :
    (behind iv iv').getD [] = iv.getD [] ++ iv'.getD [] := by
  cases iv' with
  | none => simp [behind]
  | some sizes => rfl

theorem behind_behind (iv iv' iv'' : Option (List (BitVec 32))) :
    behind (behind iv iv') iv'' = behind iv (behind iv' iv'') := by
  cases iv'' with
  | none => rfl
  | some sizes =>
    simp only [behind, ← List.append_assoc, ← getD_behind]

theorem byteStep_behind (f : RabinFprint) (iv : Option (List (BitVec 32))) (b : Byte) :
    byteStep (f, iv) b = (byteStep (f, none) b).map fun r => (r.1, behind iv r.2) := by
  unfold byteStep
  cases f.w.slide8 b with
  | none => rfl
  | some w =>
    simp only [Option.bind_eq_bind, Option.bind_some]
    split_ifs
    · rfl
    · rfl

theorem foldlM_behind (data : List Byte) (f : RabinFprint) (iv : Option (List (BitVec 32))) :
    data.foldlM byteStep (f, iv) = (f.chunkData data).map fun r => (r.1, behind iv r.2) := by
  unfold chunkData
  induction data generalizing f iv with
  | nil => rfl
  | cons b data ih =>
    rw [List.foldlM_cons, List.foldlM_cons, byteStep_behind]
    cases byteStep (f, none) b with
    | none => rfl
    | some r =>
      simp only [Option.map_some, Option.bind_eq_bind, Option.bind_some]
      rw [ih r.1 (behind iv r.2), ih r.1 r.2, Option.map_map]
      congr 1
      funext r'
      exact congrArg (Prod.mk r'.1) (behind_behind iv r.2 r'.2)

theorem chunkCalls_eq (f : RabinFprint) (parts : List (List Byte)) :
    f.chunkCalls parts = (f.chunkData parts.flatten).map fun r => (r.1, r.2.getD []) := by
  induction parts generalizing f with
  | nil => rfl
  | cons data parts ih =>
    have happ : f.chunkData (data :: parts).flatten =
        (f.chunkData data).bind fun r => parts.flatten.foldlM byteStep r := by
      rw [List.flatten_cons, chunkData, List.foldlM_append]
      rfl
    rw [chunkCalls, happ]
    cases f.chunkData data with
    | none => rfl
    | some r =>
      obtain ⟨f', iv⟩ := r
      simp only [Option.bind_eq_bind, Option.bind_some]
      rw [ih, foldlM_behind]
      cases f'.chunkData parts.flatten with
      | none => rfl
      | some r' => simp only [Option.map_some, Option.bind_some, getD_behind]

def total (sizes : List (BitVec 32)) : ℕ := (sizes.map BitVec.toNat).sum

/-- What holds after `n` bytes with chunks of these sizes finished. -/
structure Good (f : RabinFprint) (n : ℕ) (sizes : List (BitVec 32)) : Prop where
  window : ∃ l, Window.Holds f.w l
  curPos : f.curPos = BitVec.ofNat 64 n
  lastPos : f.lastPos = BitVec.ofNat 64 (total sizes)
  total_le : total sizes ≤ n
  open_le : n - total sizes ≤ maxChunkSize
  size : ∀ s ∈ sizes, minChunkSize ≤ s.toNat ∧ s.toNat ≤ maxChunkSize

theorem Good.cs {n : ℕ} (h : Good f n sizes) : (f.curPos - f.lastPos).toNat = n - total sizes := by
  have hopen := h.open_le
  unfold maxChunkSize at hopen
  have hsum : BitVec.ofNat 64 n =
      BitVec.ofNat 64 (n - total sizes) + BitVec.ofNat 64 (total sizes) := by
    rw [← BitVec.ofNat_add, Nat.sub_add_cancel h.total_le]
  rw [h.curPos, h.lastPos, hsum, BitVec.add_sub_cancel, BitVec.toNat_ofNat, Nat.mod_eq_of_lt]
  omega

theorem total_concat (sizes : List (BitVec 32)) (s : BitVec 32) :
    total (sizes ++ [s]) = total sizes + s.toNat := by
  simp [total]

@[simp]
theorem suppress_w (f : RabinFprint) (cs : ℕ) : (f.suppress cs).w = f.w := by
  unfold suppress
  split_ifs <;> rfl

@[simp]
theorem suppress_curPos (f : RabinFprint) (cs : ℕ) : (f.suppress cs).curPos = f.curPos := by
  unfold suppress
  split_ifs <;> rfl

@[simp]
theorem suppress_lastPos (f : RabinFprint) (cs : ℕ) : (f.suppress cs).lastPos = f.lastPos := by
  unfold suppress
  split_ifs <;> rfl

theorem Good.byteStep {n : ℕ} (h : Good f n (iv.getD [])) (b : Byte) :
    ∃ r, RabinFprint.byteStep (f, iv) b = some r ∧ Good r.1 (n + 1) (r.2.getD []) := by
  obtain ⟨l, hl⟩ := h.window
  obtain ⟨w, hw, -, hholds⟩ := hl.slide8 b
  have hcs := h.cs
  have hopen := h.open_le
  have htotal := h.total_le
  have hnext : f.curPos + 1 = BitVec.ofNat 64 (n + 1) := by
    rw [h.curPos, BitVec.ofNat_add]
    rfl
  unfold RabinFprint.byteStep
  simp only [Option.bind_eq_bind, hw, Option.bind_some, hcs]
  split_ifs with hbreak
  · -- the chunk is as long as the bytes since the last boundary
    have hsize : ((f.curPos - f.lastPos).setWidth 32).toNat = n - total (iv.getD []) := by
      rw [BitVec.toNat_setWidth, hcs, Nat.mod_eq_of_lt]
      exact Nat.lt_of_le_of_lt hopen (by decide)
    have hmin : minChunkSize ≤ n - total (iv.getD []) := by
      rcases hbreak with ⟨-, hmin⟩ | hmax
      · exact hmin
      · exact Nat.le_trans (by decide) hmax
    have hsum : total (iv.getD [] ++ [(f.curPos - f.lastPos).setWidth 32]) = n := by
      rw [total_concat, hsize, Nat.add_sub_cancel' htotal]
    refine ⟨_, rfl, ⟨List.replicate Window.size 0, ?_⟩, ?_, ?_, ?_, ?_, ?_⟩
    · rw [suppress_w]
      exact hholds.reset
    · rw [suppress_curPos]
      exact hnext
    · rw [suppress_curPos, Option.getD_some, hsum]
      exact h.curPos
    · rw [Option.getD_some, hsum]
      exact Nat.le_succ n
    · rw [Option.getD_some, hsum, Nat.add_sub_cancel_left]
      decide
    · intro s hs
      rcases List.mem_append.mp hs with hs | hs
      · exact h.size s hs
      · rw [List.mem_singleton.mp hs, hsize]
        exact ⟨hmin, hopen⟩
  · refine ⟨_, rfl, ⟨l.tail ++ [b], ?_⟩, ?_, ?_, ?_, ?_, h.size⟩
    · rw [suppress_w]
      exact hholds
    · rw [suppress_curPos]
      exact hnext
    · rw [suppress_lastPos]
      exact h.lastPos
    · exact Nat.le_succ_of_le htotal
    · have hlt : n - total (iv.getD []) < maxChunkSize := by
        by_contra hge
        exact hbreak (Or.inr (Nat.not_lt.mp hge))
      dsimp only
      omega

theorem Good.foldlM {n : ℕ} (h : Good f n (iv.getD [])) (data : List Byte) :
    ∃ r, data.foldlM RabinFprint.byteStep (f, iv) = some r ∧
      Good r.1 (n + data.length) (r.2.getD []) := by
  induction data generalizing f iv n with
  | nil => exact ⟨(f, iv), rfl, h⟩
  | cons b data ih =>
    obtain ⟨r, hr, hgood⟩ := h.byteStep b
    obtain ⟨r', hr', hgood'⟩ := ih hgood
    refine ⟨r', ?_, ?_⟩
    · rw [List.foldlM_cons, hr]
      exact hr'
    · rw [List.length_cons, Nat.add_comm data.length 1, ← Nat.add_assoc]
      exact hgood'

theorem new_spec (minSizeSuppress maxSizeSuppress : BitVec 32) :
    ∃ f, new minSizeSuppress maxSizeSuppress = some f ∧ Good f 0 [] := by
  obtain ⟨w, hw, -, hholds⟩ := Window.new_spec (show 0x100 ≤ fingerprintPt.toNat by decide)
  refine ⟨_, by rw [new, hw]; rfl, ⟨_, hholds.reset⟩, rfl, rfl, Nat.le_refl 0, Nat.zero_le _, ?_⟩
  intro s hs
  exact absurd hs List.not_mem_nil

/-- For every stream and every way to split it: the calls give the chunks of one call with all of
it (and leave the same state), each of an allowed size, and these add up to the position of the
last boundary, with less than a largest chunk behind it. -/
theorem chunkCalls_spec (minSizeSuppress maxSizeSuppress : BitVec 32) :
    ∃ f, new minSizeSuppress maxSizeSuppress = some f ∧ ∀ parts : List (List Byte),
      ∃ f' sizes, f.chunkCalls parts = some (f', sizes) ∧
        (f.chunkData parts.flatten).map (fun r => (r.1, r.2.getD [])) = some (f', sizes) ∧
        (∀ s ∈ sizes, minChunkSize ≤ s.toNat ∧ s.toNat ≤ maxChunkSize) ∧
        f'.lastPos = BitVec.ofNat 64 (total sizes) ∧
        f'.curPos = BitVec.ofNat 64 parts.flatten.length ∧
        total sizes ≤ parts.flatten.length ∧
        parts.flatten.length - total sizes ≤ maxChunkSize := by
  obtain ⟨f, hf, hgood⟩ := new_spec minSizeSuppress maxSizeSuppress
  refine ⟨f, hf, fun parts => ?_⟩
  have hstart : Good f 0 ((none : Option (List (BitVec 32))).getD []) := hgood
  obtain ⟨r, hr, hgood'⟩ := hstart.foldlM parts.flatten
  rw [Nat.zero_add] at hgood'
  have hdata : f.chunkData parts.flatten = some r := hr
  refine ⟨r.1, r.2.getD [], ?_, by rw [hdata]; rfl, hgood'.size, hgood'.lastPos, hgood'.curPos,
    hgood'.total_le, hgood'.open_le⟩
  rw [chunkCalls_eq, hdata]
  rfl

end RabinFprint

end Sfslite.Crypt
