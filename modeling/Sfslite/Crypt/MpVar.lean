import Sfslite.Crypt.MpInt
import Sfslite.Lib.WordCarry

/-!
Variables that hold big integers, for the routines that work on the limbs in memory and may be
called with one variable more than once.
-/

namespace Sfslite.Crypt

open Sfslite.Lib

/-- An `MP_INT`. What stands in `d` from `alloc` on is what a reallocation would find there. -/
structure MpVar where
  size : ℤ
  alloc : ℕ
  d : ℕ → Limb

namespace MpVar

/-- The `n` limbs from place `i` on. -/
def seg (d : ℕ → Limb) (i n : ℕ) : List Limb := (List.range n).map fun j => d (i + j)

def mag (x : MpVar) : ℕ := Words.val (seg x.d 0 x.size.natAbs)

def toInt (x : MpVar) : ℤ := if x.size < 0 then -(x.mag : ℤ) else x.mag

/-- What `_mpz_assert` asks for, within the space allocated. -/
structure Wf (x : MpVar) : Prop where
  fits : x.size.natAbs ≤ x.alloc
  top : (seg x.d 0 x.size.natAbs).getLast? ≠ some 0#64

/-- `_mpz_realloc`: a number that does not fit any more becomes 0. -/
def realloc (x : MpVar) (n : ℕ) : MpVar :=
  { x with alloc := n, size := if n < x.size.natAbs then 0 else x.size }

/-- The limbs `out` are written from place `i` on. -/
def write (d : ℕ → Limb) (i : ℕ) (out : List Limb) : ℕ → Limb :=
  fun j => if i ≤ j then out[j - i]?.getD (d j) else d j

variable {d : ℕ → Limb} {i j n k : ℕ} {out out' : List Limb}

@[simp] theorem length_seg (d : ℕ → Limb) (i n : ℕ) : (seg d i n).length = n := by simp [seg]

theorem seg_add (d : ℕ → Limb) (i n k : ℕ) : seg d i (n + k) = seg d i n ++ seg d (i + n) k := by
  unfold seg
  rw [List.range_add, List.map_append, List.map_map]
  simp only [Function.comp_def, Nat.add_assoc]

theorem seg_succ (d : ℕ → Limb) (i n : ℕ) : seg d i (n + 1) = d i :: seg d (i + 1) n := by
  rw [Nat.add_comm, seg_add]
  simp [seg]

theorem getElem?_seg (hj : j < n) : (seg d i n)[j]? = some (d (i + j)) := by
  simp [seg, hj]

theorem write_nil (d : ℕ → Limb) (i : ℕ) : write d i [] = d := by
  funext j
  simp [write]

theorem write_of_lt (h : j < i) : write d i out j = d j := by
  simp [write, Nat.not_le_of_lt h]

theorem write_of_ge (h : i + out.length ≤ j) : write d i out j = d j := by
  unfold write
  split
  · rw [List.getElem?_eq_none (by omega)]
    rfl
  · rfl

theorem write_cons (d : ℕ → Limb) (i : ℕ) (x : Limb) (out : List Limb) :
    write d i (x :: out) = write (Function.update d i x) (i + 1) out := by
  funext j
  rcases Nat.lt_trichotomy j i with hlt | rfl | hgt
  · rw [write_of_lt hlt, write_of_lt (by omega), Function.update_of_ne (by omega)]
  · rw [write_of_lt (Nat.lt_succ_self j), Function.update_self]
    simp [write]
  · obtain ⟨e, rfl⟩ : ∃ e, j = i + 1 + e := ⟨j - (i + 1), by omega⟩
    have hidx : i + 1 + e - i = e + 1 := by omega
    unfold write
    rw [if_pos (by omega), if_pos (by omega), hidx, List.getElem?_cons_succ,
      Nat.add_sub_cancel_left, Function.update_of_ne (by omega)]

theorem write_append (d : ℕ → Limb) (i : ℕ) (out out' : List Limb) :
    write d i (out ++ out') = write (write d i out) (i + out.length) out' := by
  induction out generalizing d i with
  | nil => rw [List.nil_append, write_nil, List.length_nil, Nat.add_zero]
  | cons x out ih =>
    rw [List.cons_append, write_cons, ih, write_cons, List.length_cons]
    congr 1
    omega

theorem seg_write (d : ℕ → Limb) (i : ℕ) (out : List Limb) :
    seg (write d i out) i out.length = out := by
  induction out generalizing d i with
  | nil => rfl
  | cons x out ih =>
    rw [List.length_cons, seg_succ, write_cons, ih, write_of_lt (Nat.lt_succ_self i),
      Function.update_self]

theorem seg_congr {d' : ℕ → Limb} (h : ∀ j, j < n → d' (i + j) = d (i + j)) :
    seg d' i n = seg d i n := by
  apply List.map_congr_left
  intro j hj
  exact h j (List.mem_range.mp hj)

theorem seg_write_of_ge (h : i + out.length ≤ j) : seg (write d i out) j n = seg d j n :=
  seg_congr fun _ _ => write_of_ge (by omega)

theorem seg_write_of_le (h : j + n ≤ i) : seg (write d i out) j n = seg d j n :=
  seg_congr fun _ _ => write_of_lt (by omega)

theorem take_seg (h : k ≤ n) : (seg d i n).take k = seg d i k := by
  obtain ⟨e, rfl⟩ := Nat.exists_eq_add_of_le h
  rw [seg_add]
  exact List.take_left' (length_seg ..)

theorem drop_seg (h : k ≤ n) : (seg d i n).drop k = seg d (i + k) (n - k) := by
  obtain ⟨e, rfl⟩ := Nat.exists_eq_add_of_le h
  rw [seg_add, Nat.add_sub_cancel_left]
  exact List.drop_left' (length_seg ..)

theorem toInt_of_nonneg {x : MpVar} (h : 0 ≤ x.size) : x.toInt = x.mag := if_neg (by omega)

theorem toInt_of_nonpos {x : MpVar} (h : x.size ≤ 0) : x.toInt = -(x.mag : ℤ) := by
  unfold toInt
  split
  · rfl
  · have hzero : x.size.natAbs = 0 := by omega
    rw [mag, hzero]
    rfl

theorem wf_of_used {x : MpVar} {l : List Limb} (hseg : seg x.d 0 l.length = l)
    (halloc : l.length ≤ x.alloc) (hsize : x.size.natAbs = Words.lastUsed 0 0 l) :
    x.Wf ∧ x.mag = Words.val l := by
  have hle := Words.lastUsed_le l
  have hlimbs : seg x.d 0 x.size.natAbs = l.rdropWhile (· == 0#64) := by
    rw [← Words.take_lastUsed, hsize, ← take_seg hle, hseg]
  refine ⟨⟨by omega, ?_⟩, ?_⟩
  · rw [hlimbs]
    exact Words.getLast?_rdropWhile l
  · rw [mag, hlimbs, Words.val_rdropWhile]

end MpVar

abbrev Vars (ι : Type) := ι → MpVar

namespace Vars

variable {ι : Type} [DecidableEq ι]

/-- A limb is read; `none` outside of the space allocated. -/
def limb (st : Vars ι) (v : ι) (i : ℕ) : Option Limb :=
  if i < (st v).alloc then some ((st v).d i) else none

def put (st : Vars ι) (v : ι) (i : ℕ) (x : Limb) : Option (Vars ι) :=
  if i < (st v).alloc then
    some (Function.update st v { st v with d := Function.update (st v).d i x })
  else none

def setSize (st : Vars ι) (v : ι) (n : ℤ) : Vars ι :=
  Function.update st v { st v with size := n }

def realloc (st : Vars ι) (v : ι) (n : ℕ) : Vars ι :=
  Function.update st v ((st v).realloc n)

/-- The limbs `out` in the variable `v` from place `i` on. -/
def write (st : Vars ι) (v : ι) (i : ℕ) (out : List Limb) : Vars ι :=
  Function.update st v { st v with d := MpVar.write (st v).d i out }

variable {st st' : Vars ι} {v r : ι} {i j n : ℕ} {x : Limb}

omit [DecidableEq ι] in
theorem limb_eq (h : i < (st v).alloc) : st.limb v i = some ((st v).d i) := if_pos h

theorem put_eq (h : i < (st v).alloc) : st.put v i x = some (st.write v i [x]) := by
  unfold put write
  rw [if_pos h, MpVar.write_cons, MpVar.write_nil]

@[simp] theorem write_self (st : Vars ι) (v : ι) (i : ℕ) (out : List Limb) :
    st.write v i out v = { st v with d := MpVar.write (st v).d i out } :=
  Function.update_self ..

theorem seg_write (st : Vars ι) (v : ι) (i : ℕ) (out : List Limb) :
    MpVar.seg (st.write v i out v).d i out.length = out := by
  rw [write_self]
  exact MpVar.seg_write (st v).d i out

theorem write_of_ne {u : ι} (h : u ≠ v) (i : ℕ) (out : List Limb) : st.write v i out u = st u :=
  Function.update_of_ne h ..

@[simp] theorem write_nil (st : Vars ι) (v : ι) (i : ℕ) : st.write v i [] = st := by
  unfold write
  rw [MpVar.write_nil]
  exact Function.update_eq_self v st

theorem write_append (st : Vars ι) (v : ι) (i : ℕ) (out out' : List Limb) :
    st.write v i (out ++ out') = (st.write v i out).write v (i + out.length) out' := by
  unfold write
  rw [Function.update_self, Function.update_idem, MpVar.write_append]

theorem write_cons (st : Vars ι) (v : ι) (i : ℕ) (x : Limb) (out : List Limb) :
    st.write v i (x :: out) = (st.write v i [x]).write v (i + 1) out := by
  rw [← List.singleton_append, write_append, List.length_singleton]

@[simp] theorem size_write (st : Vars ι) (v u : ι) (i : ℕ) (out : List Limb) :
    (st.write v i out u).size = (st u).size := by
  by_cases h : u = v
  · subst h
    rw [write_self]
  · rw [write_of_ne h]

@[simp] theorem alloc_write (st : Vars ι) (v u : ι) (i : ℕ) (out : List Limb) :
    (st.write v i out u).alloc = (st u).alloc := by
  by_cases h : u = v
  · subst h
    rw [write_self]
  · rw [write_of_ne h]

/-- A `for` loop: `n` times from place `i` on, what `read` finds at the place decides what limb of
`r` is written there, the next state, and whether the loop breaks. -/
def limbLoop {α σ : Type} (read : Vars ι → ℕ → Option α) (r : ι)
    (body : ℕ → α → σ → Limb × σ × Bool) : ℕ → ℕ → σ → Vars ι → Option (ℕ × σ × Vars ι)
  | 0, i, s, st => some (i, s, st)
  | n + 1, i, s, st => do
      let x ← read st i
      let (limb, s, brk) := body i x s
      let st ← st.put r i limb
      if brk then some (i + 1, s, st) else limbLoop read r body n (i + 1) s st

/-- What such a loop writes, and the state it ends in. -/
def scan {α σ : Type} (body : ℕ → α → σ → Limb × σ × Bool) : ℕ → σ → List α → List Limb × σ
  | _, s, [] => ([], s)
  | i, s, x :: xs =>
    let (limb, s, brk) := body i x s
    if brk then ([limb], s) else (limb :: (scan body (i + 1) s xs).1, (scan body (i + 1) s xs).2)

/-- Place `i` is as before in every variable. -/
def AgreeAt (st st' : Vars ι) (i : ℕ) : Prop :=
  ∀ v, (st' v).alloc = (st v).alloc ∧ (st' v).d i = (st v).d i

/-- `read` finds `x` at place `i`, and looks at no other place. -/
def ReadsAt {α : Type} (read : Vars ι → ℕ → Option α) (st : Vars ι) (i : ℕ) (x : α) : Prop :=
  ∀ st', AgreeAt st st' i → read st' i = some x

omit [DecidableEq ι] in
theorem AgreeAt.refl (st : Vars ι) (i : ℕ) : AgreeAt st st i := fun _ => ⟨rfl, rfl⟩

theorem AgreeAt.write (h : AgreeAt st st' j) {out : List Limb}
    (hout : j < i ∨ i + out.length ≤ j) : AgreeAt st (st'.write r i out) j := by
  intro v
  refine ⟨(alloc_write ..).trans (h v).1, ?_⟩
  by_cases hv : v = r
  · subst hv
    rw [write_self]
    rcases hout with hlt | hge
    · exact (MpVar.write_of_lt hlt).trans (h v).2
    · exact (MpVar.write_of_ge hge).trans (h v).2
  · rw [write_of_ne hv]
    exact (h v).2

section

variable {α σ : Type} {body : ℕ → α → σ → Limb × σ × Bool} {s : σ} {y : α} {xs : List α}

end

theorem limbLoop_eq {α σ : Type} (read : Vars ι → ℕ → Option α)
    (body : ℕ → α → σ → Limb × σ × Bool) (st₀ : Vars ι) (i : ℕ) (s : σ) (xs : List α)
    (hread : ∀ (j : ℕ) (x : α), xs[j]? = some x → ReadsAt read st₀ (i + j) x)
    (hagree : ∀ j, j < xs.length → AgreeAt st₀ st (i + j)) (hroom : i + xs.length ≤ (st r).alloc) :
    limbLoop read r body xs.length i s st =
      some (i + (scan body i s xs).1.length, (scan body i s xs).2,
        st.write r i (scan body i s xs).1) := by
  induction xs generalizing i s st with
  | nil => simp [limbLoop, scan]
  | cons x xs ih =>
    have hx : read st i = some x := hread 0 x rfl st (hagree 0 (by simp))
    rw [List.length_cons] at hroom
    have hput : ∀ limb, st.put r i limb = some (st.write r i [limb]) := fun limb =>
      put_eq (by omega)
    rw [List.length_cons, limbLoop, scan, hx]
    simp only [Option.bind_eq_bind, Option.bind_some, hput]
    split
    · rfl
    · rw [ih]
      · simp only [List.length_cons]
        rw [write_cons _ _ _ _ (scan body (i + 1) (body i x s).2.1 xs).1]
        congr 2
        omega
      · intro j y hj
        have hnext := hread (j + 1) y (by rw [List.getElem?_cons_succ]; exact hj)
        rwa [Nat.add_comm j, ← Nat.add_assoc] at hnext
      · intro j hj
        have hnext := hagree (j + 1) (by rw [List.length_cons]; omega)
        rw [Nat.add_comm j, ← Nat.add_assoc] at hnext
        exact hnext.write (Or.inr (by rw [List.length_singleton]; omega))
      · rw [alloc_write]
        omega

end Vars

end Sfslite.Crypt
