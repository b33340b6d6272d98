import Mathlib.Algebra.Group.Nat.Defs
import Mathlib.Data.List.Basic

/-!
`wide_str_t` of `wide_str.C`. A copy of a string has the vector of the original behind the same
reference-counted pointer. A check that fails answers `none`.
-/

namespace Sfslite.Async

abbrev Wchar :=
  BitVec 32

/-- A string: `_buf`, the address of its vector, with `_len` and `_err`. -/
structure WideStr where
  buf : Option ℕ
  len : ℕ
  err : Bool
deriving DecidableEq, Repr

namespace WideStr

/-- The vectors, by address. -/
abbrev Heap :=
  ℕ → List Wchar

/-- `_init (l)`: the vector gets the memory at `a`. -/
def init (h : Heap) (a l : ℕ) : Heap × WideStr :=
  (Function.update h a (List.replicate (l + 1) 0), ⟨some a, l, false⟩)

/-- `wide_str_t (in, l)` -/
def ofWide (h : Heap) (a : ℕ) (s : List Wchar) : Heap × WideStr :=
  let (h, w) := init h a s.length
  (Function.update h a (s ++ (h a).drop s.length), w)

/-- `popn_front`, with its `pcheck`. -/
def popnFront (v : List Wchar) (n : ℕ) : Option (List Wchar) :=
  if n ≤ v.length then some (v.drop n) else none

def chop (h : Heap) (w : WideStr) (start len : ℕ) : Option (Heap × WideStr) :=
  match w.buf with
  | none => some (h, w)
  | some b => do
      let n := min w.len start
      let v ← popnFront (h b) n
      let left := w.len - n
      if len < left then
        if len < v.length then some (Function.update h b (v.set len 0), { w with len := len })
        else none
      else some (Function.update h b v, { w with len := left })

def substr (h : Heap) (w : WideStr) (start len : ℕ) : Option (Heap × WideStr) :=
  chop h w start len

/-- The code points of a string: `_len` places from `_buf->base ()` on. -/
def contents (h : Heap) (w : WideStr) : Option (List Wchar) :=
  match w.buf with
  | none => none
  | some b => if w.len ≤ (h b).length then some ((h b).take w.len) else none

def Valid (h : Heap) (w : WideStr) : Prop :=
  ∀ b, w.buf = some b → w.len ≤ (h b).length

/-- The code points asked for come back, and the string reads as it did. -/
def Pure (h : Heap) (w : WideStr) (start len : ℕ) : Prop :=
  ∃ h' r, substr h w start len = some (h', r) ∧
    contents h' r = (contents h w).map (fun s => (s.drop start).take len) ∧
    contents h' w = contents h w

/-- The vector is as long as `n` more than the string and repeats after `n` places, up to the place
of the code point that is cut off, which is NUL. -/
structure Repeats (v : List Wchar) (l n len : ℕ) : Prop where
  room : n + l ≤ v.length
  shift : ∀ i < l, ¬(i = len ∧ len < l - n) → v[n + i]? = v[i]?
  cut : len < l - n → v[len]? = some 0

variable {h : Heap} {w : WideStr} {b start len : ℕ}

/-- The vector after `chop`. -/
def chopped (v : List Wchar) (l n len : ℕ) : List Wchar :=
  if len < l - n then (v.drop n).set len 0 else v.drop n

theorem substr_eq (hb : w.buf = some b) (hl : w.len ≤ (h b).length) (start len : ℕ) :
    substr h w start len = some
      (Function.update h b (chopped (h b) w.len (min w.len start) len),
        { w with len := min len (w.len - min w.len start) }) := by
  have hn : min w.len start ≤ (h b).length := by omega
  simp only [substr, chop, hb, popnFront, hn, if_true, Option.bind_eq_bind, Option.bind_some,
    chopped, List.length_drop]
  by_cases hc : len < w.len - min w.len start
  · have hd : len < (h b).length - min w.len start := by omega
    have hm : min len (w.len - min w.len start) = len := Nat.min_eq_left (Nat.le_of_lt hc)
    simp [hc, hd, hm]
  · simp [hc, Nat.min_eq_right (Nat.not_lt.mp hc)]

theorem length_chopped (v : List Wchar) (l n len : ℕ) :
    (chopped v l n len).length = v.length - n := by
  unfold chopped
  split <;> simp

variable {v : List Wchar}

theorem getElem?_chopped {l n len i : ℕ}
    (hi : ¬(i = len ∧ len < l - n)) : (chopped v l n len)[i]? = v[n + i]? := by
  unfold chopped
  split
  case isTrue hc =>
    have hne : len ≠ i := fun he => hi ⟨he.symm, hc⟩
    rw [List.getElem?_set_ne hne, List.getElem?_drop]
  case isFalse => rw [List.getElem?_drop]

theorem getElem?_chopped_cut {l n len : ℕ} (hl : l ≤ v.length)
    (hc : len < l - n) : (chopped v l n len)[len]? = some 0 := by
  have hd : len < (v.drop n).length := by
    rw [List.length_drop]
    omega
  rw [chopped, if_pos hc, List.getElem?_set_self hd]

theorem take_chopped {l : ℕ} (hl : l ≤ v.length) (start len : ℕ) :
    (chopped v l (min l start) len).take (min len (l - min l start)) =
      ((v.take l).drop start).take len := by
  apply List.ext_getElem?
  intro i
  by_cases hi : i < min len (l - min l start)
  · have hne : ¬(i = len ∧ len < l - min l start) := by omega
    have hmin : min l start = start := by omega
    rw [List.getElem?_take_of_lt hi, getElem?_chopped hne,
      List.getElem?_take_of_lt (by omega), List.getElem?_drop,
      List.getElem?_take_of_lt (by omega), hmin]
  · have hnone : (((v.take l).drop start).take len)[i]? = none := by
      rw [List.getElem?_eq_none_iff, List.length_take, List.length_drop, List.length_take]
      omega
    rw [hnone, List.getElem?_take_eq_none (by omega)]

theorem take_chopped_iff {l n len : ℕ} (hl : l ≤ v.length) (hn : n ≤ l) :
    (l ≤ (chopped v l n len).length ∧ (chopped v l n len).take l = v.take l) ↔
      Repeats v l n len := by
  rw [length_chopped]
  constructor
  · rintro ⟨hroom, htake⟩
    have hat : ∀ i < l, (chopped v l n len)[i]? = v[i]? := by
      intro i hi
      have := congrArg (fun s => s[i]?) htake
      simpa only [List.getElem?_take_of_lt hi] using this
    constructor
    · omega
    · intro i hi hne
      rw [← getElem?_chopped hne]
      exact hat i hi
    · intro hc
      rw [← hat len (by omega)]
      exact getElem?_chopped_cut hl hc
  · intro hr
    constructor
    · have := hr.room
      omega
    · apply List.ext_getElem?
      intro i
      by_cases hi : i < l
      · rw [List.getElem?_take_of_lt hi, List.getElem?_take_of_lt hi]
        by_cases hc : i = len ∧ len < l - n
        · obtain ⟨rfl, hc⟩ := hc
          rw [getElem?_chopped_cut hl hc, hr.cut hc]
        · rw [getElem?_chopped hc, hr.shift i hi hc]
      · rw [List.getElem?_take_eq_none (by omega), List.getElem?_take_eq_none (by omega)]

/-- `substr` is pure exactly when the vector repeats, after as many places as it takes off the
front, up to the place where it puts a NUL. -/
theorem substr_pure_iff (hw : Valid h w) (start len : ℕ) :
    Pure h w start len ↔ ∀ b, w.buf = some b → Repeats (h b) w.len (min w.len start) len := by
  cases hb : w.buf with
  | none =>
    have hnone : ∀ h' : Heap, contents h' w = none := fun h' => by simp [contents, hb]
    have hpure : Pure h w start len := by
      exists h, w
      simp [substr, chop, hb, hnone]
    simp [hpure]
  | some b =>
    have hl := hw b hb
    have hread : ∀ h' : Heap, contents h' w =
        if w.len ≤ (h' b).length then some ((h' b).take w.len) else none := by
      intro h'
      simp [contents, hb]
    have hres : contents (Function.update h b (chopped (h b) w.len (min w.len start) len))
        { w with len := min len (w.len - min w.len start) } =
          (contents h w).map fun s => (s.drop start).take len := by
      have hlen : min len (w.len - min w.len start) ≤
          (chopped (h b) w.len (min w.len start) len).length := by
        rw [length_chopped]
        omega
      have htake := take_chopped hl start len
      simp only [contents, hb, Function.update_self, hlen, hl, if_true, htake, Option.map_some]
    have hsame : contents (Function.update h b (chopped (h b) w.len (min w.len start) len)) w =
        contents h w ↔ Repeats (h b) w.len (min w.len start) len := by
      rw [hread, hread, Function.update_self, if_pos hl,
        ← take_chopped_iff hl (Nat.min_le_left w.len start)]
      split <;> simp [*]
    simp only [Pure, substr_eq hb hl, Option.some.injEq, Prod.mk.injEq, forall_eq']
    rw [← hsame]
    constructor
    · rintro ⟨h', r, ⟨rfl, rfl⟩, -, hkeep⟩
      exact hkeep
    · intro hkeep
      exact ⟨_, _, ⟨rfl, rfl⟩, hres, hkeep⟩

/-- All of a string of two code points. -/
theorem substr_pure_all :
    Pure (ofWide (fun _ => []) 0 [97, 98]).1 (ofWide (fun _ => []) 0 [97, 98]).2 0 5 := by
  have hv : Valid (ofWide (fun _ => []) 0 [97, 98]).1 (ofWide (fun _ => []) 0 [97, 98]).2 := by
    rintro b ⟨⟩
    decide
  apply (substr_pure_iff hv 0 5).mpr
  rintro b ⟨⟩
  constructor
  · decide
  · simp
  · decide

/-- `substr (1)` takes the first code point off the original as well. -/
theorem substr_second :
    ¬ Pure (ofWide (fun _ => []) 0 [97, 98]).1 (ofWide (fun _ => []) 0 [97, 98]).2
      1 (2 ^ 64 - 1) := by
  rintro ⟨h', r, hsub, -, hkeep⟩
  have hh : h' 0 = [98, 0] := by
    have := congrArg (Option.map fun p : Heap × WideStr => p.1 0) hsub
    exact (Option.some.inj this).symm
  have : contents h' (ofWide (fun _ => []) 0 [97, 98]).2 = some [98, 0] := by
    simp [contents, ofWide, init, hh]
  rw [this] at hkeep
  revert hkeep
  decide

end WideStr

end Sfslite.Async
