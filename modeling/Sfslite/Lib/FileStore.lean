import Mathlib.Data.List.Basic

/-!
Files under names. A name leads to a number and the number to the contents, so that a
file that is open stays when its name is removed. No two names lead to one file.
-/

namespace Sfslite.Lib

variable {N α : Type}

/-- `v` is put over `d` from `pos` on. What lies between the end and `pos` is filled with `z`. -/
def overwrite (z : α) (d : List α) (pos : ℕ) (v : List α) : List α :=
  if v.isEmpty then d
  else (d ++ List.replicate (pos - d.length) z).take pos ++ v ++ d.drop (pos + v.length)

@[simp] theorem overwrite_nil (z : α) (d : List α) (pos : ℕ) : overwrite z d pos [] = d := rfl

theorem overwrite_prefix (z : α) {p d : List α} (v : List α) (h : p <+: d) :
    p ++ v <+: overwrite z d p.length v := by
  obtain ⟨s, rfl⟩ := h
  cases v with
  | nil => simp
  | cons b v =>
    refine ⟨(p ++ s).drop (p.length + (b :: v).length), ?_⟩
    simp only [overwrite, List.isEmpty_cons, Bool.false_eq_true, if_false]
    rw [List.append_assoc p s, List.take_left' rfl]

theorem overwrite_middle (z : α) (a s : List α) {p v : List α} (hlen : p.length = v.length) :
    overwrite z (a ++ p ++ s) a.length v = a ++ v ++ s := by
  cases v with
  | nil =>
    obtain rfl := List.length_eq_zero_iff.mp hlen
    rfl
  | cons b v =>
    simp only [overwrite, List.isEmpty_cons, Bool.false_eq_true, if_false]
    rw [List.append_assoc a p, List.append_assoc a (p ++ s), List.take_left' rfl,
      List.drop_append, ← hlen, Nat.add_sub_cancel_left, List.drop_left' rfl,
      List.drop_eq_nil_of_le (Nat.le_add_right _ _), List.nil_append]

structure FileStore (N α : Type) where
  dir : N → Option ℕ
  data : ℕ → List α
  next : ℕ
  bound : ∀ n i, dir n = some i → i < next
  inj : ∀ m n i, dir m = some i → dir n = some i → m = n

namespace FileStore

def write (fs : FileStore N α) (z : α) (i pos : ℕ) (v : List α) : FileStore N α :=
  { fs with data := Function.update fs.data i (overwrite z (fs.data i) pos v) }

def read (fs : FileStore N α) (i pos len : ℕ) : List α :=
  ((fs.data i).drop pos).take len

variable (fs : FileStore N α) {m n : N} {i j : ℕ}

@[simp] theorem dir_write (z : α) (pos : ℕ) (v : List α) : (fs.write z i pos v).dir = fs.dir := rfl

theorem data_write_self (z : α) (pos : ℕ) (v : List α) :
    (fs.write z i pos v).data i = overwrite z (fs.data i) pos v :=
  Function.update_self ..

theorem data_write_of_ne (z : α) (pos : ℕ) (v : List α) (h : j ≠ i) :
    (fs.write z i pos v).data j = fs.data j :=
  Function.update_of_ne h ..

variable [DecidableEq N]

theorem bound_create {m : N} {i : ℕ} (h : Function.update fs.dir n (some fs.next) m = some i) :
    i < fs.next + 1 := by
  by_cases hmn : m = n
  · rw [hmn, Function.update_self, Option.some.injEq] at h
    omega
  · rw [Function.update_of_ne hmn] at h
    exact Nat.lt_succ_of_lt (fs.bound m i h)

theorem inj_create {l m : N} {i : ℕ} (hl : Function.update fs.dir n (some fs.next) l = some i)
    (hm : Function.update fs.dir n (some fs.next) m = some i) : l = m := by
  by_cases hln : l = n <;> by_cases hmn : m = n
  · rw [hln, hmn]
  · rw [hln, Function.update_self, Option.some.injEq] at hl
    rw [Function.update_of_ne hmn] at hm
    exact absurd (fs.bound m i hm) (by omega)
  · rw [hmn, Function.update_self, Option.some.injEq] at hm
    rw [Function.update_of_ne hln] at hl
    exact absurd (fs.bound l i hl) (by omega)
  · rw [Function.update_of_ne hln] at hl
    rw [Function.update_of_ne hmn] at hm
    exact fs.inj l m i hl hm

/-- The file of a name, a new empty one if there is none. -/
def create (n : N) : FileStore N α × ℕ :=
  match fs.dir n with
  | some i => (fs, i)
  | none =>
    ({ dir := Function.update fs.dir n (some fs.next)
       data := Function.update fs.data fs.next []
       next := fs.next + 1
       bound := fun _ _ => fs.bound_create
       inj := fun _ _ _ => fs.inj_create }, fs.next)

theorem dir_of_unlink {m : N} {i : ℕ} (h : Function.update fs.dir n none m = some i) :
    fs.dir m = some i := by
  by_cases hmn : m = n
  · simp [hmn] at h
  · rwa [Function.update_of_ne hmn] at h

def unlink (n : N) : FileStore N α :=
  { fs with
    dir := Function.update fs.dir n none
    bound := fun m i hm => fs.bound m i (fs.dir_of_unlink hm)
    inj := fun l m i hl hm => fs.inj l m i (fs.dir_of_unlink hl) (fs.dir_of_unlink hm) }

theorem dir_create_self : (fs.create n).1.dir n = some (fs.create n).2 := by
  unfold create
  split
  · next h => exact h
  · exact Function.update_self ..

theorem dir_create_of_ne (h : m ≠ n) : (fs.create n).1.dir m = fs.dir m := by
  unfold create
  split
  · rfl
  · exact Function.update_of_ne h ..

theorem data_create (h : fs.dir m = some j) : (fs.create n).1.data j = fs.data j := by
  unfold create
  split
  · rfl
  · exact Function.update_of_ne (Nat.ne_of_lt (fs.bound m j h)) ..

theorem dir_unlink_of_ne (h : m ≠ n) : (fs.unlink n).dir m = fs.dir m :=
  Function.update_of_ne h ..

end FileStore

end Sfslite.Lib
