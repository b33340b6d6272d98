import Mathlib.Tactic.Ring

/-!
A memory of bytes. Numbers are stored over several bytes, the lowest first.
-/

namespace Sfslite.Lib

/-- The byte at every address. -/
abbrev Memory := ℕ → UInt8

namespace Memory

/-- The number in the `n` bytes at `a`. -/
def load (m : Memory) : ℕ → ℕ → ℕ
  | 0, _ => 0
  | n + 1, a => (m a).toNat + 256 * load m n (a + 1)

/-- The number `v` goes into the `n` bytes at `a`. -/
def store (m : Memory) (n a v : ℕ) : Memory :=
  fun x => if a ≤ x ∧ x < a + n then UInt8.ofNat (v / 256 ^ (x - a)) else m x

/-- The `n` bytes at `a` become `b`. -/
def fill (m : Memory) (a n : ℕ) (b : UInt8) : Memory :=
  fun x => if a ≤ x ∧ x < a + n then b else m x

/-- The `n` bytes at `src` go to `dst`. The ranges may overlap. -/
def move (m : Memory) (dst src n : ℕ) : Memory :=
  fun x => if dst ≤ x ∧ x < dst + n then m (src + (x - dst)) else m x

/-- The memories have the same `n` bytes at `a`. -/
def Same (m m' : Memory) (a n : ℕ) : Prop :=
  ∀ x, a ≤ x → x < a + n → m' x = m x

variable {m m' m'' : Memory} {a b n k v x : ℕ} {c : UInt8}

theorem Same.refl (m : Memory) (a n : ℕ) : Same m m a n :=
  fun _ _ _ => rfl

theorem Same.trans (h : Same m m' a n) (h' : Same m' m'' a n) : Same m m'' a n :=
  fun x hlo hhi => (h' x hlo hhi).trans (h x hlo hhi)

theorem Same.sub (h : Same m m' a n) (hlo : a ≤ b) (hhi : b + k ≤ a + n) : Same m m' b k :=
  fun x hx hx' => h x (hlo.trans hx) (lt_of_lt_of_le hx' hhi)

theorem same_store (h : b + k ≤ a ∨ a + n ≤ b) : Same m (m.store n a v) b k := by
  intro x hlo hhi
  apply if_neg
  omega

theorem same_fill (h : b + k ≤ a ∨ a + n ≤ b) : Same m (m.fill a n c) b k := by
  intro x hlo hhi
  apply if_neg
  omega

theorem same_move {src : ℕ} (h : b + k ≤ a ∨ a + n ≤ b) : Same m (m.move a src n) b k := by
  intro x hlo hhi
  apply if_neg
  omega

theorem Same.load (h : Same m m' a n) : m'.load n a = m.load n a := by
  induction n generalizing a with
  | zero => rfl
  | succ n ih =>
    have hrest : Same m m' (a + 1) n := h.sub (by omega) (by omega)
    rw [Memory.load, Memory.load, ih hrest, h a (le_refl a) (by omega)]

theorem load_of_bytes (h : ∀ i, i < n → m (a + i) = UInt8.ofNat (v / 256 ^ i)) :
    m.load n a = v % 256 ^ n := by
  induction n generalizing a v with
  | zero =>
    rw [pow_zero, Nat.mod_one]
    rfl
  | succ n ih =>
    have hrest : m.load n (a + 1) = v / 256 % 256 ^ n := by
      apply ih
      intro i hi
      have hbyte := h (i + 1) (by omega)
      rw [pow_succ', ← Nat.div_div_eq_div_mul] at hbyte
      rw [← hbyte, Nat.add_assoc, Nat.add_comm 1 i]
    have hfirst : (m a).toNat = v % 256 := by
      have hbyte := h 0 (Nat.succ_pos n)
      rw [Nat.add_zero, pow_zero, Nat.div_one] at hbyte
      rw [hbyte]
      rfl
    rw [load, hrest, hfirst, pow_succ', Nat.mod_mul]

theorem load_store (m : Memory) (n a v : ℕ) : (m.store n a v).load n a = v % 256 ^ n := by
  apply load_of_bytes
  intro i hi
  have hin : a ≤ a + i ∧ a + i < a + n := by omega
  rw [store, if_pos hin, Nat.add_sub_cancel_left]

theorem load_store_of_lt (h : v < 256 ^ n) : (m.store n a v).load n a = v := by
  rw [load_store, Nat.mod_eq_of_lt h]

theorem load_store_of_ne (h : b + k ≤ a ∨ a + n ≤ b) : (m.store n a v).load k b = m.load k b :=
  (same_store h).load

theorem move_apply {src : ℕ} (h : x < n) : (m.move a src n) (a + x) = m (src + x) := by
  have hin : a ≤ a + x ∧ a + x < a + n := by omega
  rw [move, if_pos hin, Nat.add_sub_cancel_left]

end Memory

end Sfslite.Lib
