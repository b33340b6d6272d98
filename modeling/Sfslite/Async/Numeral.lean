import Sfslite.Async.Convertint

/-!
Numerals as `strtol` and `strtoi64` know them: blanks, a sign, a prefix that says the base, digits.
-/

namespace Sfslite.Async.Convertint

open Sfslite.Arpc (Byte)

/-- A digit of base `k`. -/
def isDigitOf (k : ℕ) (c : Byte) : Bool :=
  (digitValue c).any (· < k)

/-- The number that the digits of base `k` stand for behind others that stand for `acc`. -/
def digitsValue (k acc : ℕ) (ds : List Byte) : ℕ :=
  ds.foldl (fun acc c => acc * k + (digitValue c).getD 0) acc

/-- At least one digit of base `k`. -/
structure Digits (k : ℕ) (ds : List Byte) (n : ℕ) : Prop where
  ne : ds ≠ []
  all : ∀ c ∈ ds, isDigitOf k c
  value : n = digitsValue k 0 ds

/-- The part of a numeral behind the sign. -/
inductive Body (base : ℤ) : List Byte → ℕ → Prop
  | digits (ds : List Byte) (n : ℕ) : base ≠ 0 → Digits base.toNat ds n → Body base ds n
  | hex (x : Byte) (ds : List Byte) (n : ℕ) : base = 0 ∨ base = 16 → x = 0x78#8 ∨ x = 0x58#8 →
      Digits 16 ds n → Body base (0x30#8 :: x :: ds) n
  | octal (ds : List Byte) (n : ℕ) : base = 0 → deref ds = 0x30#8 → Digits 8 ds n → Body base ds n
  | decimal (ds : List Byte) (n : ℕ) : base = 0 → deref ds ≠ 0x30#8 → Digits 10 ds n →
      Body base ds n

/-- A text that is a numeral, and its value. -/
inductive Numeral (base : ℤ) : List Byte → ℤ → Prop
  | plus (blanks sign body : List Byte) (n : ℕ) : (∀ c ∈ blanks, isspace c) →
      sign = [] ∨ sign = [0x2b#8] → Body base body n → Numeral base (blanks ++ (sign ++ body)) n
  | minus (blanks body : List Byte) (n : ℕ) : (∀ c ∈ blanks, isspace c) → Body base body n →
      Numeral base (blanks ++ 0x2d#8 :: body) (-n)

/-- The sign behind the blanks, and what comes then. -/
def unsign (s : List Byte) : Bool × List Byte :=
  let s := s.dropWhile isspace
  (deref s = 0x2d#8, if deref s = 0x2d#8 ∨ deref s = 0x2b#8 then s.tail else s)

def hexPrefix (base : ℤ) (s : List Byte) : Bool :=
  (base = 0 ∨ base = 16) ∧ deref s = 0x30#8 ∧ (deref s.tail = 0x78#8 ∨ deref s.tail = 0x58#8)

/-- The base that `s` is read in. -/
def radix (base : ℤ) (s : List Byte) : ℕ :=
  if hexPrefix base s then 16
  else if base = 0 then (if deref s = 0x30#8 then 8 else 10)
  else base.toNat

/-- The digits of `s`. -/
def stripPrefix (base : ℤ) (s : List Byte) : List Byte :=
  if hexPrefix base s then s.drop 2 else s

variable {base : ℤ} {k n : ℕ} {s b : List Byte} {z : ℤ}

theorem isDigitOf_iff {c : Byte} : isDigitOf k c = true ↔ ∃ d, digitValue c = some d ∧ d < k := by
  rw [isDigitOf]
  cases digitValue c with
  | none => simp
  | some d => simp

theorem isDigitOf_mono {k' : ℕ} {c : Byte} (hk : k ≤ k') (hc : isDigitOf k c = true) :
    isDigitOf k' c = true := by
  obtain ⟨d, hd, hlt⟩ := isDigitOf_iff.mp hc
  exact isDigitOf_iff.mpr ⟨d, hd, by omega⟩

theorem isDigitOf_plain {c : Byte} (hc : isDigitOf k c = true) :
    isspace c = false ∧ c ≠ 0x2d#8 ∧ c ≠ 0x2b#8 ∧ c ≠ 0#8 := by
  obtain ⟨d, hd, -⟩ := isDigitOf_iff.mp hc
  have hall : ∀ c : Byte, (digitValue c).isSome →
      isspace c = false ∧ c ≠ 0x2d#8 ∧ c ≠ 0x2b#8 ∧ c ≠ 0#8 := by decide
  exact hall c (by rw [hd]; rfl)

theorem isDigitOf_sixteen_x (c : Byte) (hc : c = 0x78#8 ∨ c = 0x58#8) : isDigitOf 16 c = false := by
  rcases hc with rfl | rfl <;> rfl

theorem Digits.deref (h : Digits k b n) : isDigitOf k (deref b) := by
  cases b with
  | nil => exact absurd rfl h.ne
  | cons c b => exact h.all c List.mem_cons_self

theorem Digits.not_hexPrefix (h : Digits k b n) (hk : k ≤ 16) (base : ℤ) :
    hexPrefix base b = false := by
  rw [hexPrefix, decide_eq_false_iff_not]
  rintro ⟨-, h0, hx⟩
  match b with
  | [] => exact h.ne rfl
  | [c] => exact absurd (show 0#8 = 0x78#8 ∨ 0#8 = 0x58#8 from hx) (by decide)
  | c :: x :: ds =>
    have hdigit := isDigitOf_mono hk (h.all x (by simp))
    rw [isDigitOf_sixteen_x x hx] at hdigit
    cases hdigit

theorem body_iff : Body base b n ↔ Digits (radix base b) (stripPrefix base b) n := by
  constructor
  · intro h
    cases h with
    | digits _ _ hne hd =>
      have hhex : hexPrefix base b = false := by
        by_cases h16 : base = 16
        · exact hd.not_hexPrefix (by omega) base
        · simp [hexPrefix, hne, h16]
      simpa [radix, stripPrefix, hhex, hne] using hd
    | hex x ds _ hbase hx hd =>
      have hhex : hexPrefix base (0x30#8 :: x :: ds) = true := by
        simpa [hexPrefix, deref, hbase] using hx
      simpa [radix, stripPrefix, hhex] using hd
    | octal _ _ h0 h30 hd =>
      have hhex := hd.not_hexPrefix (by omega) base
      simp only [radix, stripPrefix, hhex, Bool.false_eq_true, if_false]
      rw [if_pos h0, if_pos h30]
      exact hd
    | decimal _ _ h0 h30 hd =>
      have hhex := hd.not_hexPrefix (by omega) base
      simp only [radix, stripPrefix, hhex, Bool.false_eq_true, if_false]
      rw [if_pos h0, if_neg h30]
      exact hd
  · intro hd
    cases hhex : hexPrefix base b with
    | true =>
      simp only [radix, stripPrefix, hhex, if_true] at hd
      rw [hexPrefix, decide_eq_true_iff] at hhex
      obtain ⟨hbase, h30, hx⟩ := hhex
      match b with
      | [] => exact absurd h30 (by decide)
      | [c] => exact absurd (show 0#8 = 0x78#8 ∨ 0#8 = 0x58#8 from hx) (by decide)
      | c :: x :: ds =>
        obtain rfl : c = 0x30#8 := h30
        exact .hex x ds n hbase hx hd
    | false =>
      simp only [radix, stripPrefix, hhex, Bool.false_eq_true, if_false] at hd
      by_cases h0 : base = 0
      · rw [if_pos h0] at hd
        by_cases h30 : deref b = 0x30#8
        · rw [if_pos h30] at hd
          exact .octal b n h0 h30 hd
        · rw [if_neg h30] at hd
          exact .decimal b n h0 h30 hd
      · rw [if_neg h0] at hd
        exact .digits b n h0 hd

theorem Body.deref (h : Body base b n) :
    isspace (deref b) = false ∧ deref b ≠ 0x2d#8 ∧ deref b ≠ 0x2b#8 := by
  cases h with
  | digits _ _ _ hd =>
    have := isDigitOf_plain hd.deref
    exact ⟨this.1, this.2.1, this.2.2.1⟩
  | hex x ds _ _ _ _ =>
    change isspace 0x30#8 = false ∧ 0x30#8 ≠ 0x2d#8 ∧ 0x30#8 ≠ 0x2b#8
    decide
  | octal _ _ _ _ hd =>
    have := isDigitOf_plain hd.deref
    exact ⟨this.1, this.2.1, this.2.2.1⟩
  | decimal _ _ _ _ hd =>
    have := isDigitOf_plain hd.deref
    exact ⟨this.1, this.2.1, this.2.2.1⟩

theorem dropWhile_blanks {blanks : List Byte} (hb : ∀ c ∈ blanks, isspace c)
    (hs : isspace (deref s) = false) : (blanks ++ s).dropWhile isspace = s := by
  rw [List.dropWhile_append_of_pos hb]
  cases s with
  | nil => rfl
  | cons c s => exact List.dropWhile_cons_of_neg (by simpa [Convertint.deref] using hs)

theorem unsign_split (s : List Byte) : ∃ blanks t, s = blanks ++ t ∧ (∀ c ∈ blanks, isspace c) ∧
    unsign s = (decide (deref t = 0x2d#8),
      if deref t = 0x2d#8 ∨ deref t = 0x2b#8 then t.tail else t) :=
  ⟨s.takeWhile isspace, s.dropWhile isspace, List.takeWhile_append_dropWhile.symm,
    fun _ hc => List.mem_takeWhile_imp hc, rfl⟩

theorem eq_cons_of_deref {c : Byte} (h : deref s = c) (hc : c ≠ 0#8) : s = c :: s.tail := by
  cases s with
  | nil => exact absurd h.symm hc
  | cons c' s =>
    obtain rfl : c' = c := h
    rfl

theorem numeral_iff : Numeral base s z ↔
    ∃ n : ℕ, Body base (unsign s).2 n ∧ z = if (unsign s).1 then -(n : ℤ) else n := by
  constructor
  · rintro (⟨blanks, sign, body, n, hblanks, hsign, hbody⟩ | ⟨blanks, body, n, hblanks, hbody⟩)
    · obtain ⟨hspace, hminus, hplus⟩ := hbody.deref
      rcases hsign with rfl | rfl
      · rw [unsign, List.nil_append, dropWhile_blanks hblanks hspace]
        exact ⟨n, by simpa [hminus, hplus] using hbody, by simp [hminus]⟩
      · rw [unsign, dropWhile_blanks hblanks rfl]
        exact ⟨n, by simpa [deref] using hbody, by simp [deref]⟩
    · rw [unsign, dropWhile_blanks hblanks rfl]
      exact ⟨n, by simpa [deref] using hbody, by simp [deref]⟩
  · rintro ⟨n, hbody, hz⟩
    obtain ⟨blanks, t, rfl, hblanks, hun⟩ := unsign_split s
    rw [hun] at hbody hz
    by_cases hminus : deref t = 0x2d#8
    · have ht := eq_cons_of_deref hminus (by decide)
      simp only [hminus, true_or, if_true, decide_true] at hbody hz
      rw [hz, ht]
      exact .minus blanks t.tail n hblanks hbody
    · simp only [hminus, false_or, decide_false, Bool.false_eq_true, if_false] at hbody hz
      rw [hz]
      by_cases hplus : deref t = 0x2b#8
      · have ht := eq_cons_of_deref hplus (by decide)
        rw [if_pos hplus] at hbody
        rw [ht]
        exact .plus blanks [0x2b#8] t.tail n hblanks (.inr rfl) hbody
      · rw [if_neg hplus] at hbody
        exact .plus blanks [] t n hblanks (.inl rfl) hbody

/-- `cstr ()`, up to the byte that ends it for C. -/
def cstr (s : List Byte) : List Byte :=
  s.takeWhile (· ≠ 0)

theorem deref_eq_zero_iff (hs : 0 ∉ s) : deref s = 0 ↔ s = [] := by
  cases s with
  | nil => simp [deref]
  | cons c s =>
    simp only [deref, List.headD_cons, reduceCtorEq, iff_false]
    rintro rfl
    exact hs List.mem_cons_self

theorem takeWhile_digits_iff (hb : 0 ∉ b) :
    b.takeWhile (isDigitOf k) ≠ [] ∧ deref (b.dropWhile (isDigitOf k)) = 0 ∧
      digitsValue k 0 (b.takeWhile (isDigitOf k)) = n ↔ Digits k b n := by
  have hrest : 0 ∉ b.dropWhile (isDigitOf k) := fun h => hb (List.dropWhile_subset _ h)
  rw [deref_eq_zero_iff hrest, List.dropWhile_eq_nil_iff]
  constructor
  · rintro ⟨hne, hall, hn⟩
    rw [List.takeWhile_eq_self_iff.mpr hall] at hne hn
    exact ⟨hne, hall, hn.symm⟩
  · intro hd
    rw [List.takeWhile_eq_self_iff.mpr hd.all]
    exact ⟨hd.ne, hd.all, hd.value.symm⟩

theorem zero_notMem_unsign (hs : 0 ∉ s) : 0 ∉ (unsign s).2 := by
  obtain ⟨blanks, t, rfl, -, hun⟩ := unsign_split s
  have ht : 0 ∉ t := fun h => hs (List.mem_append_right _ h)
  rw [hun]
  simp only
  split
  · exact fun h => ht (List.mem_of_mem_tail h)
  · exact ht

theorem zero_notMem_cstr (s : List Byte) : 0 ∉ cstr s := by
  intro h
  have := List.mem_takeWhile_imp h
  simp at this

theorem Digits.zero_notMem (h : Digits k b n) : 0 ∉ b := fun h0 =>
  (isDigitOf_plain (h.all 0 h0)).2.2.2 rfl

theorem Body.zero_notMem (h : Body base b n) : 0 ∉ b := by
  cases h with
  | digits _ _ _ hd => exact hd.zero_notMem
  | octal _ _ _ _ hd => exact hd.zero_notMem
  | decimal _ _ _ _ hd => exact hd.zero_notMem
  | hex x ds _ _ hx hd =>
    have hds := hd.zero_notMem
    simp only [List.mem_cons, not_or]
    exact ⟨by decide, by rcases hx with rfl | rfl <;> decide, hds⟩

theorem cstr_of_numeral (h : Numeral base s z) : cstr s = s := by
  have hspace : ∀ blanks : List Byte, (∀ c ∈ blanks, isspace c) → 0 ∉ blanks := by
    intro blanks hb h0
    exact absurd (hb 0 h0) (by decide)
  have hs : 0 ∉ s := by
    cases h with
    | plus blanks sign body n hb hsign hbody =>
      have h1 := hspace blanks hb
      have h2 := hbody.zero_notMem
      have h3 : 0 ∉ sign := by rcases hsign with rfl | rfl <;> decide
      rw [List.mem_append, List.mem_append]
      tauto
    | minus blanks body n hb hbody =>
      have h1 := hspace blanks hb
      have h2 := hbody.zero_notMem
      rw [List.mem_append, List.mem_cons]
      have h3 : (0 : Byte) ≠ 0x2d#8 := by decide
      tauto
  apply List.takeWhile_eq_self_iff.mpr
  intro c hc
  have : c ≠ 0 := fun h0 => hs (h0 ▸ hc)
  simpa using this

theorem numeral_unique {z' : ℤ} (h : Numeral base s z) (h' : Numeral base s z') : z = z' := by
  obtain ⟨n, hn, rfl⟩ := numeral_iff.mp h
  obtain ⟨n', hn', rfl⟩ := numeral_iff.mp h'
  rw [(body_iff.mp hn).value, (body_iff.mp hn').value]

theorem not_numeral_nil : ¬ Numeral base [] z := by
  intro h
  obtain ⟨n, hbody, -⟩ := numeral_iff.mp h
  apply (body_iff.mp hbody).ne
  simp [stripPrefix, unsign, deref]

end Sfslite.Async.Convertint
