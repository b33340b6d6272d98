import Mathlib.Data.List.TakeWhile
import Mathlib.Data.Nat.Digits.Lemmas
import Sfslite.Async.Armor

/-!
`strtoi64` of `convertint.C`. A `char *` is the list of the bytes from it to the end of its
string; a null byte stands behind them.
-/

namespace Sfslite.Async.Convertint

open Sfslite.Arpc (Byte)

/-- `*p`. -/
def deref (p : List Byte) : Byte := p.headD 0#8

def isspace (c : Byte) : Bool := c = 0x20#8 || (0x09#8 ≤ c && c ≤ 0x0d#8)

def isdigit (c : Byte) : Bool := 0x30#8 ≤ c && c ≤ 0x39#8

def isupper (c : Byte) : Bool := 0x41#8 ≤ c && c ≤ 0x5a#8

def isalpha (c : Byte) : Bool := isupper c || (0x61#8 ≤ c && c ≤ 0x7a#8)

def digitValue (c : Byte) : Option ℕ :=
  if isdigit c then some (c.toNat - 0x30)
  else if isalpha c then some (c.toNat - if isupper c then 0x41 - 10 else 0x61 - 10)
  else none

def int64Max : ℤ := 0x7fffffffffffffff

/-- The loop of `strtoi64`: `acc`, `any`, and where it stops. -/
def strtoLoop (base : ℤ) (neg : Bool) (cutoff cutlim : ℤ) :
    ℤ → ℤ → List Byte → ℤ × ℤ × List Byte
  | acc, any, [] => (acc, any, [])
  | acc, any, c :: s =>
    match digitValue c with
    | none => (acc, any, c :: s)
    | some d =>
      if base ≤ d then (acc, any, c :: s)
      else if any < 0 then strtoLoop base neg cutoff cutlim acc any s
      else if neg then
        if acc < cutoff ∨ (acc = cutoff ∧ cutlim < d) then
          strtoLoop base neg cutoff cutlim (-int64Max - 1) (-1) s
        else strtoLoop base neg cutoff cutlim (acc * base - d) 1 s
      else
        if cutoff < acc ∨ (acc = cutoff ∧ cutlim < d) then
          strtoLoop base neg cutoff cutlim int64Max (-1) s
        else strtoLoop base neg cutoff cutlim (acc * base + d) 1 s

/-- `strtoi64`: the number and `*endptr`. -/
def strtoi64 (nptr : List Byte) (base : ℤ) : ℤ × List Byte :=
  let s := nptr.dropWhile isspace
  let neg : Bool := deref s = 0x2d#8
  let s := if deref s = 0x2d#8 ∨ deref s = 0x2b#8 then s.tail else s
  let hex : Bool := (base = 0 ∨ base = 16) ∧ deref s = 0x30#8 ∧
    (deref s.tail = 0x78#8 ∨ deref s.tail = 0x58#8)
  let s := if hex then s.drop 2 else s
  let base := if hex then 16 else base
  let base := if base = 0 then (if deref s = 0x30#8 then 8 else 10) else base
  let limit := if neg then -int64Max - 1 else int64Max
  let cutlim := limit.tmod base
  let cutoff := limit.tdiv base
  let (cutoff, cutlim) :=
    if neg then (if 0 < cutlim then (cutoff + 1, -(cutlim - base)) else (cutoff, -cutlim))
    else (cutoff, cutlim)
  let (acc, any, s) := strtoLoop base neg cutoff cutlim 0 0 s
  (acc, if any ≠ 0 then s else nptr)

/-- `%d` of a number that is not negative. -/
def decimalNat (n : ℕ) : List Byte :=
  if n = 0 then [0x30#8] else ((Nat.digits 10 n).map fun d => BitVec.ofNat 8 (0x30 + d)).reverse

/-- `%d`. -/
def decimal (n : ℤ) : List Byte :=
  if n < 0 then 0x2d#8 :: decimalNat n.natAbs else decimalNat n.natAbs

/-- The number that the digits stand for behind others that stand for `acc`. -/
def decimalValue (acc : ℕ) (ds : List Byte) : ℕ :=
  ds.foldl (fun acc c => acc * 10 + (c.toNat - 0x30)) acc

variable {c : Byte}

theorem digitValue_of_isdigit (hc : isdigit c) :
    digitValue c = some (c.toNat - 0x30) := if_pos hc

theorem isdigit_iff : isdigit c = true ↔ 0x30 ≤ c.toNat ∧ c.toNat ≤ 0x39 := by
  rw [isdigit, Bool.and_eq_true, decide_eq_true_iff, decide_eq_true_iff]
  exact Iff.rfl

theorem ten_le_of_not_isdigit (hc : isdigit c = false) {d : ℕ}
    (hd : digitValue c = some d) : 10 ≤ d := by
  simp only [digitValue, hc, Bool.false_eq_true, if_false] at hd
  split at hd
  case isFalse => cases hd
  case isTrue halpha =>
    simp only [isalpha, isupper, Bool.or_eq_true, Bool.and_eq_true, decide_eq_true_iff,
      BitVec.le_def] at halpha
    simp only [Option.some.injEq] at hd
    simp only [isupper, Bool.and_eq_true, decide_eq_true_iff, BitVec.le_def] at hd
    simp only [BitVec.toNat_ofNat, Nat.reduceMod, Nat.reducePow] at halpha hd
    split at hd <;> omega

section Loop

variable (acc any : ℤ) (s : List Byte)

/-- The loop in base ten, for a number without a minus sign. -/
abbrev decimalLoop : ℤ → ℤ → List Byte → ℤ × ℤ × List Byte :=
  strtoLoop 10 false (int64Max.tdiv 10) (int64Max.tmod 10)

theorem decimalLoop_stop (hs : isdigit (deref s) = false) :
    decimalLoop acc any s = (acc, any, s) := by
  cases s with
  | nil => rfl
  | cons c s =>
    rw [decimalLoop, strtoLoop]
    cases hd : digitValue c with
    | none => rfl
    | some d =>
      have hten : (10 : ℤ) ≤ d := by
        have := ten_le_of_not_isdigit hs hd
        omega
      exact if_pos hten

theorem decimalLoop_cons (hc : isdigit c) :
    decimalLoop acc any (c :: s) =
      if any < 0 then decimalLoop acc any s
      else if int64Max < acc * 10 + (c.toNat - 0x30 : ℕ) then decimalLoop int64Max (-1) s
      else decimalLoop (acc * 10 + (c.toNat - 0x30 : ℕ)) 1 s := by
  have hdigit := isdigit_iff.mp hc
  have hten : ¬(10 : ℤ) ≤ (c.toNat - 0x30 : ℕ) := by omega
  have hdiv : int64Max.tdiv 10 = 922337203685477580 := rfl
  have hmod : int64Max.tmod 10 = 7 := rfl
  have hover : (int64Max.tdiv 10 < acc ∨
      (acc = int64Max.tdiv 10 ∧ int64Max.tmod 10 < (c.toNat - 0x30 : ℕ))) ↔
      int64Max < acc * 10 + (c.toNat - 0x30 : ℕ) := by
    rw [hdiv, hmod, int64Max]
    omega
  rw [decimalLoop, strtoLoop]
  simp only [digitValue_of_isdigit hc, if_neg hten, Bool.false_eq_true, if_false, hover]

theorem decimalLoop_saturated {any : ℤ} (hany : any < 0) :
    decimalLoop acc any s = (acc, any, s.dropWhile isdigit) := by
  induction s with
  | nil => rfl
  | cons c s ih =>
    cases hc : isdigit c with
    | false => rw [decimalLoop_stop acc any (c :: s) hc, List.dropWhile_cons_of_neg (by simp [hc])]
    | true => rw [decimalLoop_cons acc any s hc, if_pos hany, ih,
        List.dropWhile_cons_of_pos hc]

end Loop

theorem le_decimalValue (acc : ℕ) (ds : List Byte) : acc ≤ decimalValue acc ds := by
  induction ds generalizing acc with
  | nil => exact le_rfl
  | cons c ds ih =>
    have := ih (acc * 10 + (c.toNat - 0x30))
    rw [decimalValue, List.foldl_cons, ← decimalValue]
    omega

theorem decimalLoop_eq (acc : ℕ) {any : ℤ} (hany : 0 ≤ any) (s : List Byte) :
    decimalLoop acc any s =
      if int64Max < decimalValue acc (s.takeWhile isdigit) ∧ s.takeWhile isdigit ≠ [] then
        (int64Max, -1, s.dropWhile isdigit)
      else (decimalValue acc (s.takeWhile isdigit),
        if s.takeWhile isdigit = [] then any else 1, s.dropWhile isdigit) := by
  induction s generalizing acc any with
  | nil => simp [decimalValue, decimalLoop, strtoLoop]
  | cons c s ih =>
    cases hc : isdigit c with
    | false =>
      rw [decimalLoop_stop _ any (c :: s) hc, List.dropWhile_cons_of_neg (by simp [hc]),
        List.takeWhile_cons_of_neg (by simp [hc])]
      simp [decimalValue]
    | true =>
      rw [decimalLoop_cons _ any s hc, if_neg (by omega), List.dropWhile_cons_of_pos hc,
        List.takeWhile_cons_of_pos hc]
      have hvalue : decimalValue acc (c :: s.takeWhile isdigit) =
          decimalValue (acc * 10 + (c.toNat - 0x30)) (s.takeWhile isdigit) := rfl
      have hle := le_decimalValue (acc * 10 + (c.toNat - 0x30)) (s.takeWhile isdigit)
      have hcast : (acc : ℤ) * 10 + (c.toNat - 0x30 : ℕ) =
          (acc * 10 + (c.toNat - 0x30) : ℕ) := by omega
      rw [hvalue, hcast]
      by_cases hover : int64Max < (acc * 10 + (c.toNat - 0x30) : ℕ)
      · rw [if_pos hover, decimalLoop_saturated _ _ (by omega),
          if_pos ⟨by omega, List.cons_ne_nil _ _⟩]
      · rw [if_neg hover, ih _ (by omega)]
        by_cases hnil : s.takeWhile isdigit = []
        · simp only [hnil, decimalValue, List.foldl_nil, ne_eq, not_true_eq_false, and_false,
            if_false, if_true, reduceCtorEq]
          rw [if_neg (by tauto)]
        · simp only [hnil, ne_eq, not_false_eq_true, and_true, if_false, reduceCtorEq]

theorem strtoi64_decimal {s : List Byte} (hs : isdigit (deref s)) :
    strtoi64 s 10 =
      (min int64Max (decimalValue 0 (s.takeWhile isdigit)), s.dropWhile isdigit) := by
  match s with
  | [] => exact absurd hs (by decide)
  | c :: s =>
    have hdigit := isdigit_iff.mp hs
    have hc : deref (c :: s) = c := rfl
    rw [hc] at hdigit hs
    have hspace : isspace c = false := by
      simp only [isspace, Bool.or_eq_false_iff, Bool.and_eq_false_iff, decide_eq_false_iff_not,
        BitVec.le_def, ← BitVec.toNat_inj]
      simp only [BitVec.toNat_ofNat, Nat.reduceMod, Nat.reducePow]
      omega
    have hminus : c ≠ 0x2d#8 := by
      rintro rfl
      exact absurd hs (by decide)
    have hplus : c ≠ 0x2b#8 := by
      rintro rfl
      exact absurd hs (by decide)
    have hloop := decimalLoop_eq 0 le_rfl (c :: s)
    rw [List.takeWhile_cons_of_pos hs] at hloop ⊢
    simp only [strtoi64, List.dropWhile_cons_of_neg (by simp [hspace] : ¬isspace c = true), hc,
      hminus, hplus, or_self, if_false, decide_false, Bool.false_eq_true, false_and,
      (by decide : ¬(10 : ℤ) = 0), (by decide : ¬(10 : ℤ) = 16)]
    rw [decimalLoop, Nat.cast_zero] at hloop
    rw [hloop]
    simp only [ne_eq, reduceCtorEq, not_false_eq_true, and_true, if_false]
    split
    · next hover => rw [min_eq_left hover.le]; rfl
    · next hover => rw [min_eq_right (by omega)]; rfl

theorem decimalValue_eq_ofDigits (ds : List Byte) :
    decimalValue 0 ds = Nat.ofDigits 10 (ds.map fun c => c.toNat - 0x30).reverse := by
  rw [Nat.ofDigits_eq_foldr, List.foldr_reverse, List.foldl_map, decimalValue]
  congr 1
  funext acc c
  rw [Nat.mul_comm, Nat.add_comm]
  rfl

theorem decimalNat_decimalValue {ds : List Byte} (hds : ∀ c ∈ ds, isdigit c)
    (hhead : ds.head? = some c) (hc : c ≠ 0x30#8) : decimalNat (decimalValue 0 ds) = ds := by
  have hdigits : Nat.digits 10 (decimalValue 0 ds) =
      (ds.map fun c => c.toNat - 0x30).reverse := by
    rw [decimalValue_eq_ofDigits]
    refine Nat.digits_ofDigits 10 (by decide) _ ?_ ?_
    · intro d hd
      obtain ⟨c, hc, rfl⟩ := List.mem_map.mp (List.mem_reverse.mp hd)
      have := isdigit_iff.mp (hds c hc)
      omega
    · intro hne
      obtain ⟨ds', rfl⟩ := List.head?_eq_some_iff.mp hhead
      have hdigit := isdigit_iff.mp (hds c List.mem_cons_self)
      have hne : c.toNat ≠ 0x30 := fun h => hc (BitVec.eq_of_toNat_eq h)
      simp only [List.map_cons, List.reverse_cons, List.getLast_append_singleton]
      omega
  have hpos : decimalValue 0 ds ≠ 0 := by
    intro hzero
    obtain ⟨ds', rfl⟩ := List.head?_eq_some_iff.mp hhead
    rw [hzero, Nat.digits_zero] at hdigits
    simp at hdigits
  rw [decimalNat, if_neg hpos, hdigits, List.map_reverse, List.reverse_reverse, List.map_map]
  refine (List.map_congr_left fun c hc => ?_).trans (List.map_id ds)
  have hdigit := isdigit_iff.mp (hds c hc)
  rw [Function.comp_apply, Nat.add_sub_cancel' hdigit.1, BitVec.ofNat_toNat, BitVec.setWidth_eq]
  rfl

theorem isdigit_of_mem_decimalNat {n : ℕ} (hc : c ∈ decimalNat n) : isdigit c := by
  rw [decimalNat] at hc
  split at hc
  · rw [List.mem_singleton.mp hc]
    rfl
  · obtain ⟨d, hd, rfl⟩ := List.mem_map.mp (List.mem_reverse.mp hc)
    have hlt := Nat.digits_lt_base (by decide : 1 < 10) hd
    rw [isdigit_iff, BitVec.toNat_ofNat, Nat.mod_eq_of_lt (by omega)]
    omega

theorem decimalValue_decimalNat (n : ℕ) : decimalValue 0 (decimalNat n) = n := by
  rw [decimalNat]
  split
  · next hzero => rw [hzero]; rfl
  · rw [decimalValue_eq_ofDigits, List.map_reverse, List.reverse_reverse, List.map_map]
    have hid : (Nat.digits 10 n).map ((fun c : Byte => c.toNat - 0x30) ∘
        fun d => BitVec.ofNat 8 (0x30 + d)) = Nat.digits 10 n := by
      refine (List.map_congr_left fun d hd => ?_).trans (List.map_id _)
      have hlt := Nat.digits_lt_base (by decide : 1 < 10) hd
      rw [Function.comp_apply, BitVec.toNat_ofNat, Nat.mod_eq_of_lt (by omega)]
      exact Nat.add_sub_cancel_left _ _
    rw [hid, Nat.ofDigits_digits]

theorem decimalNat_head {n : ℕ} (hn : n ≠ 0) :
    ∃ c, (decimalNat n).head? = some c ∧ isdigit c ∧ c ≠ 0x30#8 := by
  have hne : Nat.digits 10 n ≠ [] := Nat.digits_ne_nil_iff_ne_zero.mpr hn
  have hlast := Nat.getLast_digit_ne_zero 10 hn
  have hlt := Nat.digits_lt_base (by decide : 1 < 10) (List.getLast_mem hne)
  refine ⟨BitVec.ofNat 8 (0x30 + (Nat.digits 10 n).getLast hne), ?_, ?_, ?_⟩
  · rw [decimalNat, if_neg hn, List.head?_reverse, List.getLast?_map,
      List.getLast?_eq_some_getLast hne]
    rfl
  · rw [isdigit_iff, BitVec.toNat_ofNat, Nat.mod_eq_of_lt (by omega)]
    omega
  · intro heq
    have := congrArg BitVec.toNat heq
    rw [BitVec.toNat_ofNat, Nat.mod_eq_of_lt (by omega)] at this
    have hzero : (0x30#8).toNat = 0x30 := rfl
    omega

theorem strtoi64_decimalNat {n : ℕ} (hn : n ≠ 0) (hmax : (n : ℤ) ≤ int64Max) {s : List Byte}
    (hs : isdigit (deref s) = false) : strtoi64 (decimalNat n ++ s) 10 = ((n : ℤ), s) := by
  obtain ⟨c, hc, hdigit, -⟩ := decimalNat_head hn
  obtain ⟨ds, hds⟩ := List.head?_eq_some_iff.mp hc
  have hall : ∀ c ∈ decimalNat n, isdigit c := fun c hc => isdigit_of_mem_decimalNat hc
  have htake : s.takeWhile isdigit = [] ∧ s.dropWhile isdigit = s := by
    cases s with
    | nil => exact ⟨rfl, rfl⟩
    | cons c s =>
      have hc : ¬isdigit c = true := by
        rw [Bool.not_eq_true]
        exact hs
      exact ⟨List.takeWhile_cons_of_neg hc, List.dropWhile_cons_of_neg hc⟩
  have hstart : isdigit (deref (decimalNat n ++ s)) := by
    rw [hds]
    exact hdigit
  rw [strtoi64_decimal hstart, List.takeWhile_append_of_pos hall,
    List.dropWhile_append_of_pos hall, htake.1, htake.2, List.append_nil,
    decimalValue_decimalNat, min_eq_right hmax]

theorem eq_decimalNat_of_strtoi64 {s rest : List Byte} {v : ℤ} (hs : isdigit (deref s))
    (hzero : deref s ≠ 0x30#8) (hv : v < int64Max) (h : strtoi64 s 10 = (v, rest)) :
    s = decimalNat v.toNat ++ rest := by
  rw [strtoi64_decimal hs, Prod.mk.injEq] at h
  obtain ⟨hvalue, hrest⟩ := h
  match s with
  | [] => exact absurd hs (by decide)
  | c :: s =>
    have hv' : v.toNat = decimalValue 0 ((c :: s).takeWhile isdigit) := by omega
    have hall : ∀ c' ∈ (c :: s).takeWhile isdigit, isdigit c' :=
      fun c' hc' => List.mem_takeWhile_imp hc'
    have hc : isdigit c := hs
    have hhead : ((c :: s).takeWhile isdigit).head? = some c := by
      rw [List.takeWhile_cons_of_pos hc]
      rfl
    rw [hv', decimalNat_decimalValue hall hhead hzero, ← hrest, List.takeWhile_append_dropWhile]

end Sfslite.Async.Convertint
