import Sfslite.Async.Numeral

/-!
`conftab_int` of `parseopt.h`: an option of a configuration file that is an integer of type `T`.
-/

namespace Sfslite.Async

open Sfslite.Arpc (Byte)
open Sfslite.Async.Convertint

/-- An integer type. -/
structure IntType where
  signed : Bool
  width : ℕ
  pos : 0 < width

namespace IntType

def wrap (T : IntType) (z : ℤ) : ℤ :=
  if T.signed then z.bmod (2 ^ T.width) else z % 2 ^ T.width

def Holds (T : IntType) (z : ℤ) : Prop :=
  if T.signed then -2 ^ (T.width - 1) ≤ z ∧ z < 2 ^ (T.width - 1) else 0 ≤ z ∧ z < 2 ^ T.width

theorem wrap_eq_iff (T : IntType) (z : ℤ) : T.wrap z = z ↔ T.Holds z := by
  obtain ⟨signed, width, pos⟩ := T
  obtain ⟨w, rfl⟩ := Nat.exists_eq_add_one.mpr pos
  have hhalf : (2 : ℤ) ^ (w + 1) = 2 * 2 ^ w := by rw [pow_succ]; omega
  have hpos : (0 : ℤ) < 2 ^ w := by positivity
  cases signed with
  | false =>
    simp only [wrap, Holds, Bool.false_eq_true, if_false]
    constructor
    · intro h
      rw [← h]
      exact ⟨Int.emod_nonneg z (by omega), Int.emod_lt_of_pos z (by omega)⟩
    · rintro ⟨h0, hlt⟩
      exact Int.emod_eq_of_lt h0 hlt
  | true =>
    simp only [wrap, Holds, if_true, Nat.add_sub_cancel]
    rw [Int.bmod_eq_iff (by positivity), Int.sub_self]
    push_cast
    rw [hhalf]
    have hdvd : (2 * 2 ^ w : ℤ) ∣ 0 := Int.dvd_zero _
    constructor
    · rintro ⟨hle, hlt, -⟩
      omega
    · rintro ⟨hle, hlt⟩
      exact ⟨by omega, by omega, hdvd⟩

theorem holds_wrap (T : IntType) (z : ℤ) : T.Holds (T.wrap z) := by
  rw [← T.wrap_eq_iff, wrap, wrap]
  split
  · exact Int.bmod_bmod
  · exact Int.emod_emod_of_dvd z (Int.dvd_refl _)

end IntType

/-- The option. `tmp` is what `convert` leaves for `inbounds` and `set`. -/
structure ConftabInt where
  ty : IntType
  lb : ℤ
  ub : ℤ
  tmp : ℤ
  dest : ℤ
  wasSet : Bool

namespace ConftabInt

/-- `convertint`, for `base` zero. -/
def convertint (T : IntType) (s : List Byte) : Option ℤ :=
  let cp := cstr s
  if deref cp = 0 then none
  else
    let (res, stop) := strtoi64 cp 0
    if deref stop ≠ 0 then none else some (T.wrap res)

def countArgs (v : List (List Byte)) (l : ℕ) : Bool :=
  v.length = l ∨ (l < v.length ∧ deref (v.getD l []) = 0x23#8)

def convert (el : ConftabInt) (v : List (List Byte)) : ConftabInt × Bool :=
  if countArgs v 2 then
    match convertint el.ty (v.getD 1 []) with
    | some res => ({ el with tmp := res }, true)
    | none => (el, false)
  else (el, false)

def inbounds (el : ConftabInt) : Bool :=
  el.lb ≤ el.tmp ∧ el.tmp ≤ el.ub

def set (el : ConftabInt) : ConftabInt :=
  { el with dest := el.tmp }

/-- What `conftab::match` does with the option that it finds: the option, and `*err`. -/
def matchArgs (el : ConftabInt) (av : List (List Byte)) : ConftabInt × Bool :=
  let (el, ok) := el.convert av
  if ¬ ok then (el, true)
  else if ¬ el.inbounds then (el, true)
  else ({ el.set with wasSet := true }, false)

/-- An option is accepted exactly when its text is a numeral within the bounds, and then its value
is stored. -/
def Exact (el : ConftabInt) (av : List (List Byte)) : Prop :=
  ((el.matchArgs av).2 = false ↔
      ∃ z, Numeral 0 (av.getD 1 []) z ∧ el.lb ≤ z ∧ z ≤ el.ub) ∧
    ((el.matchArgs av).2 = false → Numeral 0 (av.getD 1 []) (el.matchArgs av).1.dest)

/-- The `int64_t` that `strtoi64` makes of a number. -/
def saturate (z : ℤ) : ℤ :=
  max (-int64Max - 1) (min z int64Max)

/-- A numeral, up to the first null byte of the text, is all of the text and fits; or neither it
nor what is made of it is within the bounds. -/
def Plain (el : ConftabInt) (text : List Byte) : Prop :=
  ∀ z, Numeral 0 (cstr text) z →
    (cstr text = text ∧ el.ty.Holds z ∧ saturate z = z) ∨
      (¬(el.lb ≤ el.ty.wrap (saturate z) ∧ el.ty.wrap (saturate z) ≤ el.ub) ∧
        (cstr text = text → ¬(el.lb ≤ z ∧ z ≤ el.ub)))

section Loop

variable {k L : ℕ} {neg : Bool} {any : ℤ} {acc d : ℕ} {c : Byte} {s : List Byte}

def withSign (neg : Bool) (n : ℕ) : ℤ :=
  if neg then -n else n

/-- The loop in base `k`, for numbers up to `L` with one sign. -/
abbrev loop (k L : ℕ) (neg : Bool) (acc : ℕ) : ℤ → List Byte → ℤ × ℤ × List Byte :=
  strtoLoop k neg (withSign neg (L / k)) (L % k : ℕ) (withSign neg acc)

theorem loop_stop (hc : isDigitOf k (deref s) = false) :
    loop k L neg acc any s = (withSign neg acc, any, s) := by
  cases s with
  | nil => rfl
  | cons c s =>
    have hd : ∀ d, digitValue c = some d → (k : ℤ) ≤ d := by
      intro d hd
      by_contra hlt
      have : isDigitOf k c = true := isDigitOf_iff.mpr ⟨d, hd, by omega⟩
      rw [deref, List.headD_cons] at hc
      rw [this] at hc
      cases hc
    rw [loop, strtoLoop]
    cases hv : digitValue c with
    | none => rfl
    | some d => exact if_pos (hd d hv)

theorem cutoff_iff (hd : d < k) : (L / k < acc ∨ (acc = L / k ∧ L % k < d)) ↔ L < acc * k + d := by
  have hk : 0 < k := by omega
  have hdiv : L / k * k + L % k = L := Nat.div_add_mod' L k
  have hmod : L % k < k := Nat.mod_lt L hk
  constructor
  · rintro (hlt | ⟨rfl, hlt⟩)
    · have := Nat.mul_le_mul_right k (Nat.succ_le_of_lt hlt)
      rw [Nat.succ_mul] at this
      omega
    · omega
  · intro h
    by_contra hnot
    rw [not_or] at hnot
    have hle : acc ≤ L / k := by omega
    rcases Nat.lt_or_eq_of_le hle with hlt | heq
    · have := Nat.mul_le_mul_right k (Nat.succ_le_of_lt hlt)
      rw [Nat.succ_mul] at this
      omega
    · rw [heq] at h
      have : ¬ L % k < d := fun hlt => hnot.2 ⟨heq, hlt⟩
      omega

theorem loop_cons (hc : digitValue c = some d) (hd : d < k)
    (hL : withSign neg L = if neg then -int64Max - 1 else int64Max) :
    loop k L neg acc any (c :: s) =
      if any < 0 then loop k L neg acc any s
      else if L < acc * k + d then loop k L neg L (-1) s
      else loop k L neg (acc * k + d) 1 s := by
  have hbase : ¬(k : ℤ) ≤ d := by omega
  rw [loop, strtoLoop, hc]
  simp only [if_neg hbase]
  by_cases hany : any < 0
  · rw [if_pos hany, if_pos hany]
  · rw [if_neg hany, if_neg hany]
    cases neg with
    | false =>
      have hover : (withSign false (L / k) < withSign false acc ∨
          (withSign false acc = withSign false (L / k) ∧ ((L % k : ℕ) : ℤ) < d)) ↔
          L < acc * k + d := by
        rw [← cutoff_iff hd]
        simp only [withSign, Bool.false_eq_true, if_false]
        omega
      have hnext : withSign false acc * k + d = withSign false (acc * k + d) := by
        simp [withSign]
      simp only [Bool.false_eq_true, if_false] at hL ⊢
      rw [hnext, ← hL]
      exact if_congr hover rfl rfl
    | true =>
      have hover : (withSign true acc < withSign true (L / k) ∨
          (withSign true acc = withSign true (L / k) ∧ ((L % k : ℕ) : ℤ) < d)) ↔
          L < acc * k + d := by
        rw [← cutoff_iff hd]
        simp only [withSign, if_true]
        omega
      have hnext : withSign true acc * k - d = withSign true (acc * k + d) := by
        simp only [withSign, if_true]
        push_cast
        ring
      simp only [if_true] at hL ⊢
      rw [hnext, ← hL]
      exact if_congr hover rfl rfl

theorem loop_saturated (hany : any < 0)
    (hL : withSign neg L = if neg then -int64Max - 1 else int64Max) :
    loop k L neg acc any s = (withSign neg acc, any, s.dropWhile (isDigitOf k)) := by
  induction s with
  | nil => rfl
  | cons c s ih =>
    cases hc : isDigitOf k c with
    | false =>
      rw [loop_stop hc, List.dropWhile_cons_of_neg (by simp [hc])]
    | true =>
      obtain ⟨d, hv, hd⟩ := isDigitOf_iff.mp hc
      rw [loop_cons hv hd hL, if_pos hany, ih, List.dropWhile_cons_of_pos hc]

theorem le_digitsValue (hk : 0 < k) (acc : ℕ) (ds : List Byte) : acc ≤ digitsValue k acc ds := by
  induction ds generalizing acc with
  | nil => exact le_rfl
  | cons c ds ih =>
    have hmul : acc ≤ acc * k := Nat.le_mul_of_pos_right acc hk
    have := ih (acc * k + (digitValue c).getD 0)
    rw [digitsValue, List.foldl_cons, ← digitsValue]
    omega

theorem loop_eq (hany : 0 ≤ any) (hL : withSign neg L = if neg then -int64Max - 1 else int64Max)
    (acc : ℕ) (s : List Byte) :
    loop k L neg acc any s =
      if s.takeWhile (isDigitOf k) = [] then (withSign neg acc, any, s)
      else (withSign neg (min L (digitsValue k acc (s.takeWhile (isDigitOf k)))),
        if L < digitsValue k acc (s.takeWhile (isDigitOf k)) then -1 else 1,
        s.dropWhile (isDigitOf k)) := by
  induction s generalizing acc any with
  | nil => rfl
  | cons c s ih =>
    cases hc : isDigitOf k c with
    | false =>
      rw [loop_stop hc, List.takeWhile_cons_of_neg (by simp [hc]), if_pos rfl]
    | true =>
      obtain ⟨d, hv, hd⟩ := isDigitOf_iff.mp hc
      have hk : 0 < k := by omega
      have hvalue : digitsValue k acc (c :: s.takeWhile (isDigitOf k)) =
          digitsValue k (acc * k + d) (s.takeWhile (isDigitOf k)) := by
        simp [digitsValue, hv]
      have hle := le_digitsValue hk (acc * k + d) (s.takeWhile (isDigitOf k))
      rw [loop_cons hv hd hL, if_neg (by omega), List.takeWhile_cons_of_pos hc,
        List.dropWhile_cons_of_pos hc, if_neg (List.cons_ne_nil _ _), hvalue]
      by_cases hover : L < acc * k + d
      · rw [if_pos hover, loop_saturated (by omega) hL, if_pos (by omega),
          Nat.min_eq_left (by omega)]
      · rw [if_neg hover, ih (by omega)]
        by_cases hnil : s.takeWhile (isDigitOf k) = []
        · have hdrop : s.dropWhile (isDigitOf k) = s := by
            have hsplit : s.takeWhile (isDigitOf k) ++ s.dropWhile (isDigitOf k) = s :=
              List.takeWhile_append_dropWhile
            rwa [hnil, List.nil_append] at hsplit
          have hself : digitsValue k (acc * k + d) [] = acc * k + d := rfl
          rw [if_pos hnil, hnil, hself, if_neg hover, Nat.min_eq_right (by omega), hdrop]
        · rw [if_neg hnil]

end Loop

variable {s : List Byte} {z v : ℤ}

def limit (neg : Bool) : ℕ :=
  if neg then 2 ^ 63 else 2 ^ 63 - 1

theorem withSign_limit (neg : Bool) :
    withSign neg (limit neg) = if neg then -int64Max - 1 else int64Max := by
  cases neg <;> rfl

theorem cutoff_eq (k : ℕ) (neg : Bool) :
    (if neg then
        (if 0 < (withSign neg (limit neg)).tmod k then
          ((withSign neg (limit neg)).tdiv k + 1, -((withSign neg (limit neg)).tmod k - k))
        else ((withSign neg (limit neg)).tdiv k, -(withSign neg (limit neg)).tmod k))
      else ((withSign neg (limit neg)).tdiv k, (withSign neg (limit neg)).tmod k)) =
      (withSign neg (limit neg / k), ((limit neg % k : ℕ) : ℤ)) := by
  cases neg with
  | false =>
    simp only [withSign, Bool.false_eq_true, if_false]
    rw [Int.ofNat_tdiv, Int.ofNat_tmod]
  | true =>
    simp only [withSign, if_true, Int.neg_tmod, Int.neg_tdiv]
    rw [← Int.ofNat_tdiv, ← Int.ofNat_tmod, if_neg (by omega), neg_neg]

theorem strtoi64_eq (s : List Byte) (base : ℤ) (hbase : 0 ≤ base) :
    strtoi64 s base =
      let b := (unsign s).2
      let r := loop (radix base b) (limit (unsign s).1) (unsign s).1 0 0 (stripPrefix base b)
      (r.1, if r.2.1 ≠ 0 then r.2.2 else s) := by
  have hradix : ∀ b : List Byte, (radix base b : ℤ) =
      (if (if hexPrefix base b then 16 else base) = 0 then
        (if deref (stripPrefix base b) = 0x30#8 then 8 else 10)
      else if hexPrefix base b then 16 else base) := by
    intro b
    rw [radix, stripPrefix]
    cases hexPrefix base b with
    | true => rfl
    | false =>
      simp only [Bool.false_eq_true, if_false]
      split
      · split <;> rfl
      · exact Int.toNat_of_nonneg hbase
  have hzero : ∀ neg, withSign neg 0 = 0 := by
    intro neg
    cases neg <;> rfl
  have hcut := cutoff_eq (radix base (unsign s).2) (unsign s).1
  rw [hradix, withSign_limit] at hcut
  have hdef : strtoi64 s base =
      let b := (unsign s).2
      let neg := (unsign s).1
      let k := if hexPrefix base b then 16 else base
      let k := if k = 0 then (if deref (stripPrefix base b) = 0x30#8 then 8 else 10) else k
      let limit := if neg then -int64Max - 1 else int64Max
      let c := if neg then
          (if 0 < limit.tmod k then (limit.tdiv k + 1, -(limit.tmod k - k))
          else (limit.tdiv k, -limit.tmod k))
        else (limit.tdiv k, limit.tmod k)
      let r := strtoLoop k neg c.1 c.2 0 0 (stripPrefix base b)
      (r.1, if r.2.1 ≠ 0 then r.2.2 else s) := rfl
  simp only [hdef, loop, hzero, hradix, hcut]

theorem saturate_withSign (neg : Bool) (n : ℕ) :
    saturate (if neg then -(n : ℤ) else n) = withSign neg (min (limit neg) n) := by
  cases neg with
  | false =>
    simp only [saturate, withSign, limit, int64Max, Bool.false_eq_true, if_false]
    omega
  | true =>
    simp only [saturate, withSign, limit, int64Max, if_true]
    omega

theorem strtoi64_iff (hs : 0 ∉ s) (hne : s ≠ []) (v : ℤ) :
    deref (strtoi64 s 0).2 = 0 ∧ v = (strtoi64 s 0).1 ↔ ∃ z, Numeral 0 s z ∧ v = saturate z := by
  have hb := zero_notMem_unsign hs
  have hd : 0 ∉ stripPrefix 0 (unsign s).2 := by
    rw [stripPrefix]
    split
    · exact fun h => hb (List.mem_of_mem_drop h)
    · exact hb
  have hnum : (∃ z, Numeral 0 s z ∧ v = saturate z) ↔
      ∃ n, Digits (radix 0 (unsign s).2) (stripPrefix 0 (unsign s).2) n ∧
        v = withSign (unsign s).1 (min (limit (unsign s).1) n) := by
    simp only [numeral_iff, body_iff]
    constructor
    · rintro ⟨z, ⟨n, hn, rfl⟩, hv⟩
      exact ⟨n, hn, hv.trans (saturate_withSign _ n)⟩
    · rintro ⟨n, hn, hv⟩
      exact ⟨_, ⟨n, hn, rfl⟩, hv.trans (saturate_withSign _ n).symm⟩
  rw [hnum, strtoi64_eq s 0 le_rfl]
  simp only [loop_eq le_rfl (withSign_limit _)]
  generalize radix 0 (unsign s).2 = k
  generalize stripPrefix 0 (unsign s).2 = d at hd
  simp only [← takeWhile_digits_iff hd]
  by_cases hnil : d.takeWhile (isDigitOf k) = []
  · have hderef : deref s ≠ 0#8 := fun h => hne ((deref_eq_zero_iff hs).mp h)
    simp [hnil, hderef]
  · have hany : (if limit (unsign s).1 < digitsValue k 0 (d.takeWhile (isDigitOf k)) then (-1 : ℤ)
        else 1) ≠ 0 := by
      split <;> decide
    simp only [hnil, if_false, ne_eq, hany, not_false_eq_true, if_true, true_and]
    constructor
    · rintro ⟨hrest, hv⟩
      exact ⟨_, ⟨hrest, rfl⟩, hv⟩
    · rintro ⟨n, ⟨hrest, rfl⟩, hv⟩
      exact ⟨hrest, hv⟩

theorem convertint_iff (T : IntType) (s : List Byte) :
    convertint T s = some v ↔ ∃ z, Numeral 0 (cstr s) z ∧ v = T.wrap (saturate z) := by
  have hs := zero_notMem_cstr s
  have hderef := deref_eq_zero_iff hs
  by_cases hne : cstr s = []
  · have hzero : deref (cstr s) = 0 := hderef.mpr hne
    have hnone : convertint T s = none := by simp only [convertint, hzero, if_true]
    rw [hnone, hne]
    simp [not_numeral_nil]
  · have hread := strtoi64_iff hs hne
    have hpos : deref (cstr s) ≠ 0 := fun h => hne (hderef.mp h)
    simp only [convertint, hpos, if_false]
    constructor
    · intro h
      split at h
      · cases h
      · next hstop =>
        cases h
        obtain ⟨z, hz, hv⟩ := (hread _).mp ⟨not_not.mp hstop, rfl⟩
        exact ⟨z, hz, by rw [hv]⟩
    · rintro ⟨z, hz, rfl⟩
      obtain ⟨hstop, hv⟩ := (hread _).mpr ⟨z, hz, rfl⟩
      rw [if_neg (not_not.mpr hstop), hv]

theorem matchArgs_eq (el : ConftabInt) {av : List (List Byte)} (hav : countArgs av 2) :
    el.matchArgs av =
      match convertint el.ty (av.getD 1 []) with
      | none => (el, true)
      | some res =>
        if el.lb ≤ res ∧ res ≤ el.ub then
          ({ el with tmp := res, dest := res, wasSet := true }, false)
        else ({ el with tmp := res }, true) := by
  rw [matchArgs, convert, if_pos hav]
  cases convertint el.ty (av.getD 1 []) with
  | none => rfl
  | some res =>
    by_cases hin : el.lb ≤ res ∧ res ≤ el.ub
    · simp [inbounds, set, hin]
    · simp [inbounds, hin]

theorem wrap_saturate_iff (T : IntType) (z : ℤ) :
    T.wrap (saturate z) = z ↔ T.Holds z ∧ saturate z = z := by
  constructor
  · intro h
    have hz : T.Holds z := h ▸ T.holds_wrap (saturate z)
    refine ⟨hz, ?_⟩
    by_contra hne
    have hnot : ¬ T.Holds (saturate z) := by
      intro hs
      exact hne (((T.wrap_eq_iff _).mpr hs).symm.trans h)
    simp only [IntType.Holds] at hz hnot
    simp only [saturate, int64Max] at hne hnot
    cases hsigned : T.signed with
    | false =>
      simp only [hsigned, Bool.false_eq_true, if_false] at hz hnot
      omega
    | true =>
      simp only [hsigned, if_true] at hz hnot
      omega
  · rintro ⟨hz, hs⟩
    rw [hs]
    exact (T.wrap_eq_iff z).mpr hz

/-- An option is exact exactly when its text is plain. -/
theorem exact_iff (el : ConftabInt) (av : List (List Byte)) (hav : countArgs av 2) :
    Exact el av ↔ Plain el (av.getD 1 []) := by
  rw [Exact, matchArgs_eq el hav]
  generalize av.getD 1 [] = text
  by_cases hnum : ∃ z, Numeral 0 (cstr text) z
  · obtain ⟨z, hz⟩ := hnum
    have hconv := (convertint_iff el.ty text).mpr ⟨z, hz, rfl⟩
    have hplain : Plain el text ↔
        (cstr text = text ∧ el.ty.wrap (saturate z) = z) ∨
          (¬(el.lb ≤ el.ty.wrap (saturate z) ∧ el.ty.wrap (saturate z) ≤ el.ub) ∧
            (cstr text = text → ¬(el.lb ≤ z ∧ z ≤ el.ub))) := by
      rw [wrap_saturate_iff]
      constructor
      · intro h
        exact h z hz
      · intro h z' hz'
        rw [← numeral_unique hz hz']
        exact h
    have hself : ∀ z', Numeral 0 text z' ↔ cstr text = text ∧ z' = z := by
      intro z'
      constructor
      · intro h
        have heq := cstr_of_numeral h
        rw [heq] at hz
        exact ⟨heq, numeral_unique h hz⟩
      · rintro ⟨heq, rfl⟩
        rwa [heq] at hz
    rw [hplain, hconv]
    generalize el.ty.wrap (saturate z) = w
    by_cases hin : el.lb ≤ w ∧ w ≤ el.ub
    · simp only [hin, and_self, if_true, hself, true_iff, not_true, false_and, or_false,
        forall_const]
      constructor
      · exact fun h => h.2
      · rintro ⟨heq, rfl⟩
        exact ⟨⟨w, ⟨heq, rfl⟩, hin⟩, heq, rfl⟩
    · simp only [hin, if_false, hself, not_false_eq_true, true_and, reduceCtorEq, false_iff,
        false_implies, and_true]
      constructor
      · intro h
        right
        intro heq hbounds
        exact h ⟨z, ⟨heq, rfl⟩, hbounds⟩
      · rintro (⟨heq, rfl⟩ | h) ⟨z', ⟨heq', rfl⟩, hbounds⟩
        · exact hin hbounds
        · exact h heq' hbounds
  · have hconv : convertint el.ty text = none := by
      cases hc : convertint el.ty text with
      | none => rfl
      | some w =>
        obtain ⟨z, hz, -⟩ := (convertint_iff el.ty text).mp hc
        exact absurd ⟨z, hz⟩ hnum
    have hnone : ∀ z, ¬ Numeral 0 text z := by
      intro z h
      apply hnum
      exact ⟨z, (cstr_of_numeral h).symm ▸ h⟩
    have hplain : Plain el text := fun z hz => absurd ⟨z, hz⟩ hnum
    simp [hconv, hnone, hplain]

/-- An `int` in `0 .. 32`, from a blank, a sign and hexadecimal digits. -/
theorem exact_hex :
    Exact ⟨⟨true, 32, by decide⟩, 0, 32, 0, 0, false⟩
      [[0x78], [0x20, 0x2b, 0x30, 0x78, 0x31, 0x46]] := by
  apply (exact_iff _ _ (by decide)).mpr
  intro z hz
  have hbody : Body 0 [0x30, 0x78, 0x31, 0x46] 31 :=
    .hex 0x78 [0x31, 0x46] 31 (.inl rfl) (.inl rfl) ⟨by decide, by decide, rfl⟩
  have hnum : Numeral 0 [0x20, 0x2b, 0x30, 0x78, 0x31, 0x46] 31 :=
    .plus [0x20] [0x2b] _ 31 (by decide) (.inr rfl) hbody
  have h31 : z = 31 := numeral_unique hz hnum
  rw [h31]
  left
  constructor
  · rfl
  · constructor
    · simp [IntType.Holds]
    · rfl

/-- An `int` in `0 .. 32` takes `2 ^ 32 + 5` for five. -/
theorem exact_wraps :
    ¬ Exact ⟨⟨true, 32, by decide⟩, 0, 32, 0, 0, false⟩
      [[0x78], [0x34, 0x32, 0x39, 0x34, 0x39, 0x36, 0x37, 0x33, 0x30, 0x31]] := by
  rintro ⟨-, hstore⟩
  have hfive := hstore (by decide)
  have hnum : Numeral 0 [0x34, 0x32, 0x39, 0x34, 0x39, 0x36, 0x37, 0x33, 0x30, 0x31] 4294967301 :=
    .plus [] [] _ 4294967301 (by decide) (.inl rfl)
      (.decimal _ _ rfl (by decide) ⟨by decide, by decide, rfl⟩)
  have := numeral_unique hfive hnum
  revert this
  decide

end ConftabInt

end Sfslite.Async
