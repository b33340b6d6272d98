import Sfslite.Async.Convertint
import Sfslite.Async.ArmorRoundTrip

/-!
Self-certifying pathnames, `sfspath.C`. A `const char *` into a `str` is the list of the bytes that
are left of the `str`, with the null byte behind them. No function reads past it.
-/

namespace Sfslite.Sfsmisc.Sfspath

open Sfslite.Arpc (Byte)
open Sfslite.Async.Armor Sfslite.Async.Convertint

/-- `opaque sfs_hash[20]`. -/
abbrev SfsHash := { b : List Byte // b.length = 20 }

def asciiHostidLen : ℕ := (20 * 8 + 4) / 5

/-- `sfs_ascii2hostid`. -/
def sfsAscii2hostid (p : List Byte) : Option SfsHash :=
  if armor32len (p ++ [0#8]) ≠ some asciiHostidLen ∨ deref (p.drop asciiHostidLen) ≠ 0#8 then none
  else
    match dearmor32 (p ++ [0#8]) asciiHostidLen with
    | some (some raw) =>
      if h : 20 ≤ raw.length then some ⟨raw.take 20, by rw [List.length_take]; omega⟩ else none
    | _ => none

def isLabelChar (c : Byte) : Bool :=
  (0x61#8 ≤ c && c ≤ 0x7a#8) || (0x30#8 ≤ c && c ≤ 0x39#8) || c = 0x2d#8

/-- `sfsgethost_label`: where `p` is left, if there is a label. -/
def sfsgethostLabel (p : List Byte) : Option (List Byte) :=
  let s := p.dropWhile isLabelChar
  if p.length - s.length = 0 ∨ p.length - s.length > 63 then none else some s

def sfsgethostDotlabel (p : List Byte) : Option (List Byte) :=
  if deref p ≠ 0x2e#8 then none else sfsgethostLabel p.tail

/-- `!qualified || sfsgethost_dotlabel (s)`. -/
def secondLabel (qualified : Bool) (s : List Byte) : Option (List Byte) :=
  if qualified then sfsgethostDotlabel s else some s

/-- `while (sfsgethost_dotlabel (s));`, for at most as many turns as there are bytes. -/
def dotlabels : ℕ → List Byte → List Byte
  | 0, s => s
  | n + 1, s =>
    match sfsgethostDotlabel s with
    | some s' => dotlabels n s'
    | none => s

/-- `sfsgethost`: the host and where `p` is left. -/
def sfsgethost (p : List Byte) (qualified : Bool) : Option (List Byte × List Byte) := do
  let s ← sfsgethostLabel p
  let s ← secondLabel qualified s
  let s := dotlabels s.length s
  if p.length - s.length > 255 then none else some (p.take (p.length - s.length), s)

/-- `sfsgetlocation`: the host, the port and where `pp` is left. -/
def sfsgetlocation (pp : List Byte) (qualified : Bool) :
    Option (List Byte × BitVec 16 × List Byte) := do
  let (host, p) ← sfsgethost pp qualified
  if deref p = 0x25#8 then
    let (port, p) := strtoi64 p.tail 10
    if port ≤ 0 ∨ port ≥ 0xffff ∨ isdigit (deref p) then none
    else some (host, BitVec.ofInt 16 port, p)
  else some (host, 0#16, p)

def sfsgetatlocation (pp : List Byte) (qualified : Bool) :
    Option (List Byte × BitVec 16 × List Byte) :=
  if deref pp ≠ 0x40#8 then none else sfsgetlocation pp.tail qualified

/-- What `sfs_parsepath` answers through its pointers. -/
structure Location where
  host : List Byte
  hostid : SfsHash
  port : BitVec 16
deriving DecidableEq, Repr

def sfsParsepathV2 (path : List Byte) : Option Location := do
  let (host, port, p) ← sfsgetatlocation path true
  if deref p ≠ 0x2c#8 then none
  else
    let hostid ← sfsAscii2hostid p.tail
    some ⟨host, hostid, port⟩

def sfsParsepathV1 (path : List Byte) : Option Location :=
  let atno := strtoi64 path 10
  let portAt := isdigit (deref path) && deref atno.2 = 0x40#8 && 0 < atno.1 && atno.1 < 0x10000
  let port : BitVec 16 := if portAt then BitVec.ofInt 16 atno.1 else 0#16
  let path := if portAt then atno.2.tail else path
  match sfsgethost path true with
  | none => none
  | some (_, p) =>
    let host := path.take (path.length - p.length)
    if deref p ≠ 0x3a#8 then none
    else (sfsAscii2hostid p.tail).map fun hostid => ⟨host, hostid, port⟩

/-- `strchr (p, c)`, whether it finds something. -/
def strchr (p : List Byte) (c : Byte) : Bool := (p.takeWhile (· ≠ 0#8)).contains c

/-- `sfs_parsepath`: the version and the rest. -/
def sfsParsepath (path : List Byte) : ℕ × Option Location :=
  if strchr path 0x3a#8 then (1, sfsParsepathV1 path) else (2, sfsParsepathV2 path)

/-- What `mkpath` uses of a `sfs_servinfo_w`. -/
structure ServinfoW where
  hostname : List Byte
  port : ℤ
  mkhostid : ℤ → Option SfsHash

/-- `b << port`, `b << armor32 (&hostid, sizeof (hostid))`. -/
def mkpathV1 (host : List Byte) (port : ℤ) (hostid : List Byte) : List Byte :=
  (if port ≠ 0 then decimal port ++ [0x40#8] else []) ++ (host ++ 0x3a#8 :: hostid)

def mkpathV2 (host : List Byte) (port : ℤ) (hostid : List Byte) : List Byte :=
  0x40#8 :: (host ++ ((if port ≠ 0 then 0x25#8 :: decimal port else []) ++ 0x2c#8 :: hostid))

/-- `sfs_servinfo_w::mkpath`. -/
def ServinfoW.mkpath (si : ServinfoW) (vers : ℤ) (port : ℤ) : Option (List Byte) :=
  match si.mkhostid vers with
  | none => some (chars ":ERROR: Could not make hostid".toList)
  | some hostid => do
      let text ← armor32 hostid.1
      if vers = 1 then some (mkpathV1 si.hostname port text)
      else some (mkpathV2 si.hostname (if port = -1 then si.port else port) text)

def IsHostChar (c : Byte) : Prop := isLabelChar c = true ∨ c = 0x2e#8

theorem isHostChar_lt {c : Byte} (h : IsHostChar c) : 0x2d ≤ c.toNat ∧ c.toNat ≠ 0x3a ∧
    c.toNat ≠ 0x40 := by
  rcases h with h | rfl
  · simp only [isLabelChar, Bool.or_eq_true, Bool.and_eq_true, decide_eq_true_iff, BitVec.le_def,
      ← BitVec.toNat_inj, BitVec.toNat_ofNat, Nat.reduceMod, Nat.reducePow] at h
    omega
  · decide

/-- The text behind a hostname starts with no character of a hostname. -/
def Stops (rest : List Byte) : Prop := ¬IsHostChar (deref rest)

/-- `s` is left of `p` behind characters of a hostname. -/
def Leaves (p s : List Byte) : Prop := ∃ host, p = host ++ s ∧ ∀ c ∈ host, IsHostChar c

theorem Leaves.refl (p : List Byte) : Leaves p p := ⟨[], rfl, fun _ hc => nomatch hc⟩

variable {p s : List Byte}

theorem Leaves.trans {t : List Byte} (hs : Leaves p s) (ht : Leaves s t) : Leaves p t := by
  obtain ⟨host, rfl, hhost⟩ := hs
  obtain ⟨host', rfl, hhost'⟩ := ht
  refine ⟨host ++ host', (List.append_assoc ..).symm, fun c hc => ?_⟩
  exact (List.mem_append.mp hc).elim (hhost c) (hhost' c)

theorem Leaves.length_le (h : Leaves p s) : s.length ≤ p.length := by
  obtain ⟨host, rfl, -⟩ := h
  rw [List.length_append]
  omega

theorem sfsgethostLabel_leaves (h : sfsgethostLabel p = some s) :
    Leaves p s ∧ s.length < p.length := by
  rw [sfsgethostLabel] at h
  split at h
  · cases h
  next hlen =>
    cases h
    refine ⟨⟨p.takeWhile isLabelChar, List.takeWhile_append_dropWhile.symm, ?_⟩, by omega⟩
    exact fun c hc => Or.inl (List.mem_takeWhile_imp hc)

theorem sfsgethostDotlabel_leaves (h : sfsgethostDotlabel p = some s) :
    Leaves p s ∧ s.length < p.length := by
  rw [sfsgethostDotlabel] at h
  split at h
  · cases h
  next hdot =>
    rw [ne_eq, not_not] at hdot
    match p with
    | [] => exact absurd hdot (by decide)
    | c :: p =>
      obtain ⟨⟨host, hp, hhost⟩, hlen⟩ := sfsgethostLabel_leaves h
      rw [List.tail_cons] at hp hlen
      refine ⟨⟨c :: host, by rw [hp, List.cons_append], fun c' hc' => ?_⟩, ?_⟩
      · rcases List.mem_cons.mp hc' with rfl | hc'
        · exact Or.inr hdot
        · exact hhost c' hc'
      · rw [List.length_cons]
        omega

theorem dotlabels_leaves (n : ℕ) (s : List Byte) : Leaves s (dotlabels n s) := by
  induction n generalizing s with
  | zero => exact .refl s
  | succ n ih =>
    rw [dotlabels]
    split
    · next s' hs' => exact (sfsgethostDotlabel_leaves hs').1.trans (ih s')
    · exact .refl s

theorem sfsgethost_leaves {host : List Byte} {qualified : Bool}
    (h : sfsgethost p qualified = some (host, s)) : p = host ++ s ∧ ∀ c ∈ host, IsHostChar c := by
  simp only [sfsgethost, Option.bind_eq_bind] at h
  obtain ⟨s₁, hlabel, h⟩ := Option.bind_eq_some_iff.mp h
  obtain ⟨s₂, hqualified, h⟩ := Option.bind_eq_some_iff.mp h
  have hs₂ : Leaves s₁ s₂ := by
    cases qualified with
    | true => exact (sfsgethostDotlabel_leaves hqualified).1
    | false =>
      cases hqualified
      exact .refl _
  split at h
  · cases h
  · cases h
    obtain ⟨host, hp, hhost⟩ := ((sfsgethostLabel_leaves hlabel).1.trans hs₂).trans
      (dotlabels_leaves s₂.length s₂)
    have htake : p.take (p.length - (dotlabels s₂.length s₂).length) = host := by
      conv_lhs => rw [hp]
      rw [List.length_append, Nat.add_sub_cancel, List.take_left]
    rw [htake]
    exact ⟨hp, hhost⟩

section Append

variable {rest : List Byte} (hrest : Stops rest)
include hrest

theorem sfsgethostLabel_append (p : List Byte) :
    sfsgethostLabel (p ++ rest) = (sfsgethostLabel p).map (· ++ rest) := by
  have hdrop : (p ++ rest).dropWhile isLabelChar = p.dropWhile isLabelChar ++ rest := by
    have hstop : rest.dropWhile isLabelChar = rest := by
      cases rest with
      | nil => rfl
      | cons c rest => exact List.dropWhile_cons_of_neg fun hc => hrest (Or.inl hc)
    rw [List.dropWhile_append, hstop]
    split
    · next hnil => rw [List.isEmpty_iff.mp hnil, List.nil_append]
    · rfl
  simp only [sfsgethostLabel, hdrop, List.length_append, Nat.add_sub_add_right]
  split <;> rfl

theorem sfsgethostDotlabel_append (p : List Byte) :
    sfsgethostDotlabel (p ++ rest) = (sfsgethostDotlabel p).map (· ++ rest) := by
  cases p with
  | nil =>
    have hdot : deref rest ≠ 0x2e#8 := fun hdot => hrest (Or.inr hdot)
    rw [List.nil_append, sfsgethostDotlabel, if_pos hdot]
    rfl
  | cons c p =>
    rw [sfsgethostDotlabel, sfsgethostDotlabel, List.cons_append, List.tail_cons,
      List.tail_cons, sfsgethostLabel_append hrest]
    change (if c ≠ 0x2e#8 then none else _) = Option.map _ (if c ≠ 0x2e#8 then none else _)
    split <;> rfl

theorem dotlabels_append (n : ℕ) (s : List Byte) :
    dotlabels n (s ++ rest) = dotlabels n s ++ rest := by
  induction n generalizing s with
  | zero => rfl
  | succ n ih =>
    rw [dotlabels, dotlabels, sfsgethostDotlabel_append hrest]
    cases sfsgethostDotlabel s with
    | none => rfl
    | some s' => exact ih s'

end Append

theorem dotlabels_eq {n m : ℕ} (hn : s.length ≤ n) (hm : s.length ≤ m) :
    dotlabels n s = dotlabels m s := by
  induction n generalizing s m with
  | zero =>
    have hnil : s = [] := List.eq_nil_of_length_eq_zero (by omega)
    subst hnil
    cases m <;> rfl
  | succ n ih =>
    cases m with
    | zero =>
      have hnil : s = [] := List.eq_nil_of_length_eq_zero (by omega)
      subst hnil
      rfl
    | succ m =>
      rw [dotlabels, dotlabels]
      split
      · next s' hs' =>
        have hlt := (sfsgethostDotlabel_leaves hs').2
        exact ih (by omega) (by omega)
      · rfl

theorem sfsgethost_append {rest : List Byte} (hrest : Stops rest) (p : List Byte)
    (qualified : Bool) :
    sfsgethost (p ++ rest) qualified =
      (sfsgethost p qualified).map fun hs => (hs.1, hs.2 ++ rest) := by
  simp only [sfsgethost, Option.bind_eq_bind, sfsgethostLabel_append hrest]
  cases hlabel : sfsgethostLabel p with
  | none => rfl
  | some s₁ =>
    have hqualified : secondLabel qualified (s₁ ++ rest) =
        (secondLabel qualified s₁).map (· ++ rest) := by
      cases qualified with
      | true => exact sfsgethostDotlabel_append hrest s₁
      | false => rfl
    simp only [Option.map_some, Option.bind_some, hqualified]
    cases hs₂ : secondLabel qualified s₁ with
    | none => rfl
    | some s₂ =>
      have hdots : dotlabels (s₂ ++ rest).length (s₂ ++ rest) =
          dotlabels s₂.length s₂ ++ rest := by
        rw [dotlabels_append hrest]
        congr 1
        exact dotlabels_eq (by rw [List.length_append]; omega) le_rfl
      have hle := (dotlabels_leaves s₂.length s₂).length_le
      have hs₂le : s₂.length ≤ s₁.length := by
        cases qualified with
        | true => exact (sfsgethostDotlabel_leaves hs₂).1.length_le
        | false =>
          cases hs₂
          exact le_rfl
      have hs₁le := (sfsgethostLabel_leaves hlabel).1.length_le
      simp only [Option.map_some, Option.bind_some]
      rw [hdots, List.length_append, List.length_append, Nat.add_sub_add_right,
        List.take_append_of_le_length (by omega)]
      split <;> rfl

theorem armorLen_spec {tab : List ℤ} {n : ℕ} (h : armorLen tab s = some n) :
    n < s.length ∧ ∀ c ∈ s.take n, 0 ≤ a2bAt tab c := by
  induction s generalizing n with
  | nil => cases h
  | cons c s ih =>
    rw [armorLen] at h
    split at h
    · next hc =>
      obtain ⟨m, hm, rfl⟩ := Option.map_eq_some_iff.mp h
      obtain ⟨hlt, hall⟩ := ih hm
      refine ⟨Nat.succ_lt_succ hlt, fun c' hc' => ?_⟩
      rw [List.take_succ_cons] at hc'
      rcases List.mem_cons.mp hc' with rfl | hc'
      · exact hc
      · exact hall c' hc'
    · cases h
      exact ⟨Nat.zero_lt_succ _, fun _ hc' => by simp at hc'⟩

theorem sfsAscii2hostid_text {hid : SfsHash} {text rest : List Byte}
    (htext : armor32 hid.1 = some text) (hrest : deref rest = 0#8) :
    text.length = asciiHostidLen ∧ sfsAscii2hostid (text ++ rest) = some hid := by
  obtain ⟨rest', hrest'⟩ : ∃ rest', rest ++ [0#8] = 0#8 :: rest' := by
    match rest with
    | [] => exact ⟨[], rfl⟩
    | c :: rest =>
      have hc : c = 0#8 := hrest
      exact ⟨rest ++ [0#8], by rw [hc, List.cons_append]⟩
  rw [armor32, armor32With_eq, Option.some.injEq] at htext
  subst htext
  have hlen : (quintets hid.1).length = asciiHostidLen := by
    rw [(length_quintets hid.1).1, hid.2]
    rfl
  have hlen' : ((quintets hid.1).map (enc b2a32)).length = asciiHostidLen := by
    rw [List.length_map, hlen]
  have harmor : armor32len ((quintets hid.1).map (enc b2a32) ++ rest ++ [0#8]) =
      some asciiHostidLen := by
    rw [List.append_assoc, hrest', armor32len_quintets rest', hlen]
    intro q _
    rw [alphabet_32.a2b_enc]
    exact Int.natCast_nonneg _
  have hdearmor : dearmor32 ((quintets hid.1).map (enc b2a32) ++ rest ++ [0#8]) asciiHostidLen =
      some (some hid.1) := by
    rw [List.append_assoc]
    refine dearmor32With_text alphabet_32 hid.1 _ _ ?_
    rw [textLen_natCast, hlen]
  have hend : deref (((quintets hid.1).map (enc b2a32) ++ rest).drop asciiHostidLen) = 0#8 := by
    rw [List.drop_left' hlen', hrest]
  refine ⟨hlen', ?_⟩
  rw [sfsAscii2hostid, if_neg (by rw [harmor, hend]; simp), hdearmor]
  have hfits : 20 ≤ hid.1.length := hid.2.ge
  simp only [dif_pos hfits, Option.some.injEq]
  exact Subtype.ext (List.take_of_length_le hid.2.le)

theorem armor32_of_sfsAscii2hostid {hid : SfsHash} (h : sfsAscii2hostid p = some hid) :
    ∃ text rest, p = text ++ rest ∧ armor32 hid.1 = some text ∧ deref rest = 0#8 := by
  have hread := h
  rw [sfsAscii2hostid] at h
  split at h
  · cases h
  next hascii =>
    rw [not_or, not_not, not_not] at hascii
    obtain ⟨hlt, hall⟩ := armorLen_spec hascii.1
    rw [List.length_append, List.length_singleton] at hlt
    have hlen : (p.take asciiHostidLen).length = 8 * 4 := by
      rw [List.length_take, Nat.min_eq_left (by omega)]
      rfl
    rw [List.take_append_of_le_length (by omega)] at hall
    obtain ⟨x, hx, htext⟩ := exists_armor32 hlen hall
    have htext : armor32 (⟨x, hx⟩ : SfsHash).1 = some (p.take asciiHostidLen) := htext
    have hself := (sfsAscii2hostid_text htext hascii.2).2
    rw [List.take_append_drop, hread, Option.some.injEq] at hself
    subst hself
    exact ⟨_, _, (List.take_append_drop asciiHostidLen p).symm, htext, hascii.2⟩

end Sfslite.Sfsmisc.Sfspath
