import Sfslite.Sfsmisc.Sfspath

/-!
Parsing the paths that `mkpath` builds, and which other strings `sfs_parsepath_v2` accepts: the port
is read with `strtoi64`, which passes blanks, a sign and leading zeros, and what stands behind a
null byte is not looked at.
-/

namespace Sfslite.Sfsmisc.Sfspath

open Sfslite.Arpc (Byte)
open Sfslite.Async.Armor Sfslite.Async.Convertint

theorem strchr_append {l r : List Byte} {c : Byte} (hc : c ≠ 0#8) (hl : ∀ x ∈ l, x ≠ 0#8) :
    strchr (l ++ c :: r) c = true := by
  have hall : ∀ x ∈ l, decide (x ≠ 0#8) = true := fun x hx => decide_eq_true (hl x hx)
  have hmem : c ∈ (l ++ c :: r).takeWhile fun x => decide (x ≠ 0#8) := by
    rw [List.takeWhile_append_of_pos hall, List.mem_append]
    refine Or.inr ?_
    rw [List.takeWhile_cons_of_pos (by exact decide_eq_true hc)]
    exact List.mem_cons_self
  exact List.contains_iff_mem.mpr hmem

theorem strchr_of_not_mem {p : List Byte} {c : Byte} (hc : c ∉ p) : strchr p c = false := by
  rw [strchr, ← Bool.not_eq_true, List.contains_iff_mem]
  exact fun hmem => hc ((List.takeWhile_prefix _).subset hmem)

theorem ne_nul_of_isHostChar {c : Byte} (h : IsHostChar c) : c ≠ 0#8 := by
  rintro rfl
  exact absurd (isHostChar_lt h).1 (by decide)

theorem ne_colon_of_isHostChar {c : Byte} (h : IsHostChar c) : c ≠ 0x3a#8 := by
  rintro rfl
  exact (isHostChar_lt h).2.1 rfl

theorem armor32_mem {x text : List Byte} (h : armor32 x = some text) {c : Byte} (hc : c ∈ text) :
    0 ≤ a2bAt a2b32 c := by
  rw [armor32, armor32With_eq, Option.some.injEq] at h
  subst h
  exact alphabet_32.enc_mem c hc

theorem stops_of_not {c : Byte} {rest : List Byte} (h : ¬IsHostChar c) : Stops (c :: rest) := h

theorem not_isHostChar_colon : ¬IsHostChar 0x3a#8 := fun h => (isHostChar_lt h).2.1 rfl

theorem not_isHostChar_comma : ¬IsHostChar 0x2c#8 :=
  fun h => absurd (isHostChar_lt h).1 (by decide)

theorem not_isHostChar_percent : ¬IsHostChar 0x25#8 :=
  fun h => absurd (isHostChar_lt h).1 (by decide)

theorem decimal_natCast (n : ℕ) : decimal n = decimalNat n := by
  rw [decimal, if_neg (by omega), Int.natAbs_natCast]

section Paths

variable {host text : List Byte} {hid : SfsHash} (port : BitVec 16)

theorem sfsParsepathV1_host (hhost : sfsgethost host true = some (host, []))
    (htext : armor32 hid.1 = some text) :
    sfsgethost (host ++ 0x3a#8 :: text) true = some (host, 0x3a#8 :: text) ∧
      (host ++ 0x3a#8 :: text).take
        ((host ++ 0x3a#8 :: text).length - (0x3a#8 :: text).length) = host ∧
      sfsAscii2hostid text = some hid := by
  have hself := (sfsAscii2hostid_text htext (show deref [] = 0#8 from rfl)).2
  rw [List.append_nil] at hself
  refine ⟨?_, ?_, hself⟩
  · rw [sfsgethost_append (stops_of_not not_isHostChar_colon), hhost]
    rfl
  · rw [List.length_append, Nat.add_sub_cancel, List.take_left]

theorem sfsParsepathV1_port (hhost : sfsgethost host true = some (host, []))
    (htext : armor32 hid.1 = some text) (hport : port ≠ 0#16) :
    sfsParsepathV1 (mkpathV1 host port.toNat text) = some ⟨host, hid, port⟩ := by
  obtain ⟨hget, htake, hself⟩ := sfsParsepathV1_host hhost htext
  have hne : port.toNat ≠ 0 := fun h => hport (BitVec.eq_of_toNat_eq h)
  have hlt := port.isLt
  have hpath : mkpathV1 host port.toNat text =
      decimalNat port.toNat ++ 0x40#8 :: (host ++ 0x3a#8 :: text) := by
    rw [mkpathV1, if_pos (by omega), decimal_natCast, List.append_assoc]
    rfl
  have hnum : strtoi64 (mkpathV1 host port.toNat text) 10 =
      ((port.toNat : ℤ), 0x40#8 :: (host ++ 0x3a#8 :: text)) := by
    rw [hpath]
    exact strtoi64_decimalNat hne (by rw [int64Max]; omega) (by rfl)
  have hdigit : isdigit (deref (mkpathV1 host port.toNat text)) := by
    obtain ⟨c, hc, hdigit, -⟩ := decimalNat_head hne
    obtain ⟨ds, hds⟩ := List.head?_eq_some_iff.mp hc
    rw [hpath, hds]
    exact hdigit
  have hat : (isdigit (deref (mkpathV1 host port.toNat text)) &&
      decide (deref (0x40#8 :: (host ++ 0x3a#8 :: text)) = 0x40#8) &&
      decide (0 < (port.toNat : ℤ)) && decide ((port.toNat : ℤ) < 0x10000)) = true := by
    rw [hdigit, decide_eq_true (by omega : 0 < (port.toNat : ℤ)),
      decide_eq_true (by omega : (port.toNat : ℤ) < 0x10000)]
    rfl
  rw [sfsParsepathV1]
  simp only [hnum, hat, if_true, List.tail_cons, hget, htake, hself, Option.map_some]
  rw [BitVec.ofInt_natCast, BitVec.ofNat_toNat, BitVec.setWidth_eq]
  rfl

theorem deref_dropWhile_ne (hhost : ∀ c ∈ host, IsHostChar c) :
    deref ((host ++ 0x3a#8 :: text).dropWhile isdigit) ≠ 0x40#8 := by
  have hcolon : (0x3a#8 :: text).dropWhile isdigit = 0x3a#8 :: text :=
    List.dropWhile_cons_of_neg (by decide)
  rw [List.dropWhile_append, hcolon]
  split
  · exact (by decide : (0x3a#8 : Byte) ≠ 0x40#8)
  · next hne =>
    match hdrop : host.dropWhile isdigit with
    | [] => exact absurd (List.isEmpty_iff.mpr hdrop) hne
    | c :: rest =>
      have hmem : c ∈ host := by
        refine (List.dropWhile_suffix isdigit).subset ?_
        rw [hdrop]
        exact List.mem_cons_self
      rintro rfl
      exact (isHostChar_lt (hhost _ hmem)).2.2 rfl

theorem sfsParsepathV1_noport (hhost : sfsgethost host true = some (host, []))
    (htext : armor32 hid.1 = some text) :
    sfsParsepathV1 (mkpathV1 host 0 text) = some ⟨host, hid, 0#16⟩ := by
  obtain ⟨hget, htake, hself⟩ := sfsParsepathV1_host hhost htext
  have hchars := (sfsgethost_leaves hhost).2
  have hpath : mkpathV1 host 0 text = host ++ 0x3a#8 :: text := rfl
  have hat : (isdigit (deref (host ++ 0x3a#8 :: text)) &&
      decide (deref (strtoi64 (host ++ 0x3a#8 :: text) 10).2 = 0x40#8)) = false := by
    cases hdigit : isdigit (deref (host ++ 0x3a#8 :: text)) with
    | false => rfl
    | true =>
      rw [strtoi64_decimal hdigit, decide_eq_false (deref_dropWhile_ne hchars)]
      rfl
  rw [sfsParsepathV1, hpath]
  simp only [hat, Bool.false_and, Bool.false_eq_true, if_false, hget, htake, List.tail_cons,
    hself, Option.map_some]
  rfl

theorem sfsParsepathV2_mkpath (hhost : sfsgethost host true = some (host, []))
    (htext : armor32 hid.1 = some text) :
    sfsParsepathV2 (mkpathV2 host port.toNat text) =
      if port = 0xffff#16 then none else some ⟨host, hid, port⟩ := by
  have hself := (sfsAscii2hostid_text htext (show deref [] = 0#8 from rfl)).2
  rw [List.append_nil] at hself
  have hlt := port.isLt
  by_cases hzero : port = 0#16
  · subst hzero
    have hpath : mkpathV2 host (0#16).toNat text = 0x40#8 :: (host ++ 0x2c#8 :: text) := rfl
    have hget : sfsgethost (host ++ 0x2c#8 :: text) true = some (host, 0x2c#8 :: text) := by
      rw [sfsgethost_append (stops_of_not not_isHostChar_comma), hhost]
      rfl
    rw [sfsParsepathV2, hpath, sfsgetatlocation, if_neg (by exact not_not_intro rfl),
      sfsgetlocation, List.tail_cons, hget]
    simp only [Option.bind_eq_bind, Option.bind_some]
    rw [if_neg (by decide : ¬(0#16 : BitVec 16) = 0xffff#16)]
    change (sfsAscii2hostid text).bind _ = _
    rw [hself]
    rfl
  · have hne : port.toNat ≠ 0 := fun h => hzero (BitVec.eq_of_toNat_eq h)
    have hpath : mkpathV2 host port.toNat text =
        0x40#8 :: (host ++ 0x25#8 :: (decimalNat port.toNat ++ 0x2c#8 :: text)) := by
      rw [mkpathV2, if_pos (by omega), decimal_natCast]
      rfl
    have hget : sfsgethost (host ++ 0x25#8 :: (decimalNat port.toNat ++ 0x2c#8 :: text)) true =
        some (host, 0x25#8 :: (decimalNat port.toNat ++ 0x2c#8 :: text)) := by
      rw [sfsgethost_append (stops_of_not not_isHostChar_percent), hhost]
      rfl
    have hnum : strtoi64 (decimalNat port.toNat ++ 0x2c#8 :: text) 10 =
        ((port.toNat : ℤ), 0x2c#8 :: text) :=
      strtoi64_decimalNat hne (by rw [int64Max]; omega) (by rfl)
    have hlast : ((port.toNat : ℤ) ≤ 0 ∨ (port.toNat : ℤ) ≥ 0xffff ∨
        isdigit (deref (0x2c#8 :: text)) = true) ↔ port = 0xffff#16 := by
      have hcomma : isdigit (deref (0x2c#8 :: text)) = false := rfl
      rw [hcomma, ← BitVec.toNat_inj]
      change _ ↔ port.toNat = 65535
      constructor
      · rintro (h | h | h)
        · omega
        · omega
        · cases h
      · omega
    rw [sfsParsepathV2, hpath, sfsgetatlocation, if_neg (by exact not_not_intro rfl),
      sfsgetlocation, List.tail_cons, hget]
    simp only [Option.bind_eq_bind, Option.bind_some]
    change Option.bind (if (0x25#8 : Byte) = 0x25#8 then _ else _) _ = _
    rw [if_pos rfl, List.tail_cons, hnum]
    simp only [hlast]
    by_cases hmax : port = 0xffff#16
    · rw [if_pos hmax, if_pos hmax]
      rfl
    · rw [if_neg hmax, if_neg hmax]
      change (sfsAscii2hostid text).bind _ = _
      rw [hself, BitVec.ofInt_natCast, BitVec.ofNat_toNat, BitVec.setWidth_eq]
      rfl

theorem strchr_mkpathV1 (hhost : ∀ c ∈ host, IsHostChar c) :
    strchr (mkpathV1 host port.toNat text) 0x3a#8 = true := by
  have hsplit : ∃ l, mkpathV1 host port.toNat text = l ++ 0x3a#8 :: text ∧ ∀ c ∈ l, c ≠ 0#8 := by
    refine ⟨(if (port.toNat : ℤ) ≠ 0 then decimal port.toNat ++ [0x40#8] else []) ++ host,
      (List.append_assoc ..).symm, fun c hc => ?_⟩
    rcases List.mem_append.mp hc with hc | hc
    · split at hc
      · rcases List.mem_append.mp hc with hc | hc
        · rintro rfl
          rw [decimal_natCast] at hc
          exact absurd (isdigit_of_mem_decimalNat hc) (by decide)
        · rw [List.mem_singleton.mp hc]
          decide
      · cases hc
    · exact ne_nul_of_isHostChar (hhost c hc)
  obtain ⟨l, hl, hne⟩ := hsplit
  rw [hl]
  exact strchr_append (by decide) hne

theorem strchr_mkpathV2 (hhost : ∀ c ∈ host, IsHostChar c) (htext : armor32 hid.1 = some text) :
    strchr (mkpathV2 host port.toNat text) 0x3a#8 = false := by
  refine strchr_of_not_mem fun hmem => ?_
  rw [mkpathV2, List.mem_cons, List.mem_append, List.mem_append, List.mem_cons] at hmem
  rcases hmem with h | h | h | h | h
  · exact absurd h (by decide)
  · exact ne_colon_of_isHostChar (hhost _ h) rfl
  · split at h
    · rcases List.mem_cons.mp h with h | h
      · exact absurd h (by decide)
      · rw [decimal_natCast] at h
        exact absurd (isdigit_of_mem_decimalNat h) (by decide)
    · cases h
  · exact absurd h (by decide)
  · exact absurd (armor32_mem htext h) (by decide)

end Paths

/-- The parser takes a path back to what `mkpath` built it from, but for the last port in
version 2. -/
theorem sfsParsepath_mkpath (si : ServinfoW) {vers : ℤ} (hvers : vers = 1 ∨ vers = 2)
    {hid : SfsHash} (hmkhostid : si.mkhostid vers = some hid)
    (hhost : sfsgethost si.hostname true = some (si.hostname, [])) (port : BitVec 16) :
    (∃ path, si.mkpath vers port.toNat = some path ∧
      (sfsParsepath path).2 = some ⟨si.hostname, hid, port⟩) ↔
      vers = 1 ∨ port ≠ 0xffff#16 := by
  obtain ⟨text, htext⟩ : ∃ text, armor32 hid.1 = some text := ⟨_, armor32With_eq b2a32 hid.1⟩
  have hchars := (sfsgethost_leaves hhost).2
  rcases hvers with rfl | rfl
  · refine iff_of_true ⟨mkpathV1 si.hostname port.toNat text, ?_, ?_⟩ (Or.inl rfl)
    · rw [ServinfoW.mkpath, hmkhostid]
      simp only [Option.bind_eq_bind, htext, Option.bind_some, if_true]
    · rw [sfsParsepath, if_pos (strchr_mkpathV1 port hchars)]
      by_cases hzero : port = 0#16
      · subst hzero
        exact sfsParsepathV1_noport hhost htext
      · exact sfsParsepathV1_port port hhost htext hzero
  · have hmk : si.mkpath 2 port.toNat = some (mkpathV2 si.hostname port.toNat text) := by
      rw [ServinfoW.mkpath, hmkhostid]
      simp only [Option.bind_eq_bind, htext, Option.bind_some]
      rw [if_neg (by decide), if_neg (by omega)]
    have hparse : (sfsParsepath (mkpathV2 si.hostname port.toNat text)).2 =
        if port = 0xffff#16 then none else some ⟨si.hostname, hid, port⟩ := by
      rw [sfsParsepath, strchr_mkpathV2 port hchars htext]
      exact sfsParsepathV2_mkpath port hhost htext
    constructor
    · rintro ⟨path, hpath, h⟩
      rw [hmk, Option.some.injEq] at hpath
      subst hpath
      rw [hparse] at h
      split at h
      · cases h
      · next hne => exact Or.inr hne
    · intro h
      have hne : port ≠ 0xffff#16 := h.resolve_left (by decide)
      exact ⟨_, hmk, by rw [hparse, if_neg hne]⟩

/-- The host `a.b` with a host id of zeros. -/
def exampleServinfo : ServinfoW where
  hostname := [0x61#8, 0x2e#8, 0x62#8]
  port := 0
  mkhostid _ := some ⟨List.replicate 20 0#8, rfl⟩

theorem sfsParsepath_mkpath_example :
    ∃ path, exampleServinfo.mkpath 2 4711 = some path ∧
      (sfsParsepath path).2 = some ⟨[0x61#8, 0x2e#8, 0x62#8], ⟨List.replicate 20 0#8, rfl⟩,
        4711#16⟩ :=
  (sfsParsepath_mkpath exampleServinfo (Or.inr rfl) rfl (by decide) 4711#16).mpr
    (Or.inr (by decide))

/-- With the last port the path of version 2 is refused. -/
theorem sfsParsepath_last_port :
    ¬∀ (si : ServinfoW) (vers : ℤ), vers = 1 ∨ vers = 2 → ∀ hid, si.mkhostid vers = some hid →
      sfsgethost si.hostname true = some (si.hostname, []) → ∀ port : BitVec 16,
      ∃ path, si.mkpath vers port.toNat = some path ∧
        (sfsParsepath path).2 = some ⟨si.hostname, hid, port⟩ := by
  intro h
  obtain ⟨path, hpath, hparse⟩ := h exampleServinfo 2 (Or.inr rfl) _ rfl (by decide) 0xffff#16
  have hlast : exampleServinfo.mkpath 2 (0xffff#16).toNat = some
      (0x40#8 :: 0x61#8 :: 0x2e#8 :: 0x62#8 :: 0x25#8 :: 0x36#8 :: 0x35#8 :: 0x35#8 :: 0x33#8 ::
        0x35#8 :: 0x2c#8 :: List.replicate 32 0x61#8) := by
    decide
  rw [hpath, Option.some.injEq] at hlast
  subst hlast
  exact absurd hparse (by decide)

/-- `path` is `@host(%port)?,hostid` with the port in plain decimal form. -/
def Canonical (path : List Byte) (loc : Location) : Prop :=
  ∃ text, armor32 loc.hostid.1 = some text ∧ path = mkpathV2 loc.host loc.port.toNat text

/-- The character behind the first `%`, if there is one, is one of `1` to `9`. -/
def PlainPort (path : List Byte) : Prop :=
  match path.dropWhile (· ≠ 0x25#8) with
  | _ :: c :: _ => 0x31#8 ≤ c ∧ c ≤ 0x39#8
  | _ => True

/-- What is behind the hostname of a path that is accepted. -/
inductive AfterHost (loc : Location) : List Byte → Prop where
  | noport {q : List Byte} (hport : loc.port = 0#16)
      (hid : sfsAscii2hostid q = some loc.hostid) : AfterHost loc (0x2c#8 :: q)
  | port {p q : List Byte} {v : ℤ} (hread : strtoi64 p 10 = (v, 0x2c#8 :: q)) (hpos : 0 < v)
      (hlt : v < 0xffff) (hport : loc.port = BitVec.ofInt 16 v)
      (hid : sfsAscii2hostid q = some loc.hostid) : AfterHost loc (0x25#8 :: p)

theorem eq_cons_of_deref {p : List Byte} {c : Byte} (h : deref p = c) (hc : c ≠ 0#8) :
    p = c :: p.tail := by
  match p with
  | [] => exact absurd h.symm hc
  | c' :: p =>
    have hc' : c' = c := h
    rw [hc', List.tail_cons]

theorem afterHost_of_accepted {path : List Byte} {loc : Location}
    (h : sfsParsepathV2 path = some loc) :
    ∃ p, path = 0x40#8 :: (loc.host ++ p) ∧ (∀ c ∈ loc.host, IsHostChar c) ∧
      AfterHost loc p := by
  simp only [sfsParsepathV2, Option.bind_eq_bind] at h
  obtain ⟨⟨host, port, p⟩, hat, h⟩ := Option.bind_eq_some_iff.mp h
  dsimp only at h
  split at h
  · cases h
  next hcomma =>
  rw [ne_eq, not_not] at hcomma
  have hp := eq_cons_of_deref hcomma (by decide)
  obtain ⟨hostid, hid, h⟩ := Option.bind_eq_some_iff.mp h
  cases h
  rw [sfsgetatlocation] at hat
  split at hat
  · cases hat
  next hatsign =>
  rw [ne_eq, not_not] at hatsign
  have hpath := eq_cons_of_deref hatsign (by decide)
  simp only [sfsgetlocation, Option.bind_eq_bind] at hat
  obtain ⟨⟨host', p'⟩, hget, hat⟩ := Option.bind_eq_some_iff.mp hat
  obtain ⟨htail, hchars⟩ := sfsgethost_leaves hget
  dsimp only at hat
  split at hat
  · next hpercent =>
    have hp' := eq_cons_of_deref hpercent (by decide)
    split at hat
    · cases hat
    · next hrange =>
      rw [not_or, not_or, not_le, ge_iff_le, not_le] at hrange
      cases hat
      refine ⟨p', by rw [← htail, ← hpath], hchars, ?_⟩
      rw [hp']
      refine .port (q := (strtoi64 p'.tail 10).2.tail) ?_ hrange.1 hrange.2.1 rfl hid
      rw [← hp]
  · cases hat
    refine ⟨p, by rw [← htail, ← hpath], hchars, ?_⟩
    rw [hp]
    exact .noport rfl hid

theorem dropWhile_percent {host p : List Byte} (hhost : ∀ c ∈ host, IsHostChar c) :
    (0x40#8 :: (host ++ p)).dropWhile (· ≠ 0x25#8) = p.dropWhile (· ≠ 0x25#8) := by
  have hall : ∀ c ∈ 0x40#8 :: host, decide (c ≠ 0x25#8) = true := by
    intro c hc
    rcases List.mem_cons.mp hc with rfl | hc
    · decide
    · refine decide_eq_true ?_
      rintro rfl
      exact not_isHostChar_percent (hhost _ hc)
  rw [← List.cons_append]
  exact List.dropWhile_append_of_pos hall

theorem dropWhile_percent_cons (p : List Byte) :
    (0x25#8 :: p).dropWhile (· ≠ 0x25#8) = 0x25#8 :: p := rfl

theorem dropWhile_armor32 {x text : List Byte} (htext : armor32 x = some text) :
    (0x2c#8 :: text).dropWhile (· ≠ 0x25#8) = [] := by
  rw [List.dropWhile_eq_nil_iff]
  intro c hc
  refine decide_eq_true ?_
  rintro rfl
  rcases List.mem_cons.mp hc with hc | hc
  · exact absurd hc (by decide)
  · exact absurd (armor32_mem htext hc) (by decide)

theorem plainDigit_iff {c : Byte} (hc : 0x31#8 ≤ c ∧ c ≤ 0x39#8) :
    isdigit c = true ∧ c ≠ 0x30#8 := by
  have hlo : 0x31 ≤ c.toNat := hc.1
  have hhi : c.toNat ≤ 0x39 := hc.2
  refine ⟨isdigit_iff.mpr ⟨by omega, hhi⟩, ?_⟩
  rintro rfl
  exact absurd hlo (by decide)

section Accepted

variable {path : List Byte} {loc : Location}

theorem armor32_of_no_nul {q : List Byte} (hid : sfsAscii2hostid q = some loc.hostid)
    (hnul : 0#8 ∉ q) : armor32 loc.hostid.1 = some q := by
  obtain ⟨text, rest, rfl, htext, hrest⟩ := armor32_of_sfsAscii2hostid hid
  match rest with
  | [] => rw [List.append_nil, htext]
  | c :: rest =>
    have hc : c = 0#8 := hrest
    subst hc
    exact absurd (List.mem_append.mpr (Or.inr List.mem_cons_self)) hnul

theorem canonical_of_plain (h : sfsParsepathV2 path = some loc) (hport : PlainPort path)
    (hnul : 0#8 ∉ path) : Canonical path loc := by
  obtain ⟨p, rfl, hchars, hafter⟩ := afterHost_of_accepted h
  have hnul' : 0#8 ∉ p := fun hmem =>
    hnul (List.mem_cons_of_mem _ (List.mem_append.mpr (Or.inr hmem)))
  cases hafter with
  | noport hzero hid =>
    refine ⟨_, armor32_of_no_nul hid fun hmem => hnul' (List.mem_cons_of_mem _ hmem), ?_⟩
    rw [hzero]
    rfl
  | @port p q v hread hpos hlt hv hid =>
    rw [PlainPort, dropWhile_percent hchars, dropWhile_percent_cons] at hport
    have hplain : p = decimalNat v.toNat ++ 0x2c#8 :: q := by
      match p with
      | [] =>
        have hzero : (0 : ℤ) = v := congrArg Prod.fst hread
        omega
      | c :: p =>
        obtain ⟨hdigit, hne⟩ := plainDigit_iff hport
        exact eq_decimalNat_of_strtoi64 hdigit hne (by rw [int64Max]; omega) hread
    have hport : loc.port.toNat = v.toNat := by
      rw [hv]
      have hcast : v = (v.toNat : ℤ) := by omega
      conv_lhs => rw [hcast]
      rw [BitVec.ofInt_natCast, BitVec.toNat_ofNat, Nat.mod_eq_of_lt (by omega)]
    refine ⟨q, armor32_of_no_nul hid fun hmem => hnul' ?_, ?_⟩
    · rw [hplain]
      exact List.mem_cons_of_mem _ (List.mem_append.mpr
        (Or.inr (List.mem_cons_of_mem _ hmem)))
    · rw [mkpathV2, hport, if_pos (by omega), decimal_natCast, hplain]
      rfl

theorem plain_of_canonical (hchars : ∀ c ∈ loc.host, IsHostChar c) (h : Canonical path loc) :
    PlainPort path ∧ 0#8 ∉ path := by
  obtain ⟨text, htext, rfl⟩ := h
  have hnul_text : 0#8 ∉ text := fun hmem => absurd (armor32_mem htext hmem) (by decide)
  constructor
  · rw [PlainPort, mkpathV2, dropWhile_percent hchars]
    by_cases hport : (loc.port.toNat : ℤ) = 0
    · rw [if_neg (not_not_intro hport), List.nil_append, dropWhile_armor32 htext]
      trivial
    · obtain ⟨c, hc, hdigit, hne⟩ := decimalNat_head (by omega : loc.port.toNat ≠ 0)
      obtain ⟨ds, hds⟩ := List.head?_eq_some_iff.mp hc
      have hdigit := isdigit_iff.mp hdigit
      have hne : c.toNat ≠ 0x30 := fun h => hne (BitVec.eq_of_toNat_eq h)
      rw [if_pos hport, decimal_natCast, hds, List.cons_append, dropWhile_percent_cons]
      have hlo : 0x31 ≤ c.toNat := by omega
      exact ⟨hlo, hdigit.2⟩
  · intro hmem
    rw [mkpathV2, List.mem_cons, List.mem_append, List.mem_append, List.mem_cons] at hmem
    rcases hmem with h | h | h | h | h
    · exact absurd h (by decide)
    · exact ne_nul_of_isHostChar (hchars _ h) rfl
    · split at h
      · rcases List.mem_cons.mp h with h | h
        · exact absurd h (by decide)
        · rw [decimal_natCast] at h
          exact absurd (isdigit_of_mem_decimalNat h) (by decide)
      · cases h
    · exact absurd h (by decide)
    · exact hnul_text h

end Accepted

/-- A string that is accepted is in its one form exactly when it has no null byte and the port, if
it has one, starts with a digit that is not zero. Two such strings of one place are the same. -/
theorem sfsParsepathV2_canonical {path : List Byte} {loc : Location}
    (h : sfsParsepathV2 path = some loc) :
    (Canonical path loc ↔ PlainPort path ∧ 0#8 ∉ path) ∧
      (PlainPort path → 0#8 ∉ path → ∀ path', sfsParsepathV2 path' = some loc →
        PlainPort path' → 0#8 ∉ path' → path' = path) := by
  obtain ⟨-, -, hchars, -⟩ := afterHost_of_accepted h
  refine ⟨⟨plain_of_canonical hchars, fun hp => canonical_of_plain h hp.1 hp.2⟩, ?_⟩
  intro hport hnul path' h' hport' hnul'
  obtain ⟨text, htext, hpath⟩ := canonical_of_plain h hport hnul
  obtain ⟨text', htext', hpath'⟩ := canonical_of_plain h' hport' hnul'
  rw [htext, Option.some.injEq] at htext'
  rw [hpath', hpath, htext']

/-- The host `a.b`, some way to write its port, and a host id of zeros. -/
def examplePath (port : List Byte) : List Byte :=
  [0x40#8, 0x61#8, 0x2e#8, 0x62#8] ++ port ++ 0x2c#8 :: List.replicate 32 0x61#8

theorem sfsParsepathV2_canonical_example :
    Canonical (examplePath [0x25#8, 0x35#8])
      ⟨[0x61#8, 0x2e#8, 0x62#8], ⟨List.replicate 20 0#8, rfl⟩, 5#16⟩ :=
  (sfsParsepathV2_canonical (by decide)).1.mpr ⟨by exact ⟨by decide, by decide⟩, by decide⟩

/-- `@a.b%05,...` is accepted, and is a second name of `@a.b%5,...`. -/
theorem sfsParsepathV2_second_name :
    (¬∀ path loc, sfsParsepathV2 path = some loc → Canonical path loc) ∧
      ¬∀ path path' loc, sfsParsepathV2 path = some loc → sfsParsepathV2 path' = some loc →
        path = path' := by
  have hzero : sfsParsepathV2 (examplePath [0x25#8, 0x30#8, 0x35#8]) =
      some ⟨[0x61#8, 0x2e#8, 0x62#8], ⟨List.replicate 20 0#8, rfl⟩, 5#16⟩ := by
    decide
  have hplain : sfsParsepathV2 (examplePath [0x25#8, 0x35#8]) =
      some ⟨[0x61#8, 0x2e#8, 0x62#8], ⟨List.replicate 20 0#8, rfl⟩, 5#16⟩ := by
    decide
  constructor
  · intro h
    have hport := (plain_of_canonical (afterHost_of_accepted hzero).choose_spec.2.1
      (h _ _ hzero)).1
    exact absurd hport.1 (by decide)
  · intro h
    exact absurd (h _ _ _ hzero hplain) (by decide)

end Sfslite.Sfsmisc.Sfspath
