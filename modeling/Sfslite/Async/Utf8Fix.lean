import Mathlib.Data.List.TakeWhile
import Sfslite.Arpc.Bytes

/-!
`utf8_fix` of `wide_str.C`, for a `char` and a `size_t` of 64 bits. A write outside of the string
that the output goes to answers `none`.
-/

namespace Sfslite.Async.Utf8Fix

open Sfslite.Arpc (Byte)

/-- A `str`, which can be null. -/
abbrev Str :=
  Option (List Byte)

/-- `prefixes`: `top` and `ret`. -/
def prefixes : List (Byte × ℤ) :=
  [(0x7f, 1), (0xbf, -1), (0xc1, 2), (0xdf, 2), (0xef, 3), (0xf4, 4), (0xf7, 4), (0xfb, 5),
    (0xfd, 6), (0xff, -1)]

/-- `point_width`, as the `ssize_t` that `utf8_fix` makes of it. -/
def pointWidth (ch : Byte) : ℤ :=
  ((prefixes.find? fun p => ch ≤ p.1).map Prod.snd).getD 0

def isFollowByte (ch : Byte) : Bool :=
  0x80#8 ≤ ch && ch ≤ 0xbf#8

/-- `add_repl`: the bytes of `repl` up to its first null byte. -/
def addRepl (repl : Str) : List Byte :=
  (repl.getD []).takeWhile (· ≠ 0)

/-- The variables of the loop of `utf8_fix`. `cps` has the bytes from `cps` up to `ip`, `width` is
`expected_width`, and `out` is what stands before `op`. -/
structure Scan where
  cps : Option (List Byte)
  width : ℤ
  out : List Byte
deriving DecidableEq, Repr

def Scan.idle (out : List Byte) : Scan :=
  ⟨none, 0, out⟩

/-- The second half of the loop's body: `*ip` does not go on with a code point. -/
def start (repl : Str) (s : Scan) (c : Byte) : Scan :=
  let tmp := pointWidth c
  if 1 < tmp then { s with cps := some [c], width := tmp }
  else if tmp = 1 then { s with out := s.out ++ [c] }
  else { s with out := s.out ++ addRepl repl }

/-- The loop's body. -/
def step (repl : Str) (s : Scan) (c : Byte) : Scan :=
  match s.cps with
  | some p =>
    if ¬ isFollowByte c then start repl (.idle (s.out ++ addRepl repl)) c
    else if (p.length : ℤ) = s.width - 1 then .idle (s.out ++ p ++ [c])
    else { s with cps := some (p ++ [c]) }
  | none => start repl s c

/-- The length that `out` is made with. -/
def outLen (n : ℕ) (repl : Str) : ℕ :=
  (n * max 1 (repl.getD []).length + 1) % 2 ^ 64

def utf8Fix (s repl : Str) : Option Str :=
  match s with
  | none => some none
  | some s =>
    let r := s.foldl (step repl) (.idle [])
    if r.out.length ≤ outLen s.length repl then some (some r.out) else none

/-- Structurally well-formed: a sequence of lead bytes, each with its follow bytes. -/
inductive WellFormed : List Byte → Prop
  | nil : WellFormed []
  | cons (c : Byte) (fs s : List Byte) : pointWidth c = fs.length + 1 →
      (∀ f ∈ fs, isFollowByte f) → WellFormed s → WellFormed (c :: fs ++ s)

/-- A code point, an ill-formed run (a byte that starts no code point, or a lead byte with too few
follow bytes), and a code point that is cut off at the end of the text. -/
inductive Piece where
  | point (b : List Byte)
  | ill (b : List Byte)
  | cut (b : List Byte)
deriving DecidableEq, Repr

/-- The follow bytes of `c` at the front of `s`. -/
def follow (c : Byte) (s : List Byte) : List Byte :=
  (s.takeWhile isFollowByte).take ((pointWidth c).toNat - 1)

def pieces : List Byte → List Piece
  | [] => []
  | c :: s =>
    let fs := follow c s
    if pointWidth c = fs.length + 1 then .point (c :: fs) :: pieces (s.drop fs.length)
    else if 1 < pointWidth c ∧ s.drop fs.length = [] then [.cut (c :: fs)]
    else .ill (c :: fs) :: pieces (s.drop fs.length)
termination_by s => s.length
decreasing_by all_goals simp only [List.length_drop, List.length_cons]; omega

def Piece.repaired (repl : Str) : Piece → List Byte
  | .point b => b
  | .ill _ | .cut _ => repl.getD []

def repaired (repl : Str) (s : List Byte) : List Byte :=
  (pieces s).flatMap (Piece.repaired repl)

/-- What is expected of the output: it fits, is well-formed, is the input if that is well-formed,
does not change any more, and has the replacement for each ill-formed run. -/
structure Repaired (s : List Byte) (repl : Str) (out : List Byte) : Prop where
  fits : out.length ≤ outLen s.length repl
  wellFormed : WellFormed out
  same : WellFormed s → out = s
  fixed : utf8Fix (some out) repl = some (some out)
  runs : out = repaired repl s

/-- Null bytes in the replacement, and code points that are cut off, do no harm; and the length of
the output, first for the input and then for the output itself, is no more than is allocated. -/
structure Clean (s : List Byte) (repl : Str) : Prop where
  null : (∃ b, Piece.ill b ∈ pieces s) → 0 ∉ repl.getD []
  cut : (∃ b, Piece.cut b ∈ pieces s) → repl.getD [] = []
  room : (repaired repl s).length ≤ outLen s.length repl
  again : (repaired repl s).length ≤ outLen (repaired repl s).length repl

variable {repl : Str} {s out : List Byte} {c : Byte}

theorem length_follow_le (c : Byte) (s : List Byte) :
    (follow c s).length ≤ (pointWidth c).toNat - 1 := by
  rw [follow, List.length_take]
  exact Nat.min_le_left _ _

theorem follow_all (c : Byte) (s : List Byte) : ∀ f ∈ follow c s, isFollowByte f := by
  intro f hf
  exact List.mem_takeWhile_imp (List.mem_of_mem_take hf)

/-- The first bytes are all of a code point when they are as many as its lead byte says. -/
theorem follow_eq {fs : List Byte} (hw : pointWidth c = fs.length + 1)
    (hfs : ∀ f ∈ fs, isFollowByte f) (s : List Byte) : follow c (fs ++ s) = fs := by
  have hn : (pointWidth c).toNat - 1 = fs.length := by omega
  rw [follow, hn, List.takeWhile_append_of_pos hfs, List.take_left]

theorem foldl_inside (repl : Str) (s p : List Byte) (k : ℕ) (out : List Byte) (hk : 0 < k) :
    let fs := (s.takeWhile isFollowByte).take k
    (s.foldl (step repl) ⟨some p, p.length + k, out⟩).out =
      if fs.length = k then ((s.drop fs.length).foldl (step repl) (.idle (out ++ p ++ fs))).out
      else if s.drop fs.length = [] then out
      else ((s.drop fs.length).foldl (step repl) (.idle (out ++ addRepl repl))).out := by
  induction s generalizing p k with
  | nil =>
    have hne : 0 ≠ k := by omega
    simp [hne]
  | cons c s ih =>
    cases hc : isFollowByte c with
    | false =>
      have hne : 0 ≠ k := by omega
      have hstep : step repl ⟨some p, p.length + k, out⟩ c =
          step repl (.idle (out ++ addRepl repl)) c := by
        simp [step, hc, Scan.idle]
      simp [hc, hne, hstep]
    | true =>
      obtain ⟨k, rfl⟩ := Nat.exists_eq_add_one.mpr hk
      have htake : ((c :: s).takeWhile isFollowByte).take (k + 1) =
          c :: (s.takeWhile isFollowByte).take k := by
        rw [List.takeWhile_cons_of_pos hc, List.take_succ_cons]
      simp only [htake, List.length_cons, List.drop_succ_cons, List.foldl_cons]
      cases k with
      | zero =>
        have hstep : step repl ⟨some p, p.length + (0 + 1 : ℕ), out⟩ c =
            .idle (out ++ p ++ [c]) := by
          simp [step, hc]
        rw [hstep]
        simp
      | succ k =>
        have hstep : step repl ⟨some p, p.length + (k + 1 + 1 : ℕ), out⟩ c =
            ⟨some (p ++ [c]), (p ++ [c]).length + (k + 1 : ℕ), out⟩ := by
          have hne : ¬(p.length : ℤ) = p.length + (k + 1 + 1 : ℕ) - 1 := by omega
          have hlen : (p.length : ℤ) + (k + 1 + 1 : ℕ) = (p ++ [c]).length + (k + 1 : ℕ) := by
            rw [List.length_append]
            simp
            omega
          simp only [step, hc, not_true, if_false, hne]
          rw [hlen]
        rw [hstep, ih (p ++ [c]) (k + 1) (by omega)]
        simp

theorem foldl_lead (repl : Str) (s out : List Byte) (hc : 1 < pointWidth c) :
    ((c :: s).foldl (step repl) (.idle out)).out =
      if pointWidth c = (follow c s).length + 1 then
        ((s.drop (follow c s).length).foldl (step repl) (.idle (out ++ c :: follow c s))).out
      else if s.drop (follow c s).length = [] then out
      else ((s.drop (follow c s).length).foldl (step repl) (.idle (out ++ addRepl repl))).out := by
  have hstep : step repl (.idle out) c =
      ⟨some [c], [c].length + ((pointWidth c).toNat - 1 : ℕ), out⟩ := by
    have hlen : pointWidth c = [c].length + ((pointWidth c).toNat - 1 : ℕ) := by
      rw [List.length_singleton]
      omega
    simp only [step, start, Scan.idle, hc, if_true]
    rw [← hlen]
  have hwidth : (follow c s).length = (pointWidth c).toNat - 1 ↔
      pointWidth c = (follow c s).length + 1 := by omega
  have hrun := foldl_inside repl s [c] ((pointWidth c).toNat - 1) out (by omega)
  rw [List.foldl_cons, hstep, hrun, ← follow]
  simp [hwidth]

def Piece.written (repl : Str) : Piece → List Byte
  | .point b => b
  | .ill _ => addRepl repl
  | .cut _ => []

theorem foldl_idle (repl : Str) (s out : List Byte) :
    (s.foldl (step repl) (.idle out)).out =
      out ++ (pieces s).flatMap (Piece.written repl) := by
  induction s using pieces.induct generalizing out with
  | case1 => simp [pieces, Scan.idle]
  | case2 c s fs hw ih =>
    rw [pieces, if_pos hw, List.flatMap_cons, ← List.append_assoc, ← ih]
    by_cases h1 : pointWidth c = 1
    · have hlen : pointWidth c = (follow c s).length + 1 := hw
      have hfs : follow c s = [] := List.length_eq_zero_iff.mp (by omega)
      have hstep : step repl (.idle out) c = .idle (out ++ [c]) := by
        simp [step, start, Scan.idle, h1]
      simp [hstep, fs, hfs, Piece.written]
    · rw [foldl_lead repl s out (by omega), if_pos hw]
      rfl
  | case3 c s fs hw hcut =>
    rw [pieces, if_neg hw, if_pos hcut, foldl_lead repl s out hcut.1, if_neg hw, if_pos hcut.2]
    simp [Piece.written]
  | case4 c s fs hw hcut ih =>
    rw [pieces, if_neg hw, if_neg hcut, List.flatMap_cons, ← List.append_assoc, ← ih]
    by_cases h1 : 1 < pointWidth c
    · have hrest : ¬ s.drop fs.length = [] := fun he => hcut ⟨h1, he⟩
      rw [foldl_lead repl s out h1, if_neg hw, if_neg hrest]
      rfl
    · have hlen := length_follow_le c s
      have hfs : follow c s = [] := List.length_eq_zero_iff.mp (by omega)
      have hne : pointWidth c ≠ 1 := by
        intro he
        apply hw
        simp [fs, hfs, he]
      have hstep : step repl (.idle out) c = .idle (out ++ addRepl repl) := by
        simp [step, start, Scan.idle, h1, hne]
      simp [hstep, fs, hfs, Piece.written]

theorem utf8Fix_eq (s : List Byte) (repl : Str) :
    utf8Fix (some s) repl =
      if ((pieces s).flatMap (Piece.written repl)).length ≤ outLen s.length repl then
        some (some ((pieces s).flatMap (Piece.written repl)))
      else none := by
  simp only [utf8Fix, foldl_idle, List.nil_append]

theorem WellFormed.append {t : List Byte} (hs : WellFormed s) (ht : WellFormed t) :
    WellFormed (s ++ t) := by
  induction hs with
  | nil => exact ht
  | cons c fs s hw hfs _ ih =>
    rw [List.append_assoc]
    exact .cons c fs (s ++ t) hw hfs ih

theorem WellFormed.takeWhile (hs : WellFormed s) : WellFormed (s.takeWhile (· ≠ 0)) := by
  induction hs with
  | nil => exact .nil
  | cons c fs s hw hfs _ ih =>
    by_cases hc : c = 0
    · simp [hc, WellFormed.nil]
    · have hnz : ∀ f ∈ c :: fs, (f ≠ 0 : Bool) := by
        intro f hf
        rcases List.mem_cons.mp hf with rfl | hf
        · simpa using hc
        · have := hfs f hf
          simp only [isFollowByte] at this
          grind
      rw [List.takeWhile_append_of_pos hnz]
      exact .cons c fs _ hw hfs ih

theorem pieces_wellFormed (h : WellFormed s) (repl : Str) :
    (∀ p ∈ pieces s, ∃ b, p = .point b) ∧ (pieces s).flatMap (Piece.written repl) = s := by
  induction h with
  | nil => simp [pieces]
  | cons c fs s hw hfs _ ih =>
    have hf : follow c (fs ++ s) = fs := follow_eq hw hfs s
    rw [List.cons_append, pieces, hf, if_pos hw, List.drop_left]
    constructor
    · intro p hp
      rcases List.mem_cons.mp hp with rfl | hp
      · exact ⟨_, rfl⟩
      · exact ih.1 p hp
    · simp [Piece.written, ih.2]

theorem wellFormed_of_point {b : List Byte} (h : .point b ∈ pieces s) : WellFormed b := by
  induction s using pieces.induct with
  | case1 => simp [pieces] at h
  | case2 c s fs hw ih =>
    rw [pieces, if_pos hw] at h
    rcases List.mem_cons.mp h with he | h
    · cases he
      simpa using WellFormed.cons c fs [] hw (follow_all c s) .nil
    · exact ih h
  | case3 c s fs hw hcut =>
    rw [pieces, if_neg hw, if_pos hcut] at h
    simp at h
  | case4 c s fs hw hcut ih =>
    rw [pieces, if_neg hw, if_neg hcut] at h
    rcases List.mem_cons.mp h with he | h
    · cases he
    · exact ih h

theorem wellFormed_written (hr : WellFormed (repl.getD [])) (s : List Byte) :
    WellFormed ((pieces s).flatMap (Piece.written repl)) := by
  have hp : ∀ ps : List Piece, (∀ b, .point b ∈ ps → WellFormed b) →
      WellFormed (ps.flatMap (Piece.written repl)) := by
    intro ps hps
    induction ps with
    | nil => exact .nil
    | cons p ps ih =>
      rw [List.flatMap_cons]
      apply WellFormed.append
      · cases p with
        | point b => exact hps b List.mem_cons_self
        | ill b => exact hr.takeWhile
        | cut b => exact .nil
      · exact ih fun b hb => hps b (List.mem_cons_of_mem p hb)
  exact hp (pieces s) fun b hb => wellFormed_of_point hb

theorem written_isPrefix (repl : Str) (p : Piece) : p.written repl <+: p.repaired repl := by
  cases p with
  | point b => exact List.prefix_refl b
  | ill b => exact List.takeWhile_prefix _
  | cut b => exact List.nil_prefix

theorem length_flatMap_written_le (repl : Str) (ps : List Piece) :
    (ps.flatMap (Piece.written repl)).length ≤ (ps.flatMap (Piece.repaired repl)).length := by
  induction ps with
  | nil => simp
  | cons p ps ih =>
    have := (written_isPrefix repl p).length_le
    simp only [List.flatMap_cons, List.length_append]
    omega

theorem flatMap_written_iff (repl : Str) (ps : List Piece) :
    ps.flatMap (Piece.written repl) = ps.flatMap (Piece.repaired repl) ↔
      ∀ p ∈ ps, p.written repl = p.repaired repl := by
  induction ps with
  | nil => simp
  | cons p ps ih =>
    rw [List.forall_mem_cons, ← ih, List.flatMap_cons, List.flatMap_cons]
    constructor
    · intro h
      have hlen := congrArg List.length h
      have hp := (written_isPrefix repl p).length_le
      have hps := length_flatMap_written_le repl ps
      rw [List.length_append, List.length_append] at hlen
      have heq : p.written repl = p.repaired repl :=
        (written_isPrefix repl p).eq_of_length (by omega)
      rw [heq] at h
      exact ⟨heq, List.append_cancel_left h⟩
    · rintro ⟨hp, hps⟩
      rw [hp, hps]

theorem addRepl_eq_iff (repl : Str) : addRepl repl = repl.getD [] ↔ 0 ∉ repl.getD [] := by
  rw [addRepl, List.takeWhile_eq_self_iff]
  simp only [ne_eq, decide_not, Bool.not_eq_eq_eq_not, Bool.not_true, decide_eq_false_iff_not]
  exact ⟨fun h h0 => h 0 h0 rfl, fun h b hb hb0 => h (hb0 ▸ hb)⟩

theorem written_eq_iff (repl : Str) (s : List Byte) :
    (pieces s).flatMap (Piece.written repl) = repaired repl s ↔
      ((∃ b, Piece.ill b ∈ pieces s) → 0 ∉ repl.getD []) ∧
        ((∃ b, Piece.cut b ∈ pieces s) → repl.getD [] = []) := by
  rw [repaired, flatMap_written_iff]
  constructor
  · intro h
    constructor
    · rintro ⟨b, hb⟩
      exact (addRepl_eq_iff repl).mp (h _ hb)
    · rintro ⟨b, hb⟩
      exact (h _ hb).symm
  · rintro ⟨hill, hcut⟩ p hp
    cases p with
    | point b => rfl
    | ill b => exact (addRepl_eq_iff repl).mpr (hill ⟨b, hp⟩)
    | cut b => exact (hcut ⟨b, hp⟩).symm

theorem utf8Fix_wellFormed (h : WellFormed s) (repl : Str) :
    utf8Fix (some s) repl =
      if s.length ≤ outLen s.length repl then some (some s) else none := by
  rw [utf8Fix_eq, (pieces_wellFormed h repl).2]

/-- `utf8_fix` does what is expected exactly on clean inputs. -/
theorem utf8Fix_repaired_iff (hr : WellFormed (repl.getD [])) (s : List Byte) :
    (∃ out, utf8Fix (some s) repl = some (some out) ∧ Repaired s repl out) ↔ Clean s repl := by
  constructor
  · rintro ⟨out, hout, hgood⟩
    have hwritten : (pieces s).flatMap (Piece.written repl) = out := by
      rw [utf8Fix_eq] at hout
      split at hout
      · simpa using hout
      · cases hout
    have hruns := hgood.runs
    have hclean := (written_eq_iff repl s).mp (hwritten.trans hruns)
    have hagain := hgood.fixed
    rw [utf8Fix_wellFormed hgood.wellFormed] at hagain
    constructor
    · exact hclean.1
    · exact hclean.2
    · rw [← hruns]
      exact hgood.fits
    · rw [← hruns]
      by_contra hlen
      rw [if_neg hlen] at hagain
      cases hagain
  · intro hc
    have heq := (written_eq_iff repl s).mpr ⟨hc.null, hc.cut⟩
    have hwf : WellFormed (repaired repl s) := heq ▸ wellFormed_written hr s
    exists repaired repl s
    constructor
    · rw [utf8Fix_eq, heq, if_pos hc.room]
    · constructor
      · exact hc.room
      · exact hwf
      · intro hs
        rw [← heq]
        exact (pieces_wellFormed hs repl).2
      · rw [utf8Fix_wellFormed hwf, if_pos hc.again]
      · rfl

/-- Half of a code point in the middle, with a replacement of three bytes. -/
theorem utf8Fix_repaired_half :
    ∃ out, utf8Fix (some [0x61, 0xc3, 0x62]) (some [0xef, 0xbf, 0xbd]) = some (some out) ∧
      Repaired [0x61, 0xc3, 0x62] (some [0xef, 0xbf, 0xbd]) out := by
  have hr : WellFormed ((some [0xef, 0xbf, 0xbd] : Str).getD []) :=
    .cons 0xef [0xbf, 0xbd] [] (by decide) (by decide) .nil
  have h61 : pointWidth 97#8 = 1 := by decide
  have hc3 : pointWidth 195#8 = 2 := by decide
  have h62 : pointWidth 98#8 = 1 := by decide
  have hnot : isFollowByte 98#8 = false := by decide
  have hp : pieces [0x61, 0xc3, 0x62] = [.point [0x61], .ill [0xc3], .point [0x62]] := by
    simp [pieces, follow, h61, hc3, h62, hnot]
  apply (utf8Fix_repaired_iff hr _).mpr
  constructor
  · intro _
    decide
  · rintro ⟨b, hb⟩
    rw [hp] at hb
    simp at hb
  · rw [repaired, hp]
    decide
  · rw [repaired, hp]
    decide

/-- A code point that is cut off at the end is left out. -/
theorem utf8Fix_cut :
    ¬ ∃ out, utf8Fix (some [0x61, 0xe2, 0x82]) (some [0x3f]) = some (some out) ∧
      Repaired [0x61, 0xe2, 0x82] (some [0x3f]) out := by
  rintro ⟨out, hout, hgood⟩
  have h61 : pointWidth 97#8 = 1 := by decide
  have he2 : pointWidth 226#8 = 3 := by decide
  have h82 : isFollowByte 130#8 = true := by decide
  have hp : pieces [0x61, 0xe2, 0x82] = [.point [0x61], .cut [0xe2, 0x82]] := by
    simp [pieces, follow, h61, he2, h82]
  have hrun : utf8Fix (some [0x61, 0xe2, 0x82]) (some [0x3f]) = some (some [0x61]) := by decide
  have hruns := hgood.runs
  rw [hrun] at hout
  rw [repaired, hp] at hruns
  cases hout
  revert hruns
  decide

end Sfslite.Async.Utf8Fix
