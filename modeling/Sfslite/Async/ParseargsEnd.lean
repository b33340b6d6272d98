import Sfslite.Async.ParseargsMode

/-!
What the bytes behind the end of a file can change. `skiplwsp` and the loop of `getarg` look at them
before they look at `lim`; what comes of it depends on where in a line the file ends.
-/

namespace Sfslite.Async.Parseargs

open Sfslite.Arpc (Byte)

variable {filename : Option String} {q : Bool} {b : Blanks} {h : Held} {c d : Byte} {s : List Byte}
  {left line : ℕ}

theorem skiplwsp_error {e : Stop} (hs : skiplwsp s left line = .error e) : e = .outside := by
  fun_induction skiplwsp s left line with
  | case1 | case3 => cases hs; rfl
  | case2 _ _ _ _ _ ih | case4 _ _ _ _ ih => exact ih hs
  | case5 | case6 => cases hs

theorem skiplwsp_left {cur : Cursor} (hs : skiplwsp s left line = .ok cur) : cur.left ≤ left := by
  fun_induction skiplwsp s left line with
  | case1 | case3 => cases hs
  | case2 _ _ _ _ _ ih | case4 _ _ _ _ ih => exact (ih hs).trans (Nat.sub_le _ _)
  | case5 | case6 => cases hs; exact le_rfl

theorem skiplwsp_again {cur : Cursor} (hs : skiplwsp s left line = .ok cur) :
    skiplwsp cur.rest cur.left cur.lineno = .ok cur := by
  obtain ⟨c, t, hrest, hblank, hslash⟩ := skiplwsp_stop hs
  obtain ⟨rest, left, lineno⟩ := cur
  subst hrest
  by_cases hc : c = 0x5c#8
  · obtain ⟨d, u, rfl, hd⟩ := hslash hc
    rw [hc]
    exact skiplwsp_slash hd
  · exact skiplwsp_other hblank hc

/-- The run that ends with the arguments of a line. -/
def finished (linep : ℕ) (args : List (List Byte)) : Outcome :=
  if args = [] then ⟨[], none⟩ else ⟨[(args, linep)], none⟩

variable (filename) in
theorem out_lwsp_over (h : Held) (t : List Byte) (line : ℕ) :
    out filename .lwsp h ⟨t, 0, line⟩ =
      match skiplwsp t 0 line with
      | .error _ => ⟨[], some .outside⟩
      | .ok _ => finished h.linep h.args := by
  cases hskip : skiplwsp t 0 line with
  | error e =>
    simp only [out]
    rw [argsLoop_eq, getarg_eq]
    simp only [hskip, conclude, skiplwsp_error hskip]
  | ok cur =>
    have hleft : cur.left = 0 := Nat.le_zero.mp (skiplwsp_left hskip)
    have hagain := skiplwsp_again hskip
    have hjump : out filename .lwsp h ⟨t, 0, line⟩ = out filename .lwsp h cur := by
      simp only [out]
      rw [argsLoop_eq, argsLoop_eq filename h.args cur, getarg_eq, getarg_eq]
      simp only [hskip, hagain]
    rw [hjump, out_lwsp_end hagain (.inl hleft)]
    by_cases hargs : h.args = []
    · simp only [finished, hargs, if_true, conclude]
    · have hrun : run filename cur = ⟨[], none⟩ := by
        have hend : out filename .lwsp ⟨[], cur.lineno, []⟩ cur = ⟨[], none⟩ :=
          out_lwsp_end hagain (.inl hleft)
        have hstay : skipblanks .bol cur.rest cur.left cur.lineno = .ok cur := by
          rw [hleft, skipblanks_end, ← hleft]
        rw [run_eq filename cur h, ← hend]
        simp only [out, hstay]
      rw [conclude_of_ne hargs, hrun, finished, if_neg hargs]
      rfl

theorem out_word_over (h : Held) (q : Bool) (t : List Byte) (line : ℕ) (hc : c ≠ 0x5c#8)
    (hblank : isspcnnl c = false) :
    out filename (.word q) h ⟨c :: t, 0, line⟩ =
      if q then ⟨[], some (.error (errorText filename line "closing '\"' missing"))⟩
      else ⟨[(h.args ++ [h.arg], h.linep)], none⟩ := by
  cases q with
  | true => simp only [out, getargLoop_plain hc, if_true, goOn]
  | false =>
    have hargs : h.args ++ [h.arg] ≠ [] :=
      List.append_ne_nil_of_right_ne_nil _ (List.cons_ne_nil _ _)
    have hover := out_lwsp_over filename ⟨h.args ++ [h.arg], h.linep, []⟩ (c :: t) line
    rw [skiplwsp_other hblank hc] at hover
    simp only [out, finished, hargs, if_false] at hover
    simp only [out, getargLoop_plain hc, if_true, Bool.false_eq_true, if_false, goOn, hover]

theorem out_word_last (h : Held) (q : Bool) (t : List Byte) (line : ℕ) (hleft : left ≤ 1) :
    out filename (.word q) h ⟨0x5c#8 :: t, left, line⟩ =
      ⟨[], some (.error (errorText filename line "invalid '\\' before end of file"))⟩ := by
  simp only [out, getargLoop_last hleft, goOn]

theorem errorText_ne (line line' : ℕ) :
    errorText filename line "invalid '\\' before end of file" ≠
      errorText filename line' "closing '\"' missing" := by
  intro heq
  have hlast := congrArg (fun s => s.toList.reverse.take 2) heq
  simp [errorText] at hlast

/-- What the ending says about the runs. -/
def Verdict : Ending → (List Byte → Outcome) → Prop
  | .slash, o => ∃ r, ∀ t, o t = r ∧ r.stop ≠ some .outside
  | .blank, o => (∃ r, ∀ t, (o t).stop = some .outside ∨ o t = r) ∧
      ∃ t t', t.length = t'.length ∧ (o t).stop = some .outside ∧ (o t').stop ≠ some .outside
  | .word, o | .ahead, o => ∃ t t', t.length = t'.length ∧ (o t).stop ≠ some .outside ∧
      (o t').stop ≠ some .outside ∧ o t ≠ o t'

theorem Verdict.of_leads {e : Ending} {o o' : List Byte → Outcome} (hv : Verdict e o')
    (hl : Leads o o') : Verdict e o := by
  obtain ⟨ls, hls⟩ := hl
  have hstop : ∀ t, (o t).stop = (o' t).stop := fun t => by rw [hls]
  have hlines : ∀ t, (o t).lines = ls ++ (o' t).lines := fun t => by rw [hls]
  cases e with
  | slash =>
    obtain ⟨r, hr⟩ := hv
    exists ⟨ls ++ r.lines, r.stop⟩
    intro t
    rw [hls, (hr t).1]
    exact ⟨rfl, (hr t).2⟩
  | blank =>
    obtain ⟨⟨r, hr⟩, t, t', hlen, hout, hin⟩ := hv
    constructor
    · exists ⟨ls ++ r.lines, r.stop⟩
      intro t
      rw [hls]
      rcases hr t with h | h
      · exact .inl h
      · right
        rw [h]
    · exists t, t'
      rw [hstop, hstop]
      exact ⟨hlen, hout, hin⟩
  | word | ahead =>
    obtain ⟨t, t', hlen, hin, hin', hne⟩ := hv
    exists t, t'
    rw [hstop, hstop]
    refine ⟨hlen, hin, hin', fun heq => hne ?_⟩
    rw [hls, hls, Outcome.mk.injEq] at heq
    have hl := List.append_cancel_left heq.1
    cases ho : o' t
    cases ho' : o' t'
    simp_all

theorem finished_stop (linep : ℕ) (args : List (List Byte)) :
    (finished linep args).stop = none := by
  rw [finished]
  split <;> rfl

theorem verdict_of_error {o : List Byte → Outcome} {text : String} (t t' : List Byte)
    (hlen : t.length = t'.length) (ht : o t = ⟨[], some (.error text)⟩)
    (ht' : (o t').stop = none ∨ ∃ text', o t' = ⟨[], some (.error text')⟩ ∧ text ≠ text') :
    ∃ t t', t.length = t'.length ∧ (o t).stop ≠ some .outside ∧ (o t').stop ≠ some .outside ∧
      o t ≠ o t' := by
  exists t, t'
  rcases ht' with hnone | ⟨text', ht', hne⟩
  · refine ⟨hlen, by simp [ht], by simp [hnone], fun heq => ?_⟩
    have := congrArg Outcome.stop heq
    rw [hnone, ht] at this
    cases this
  · refine ⟨hlen, by simp [ht], by simp [ht'], fun heq => ?_⟩
    rw [ht, ht'] at heq
    injection heq with _ hstop
    injection hstop with hstop
    injection hstop with hstop
    exact hne hstop

theorem open_word (h : Held) (q : Bool) (t : List Byte) (line line' : ℕ) :
    (out filename (.word q) h ⟨0x78#8 :: t, 0, line⟩).stop = none ∨
      ∃ text', out filename (.word q) h ⟨0x78#8 :: t, 0, line⟩ = ⟨[], some (.error text')⟩ ∧
        errorText filename line' "invalid '\\' before end of file" ≠ text' := by
  rw [out_word_over h q t line (by decide) (by decide)]
  cases q with
  | true => exact .inr ⟨_, rfl, errorText_ne line' line⟩
  | false => exact .inl rfl

theorem verdict_atEnd (m : Mode) (h : Held) (line : ℕ) :
    Verdict m.atEnd (place filename m h [] line) := by
  have hover : ∀ h : Held, Verdict .blank (place filename .lwsp h [] line) := by
    intro h
    have heq : ∀ t, place filename .lwsp h [] line t = _ := fun t => out_lwsp_over filename h t line
    constructor
    · exists finished h.linep h.args
      intro t
      rw [heq]
      cases skiplwsp t 0 line with
      | error e => exact .inl rfl
      | ok cur => exact .inr rfl
    · exists [0x20#8], [0x78#8]
      rw [heq, heq, skiplwsp_blank (by decide), skiplwsp_other (by decide) (by decide)]
      refine ⟨rfl, rfl, ?_⟩
      rw [finished_stop]
      simp
  have hword : ∀ (h : Held) (q : Bool), Verdict .word (place filename (.word q) h [] line) := by
    intro h q
    apply verdict_of_error [0x5c#8] [0x78#8] rfl
    · exact out_word_last h q [] line (by decide)
    · exact open_word h q [] line line
  cases m with
  | lwsp => exact hover h
  | blanks b =>
    apply (hover ⟨[], line, []⟩).of_leads
    exact Leads.of_eq fun t => place_blanks_ok (skipblanks_end b t line)
  | word q => exact hword h q
  | cont q =>
    have hlast : place filename (.cont q) h [] line [0x5c#8, 0x78#8] =
        out filename (.word q) h ⟨[0x5c#8, 0x78#8], 0, line⟩ := rfl
    have hopen : place filename (.cont q) h [] line [0x78#8, 0x78#8] =
        out filename (.word q) h ⟨[0x78#8, 0x78#8], 0, line⟩ := rfl
    apply verdict_of_error [0x5c#8, 0x78#8] [0x78#8, 0x78#8] rfl
    · rw [hlast]
      exact out_word_last h q [0x78#8] line (by decide)
    · rw [hopen]
      exact open_word h q [0x78#8] line line

theorem place_slash_other (m : Mode) (h : Held) (t : List Byte) (line : ℕ)
    (hc : m ≠ .blanks .comment) (hd : d ≠ 0x0a#8) :
    place filename m h [0x5c#8] line (d :: t) =
      ⟨[], some (.error (errorText filename line "invalid '\\' before end of file"))⟩ := by
  have hlwsp : ∀ h : Held, place filename .lwsp h [0x5c#8] line (d :: t) =
      ⟨[], some (.error (errorText filename line "invalid '\\' before end of file"))⟩ := by
    intro h
    rw [place, out_lwsp_word]
    · exact out_word_last _ false _ line le_rfl
    · exact skiplwsp_slash hd
    · simp
    · simp
  cases m with
  | word q => exact out_word_last h q (d :: t) line le_rfl
  | cont q =>
    have hword : place filename (.cont q) h [0x5c#8] line (d :: t) =
        out filename (.word q) h ⟨0x5c#8 :: d :: t, 1, line⟩ := by
      simp only [place, out, List.singleton_append, List.length_singleton, skiplwsp_slash hd]
    rw [hword]
    exact out_word_last h q (d :: t) line le_rfl
  | lwsp => exact hlwsp h
  | blanks b =>
    have hb : b ≠ .comment := fun he => hc (by rw [he])
    rw [place_blanks_ok]
    · exact hlwsp _
    · rw [List.length_singleton, List.singleton_append, skipblanks_cons hb]
      simp [isspcnnl, hd]

/-- Outside of an argument's bytes, a newline behind a lone backslash is taken for its own. -/
theorem place_slash_newline (m : Mode) (h : Held) (t : List Byte) (line : ℕ)
    (hc : m ≠ .blanks .comment) (hm : m.atSlash = .ahead) :
    place filename m h [0x5c#8] line (0x0a#8 :: t) =
      place filename (m.afterSlash 0x0a#8) h [] (line + 1) t := by
  cases m with
  | word q => cases hm
  | cont q =>
    simp only [place, out, List.singleton_append, List.length_singleton, skiplwsp_continuation]
    rfl
  | lwsp => exact out_lwsp_continuation
  | blanks b =>
    have hb : b ≠ .comment := fun he => hc (by rw [he])
    simp only [place, out, List.length_singleton, List.singleton_append]
    rw [skipblanks_cons hb]
    simp [isspcnnl, Mode.afterSlash]

theorem verdict_atSlash (m : Mode) (h : Held) (line : ℕ) (hc : m ≠ .blanks .comment) :
    Verdict m.atSlash (place filename m h [0x5c#8] line) := by
  have hahead : m.atSlash = .ahead → Verdict .ahead (place filename m h [0x5c#8] line) := by
    intro hm
    apply verdict_of_error [0x78#8, 0x78#8] [0x0a#8, 0x78#8] rfl
    · exact place_slash_other m h [0x78#8] line hc (by decide)
    · rw [place_slash_newline m h [0x78#8] line hc hm]
      have hover : ∀ h : Held, (place filename .lwsp h [] (line + 1) [0x78#8]).stop = none := by
        intro h
        have heq : place filename .lwsp h [] (line + 1) [0x78#8] = _ :=
          out_lwsp_over filename h [0x78#8] (line + 1)
        rw [heq, skiplwsp_other (by decide) (by decide)]
        exact finished_stop _ _
      cases m with
      | word q => cases hm
      | cont q => exact open_word h q [] (line + 1) line
      | lwsp => exact .inl (hover h)
      | blanks b =>
        left
        have hmid : place filename (.blanks .mid) h [] (line + 1) [0x78#8] =
            place filename .lwsp ⟨[], line + 1, []⟩ [] (line + 1) [0x78#8] :=
          place_blanks_ok (skipblanks_end .mid _ _)
        exact hmid ▸ hover _
  cases m with
  | lwsp | blanks _ | cont _ => exact hahead rfl
  | word q =>
    exists ⟨[], some (.error (errorText filename line "invalid '\\' before end of file"))⟩
    intro t
    exact ⟨out_word_last h q t line le_rfl, by simp⟩

variable (filename) in
theorem verdict_ending (m : Mode) (h : Held) (s : List Byte) (line : ℕ) (hm : Good m h) :
    Verdict (ending m s) (place filename m h s line) := by
  fun_induction ending m s generalizing h line with
  | case1 m => exact verdict_atEnd m h line
  | case2 m c hc =>
    rw [hc.1]
    exact verdict_atSlash m h line hc.2
  | case3 m c hc d s ih =>
    obtain ⟨h', line', hgood, hleads⟩ := leads_afterSlash filename m h d s line hc.2 hm
    rw [hc.1]
    exact (ih h' line' hgood).of_leads hleads
  | case4 m c s hc ih =>
    have hc' : c ≠ 0x5c#8 ∨ m = .blanks .comment := by
      rw [not_and_or, not_not] at hc
      exact hc
    obtain ⟨h', line', hgood, hleads⟩ := leads_after filename m h c s line hc' hm
    exact (ih h' line' hgood).of_leads hleads

/-- Two runs that differ only in the bytes behind the end of the file do the same. -/
def Same (filename : Option String) (file : List Byte) : Prop :=
  ∀ stale stale', stale.length = stale'.length →
    run filename (start file stale) = run filename (start file stale')

/-- Two such runs do the same if neither reads behind the buffer. -/
def SameInside (filename : Option String) (file : List Byte) : Prop :=
  ∀ stale stale', stale.length = stale'.length →
    (run filename (start file stale)).stop ≠ some .outside →
    (run filename (start file stale')).stop ≠ some .outside →
    run filename (start file stale) = run filename (start file stale')

/-- The runs do the same exactly when the file ends with a backslash in an argument; as far as they
stay in the buffer, also when it leaves nothing open at its end. -/
theorem run_same_iff (filename : Option String) (file : List Byte) :
    (Same filename file ↔ ending (.blanks .bol) file = .slash) ∧
      (SameInside filename file ↔
        ending (.blanks .bol) file = .slash ∨ ending (.blanks .bol) file = .blank) := by
  have hv := verdict_ending filename (.blanks .bol) ⟨[], 1, []⟩ file 1 (good_blanks _ _)
  have hplace : ∀ t, place filename (.blanks .bol) ⟨[], 1, []⟩ file 1 t =
      run filename (start file t) := fun t => (run_eq filename _ _).symm
  cases hend : ending (.blanks .bol) file with
  | slash =>
    rw [hend] at hv
    obtain ⟨r, hr⟩ := hv
    have hsame : Same filename file := by
      intro t t' _
      rw [← hplace, ← hplace, (hr t).1, (hr t').1]
    have hinside : SameInside filename file := fun t t' hlen _ _ => hsame t t' hlen
    simp [hsame, hinside]
  | blank =>
    rw [hend] at hv
    obtain ⟨⟨r, hr⟩, t, t', hlen, hout, hin⟩ := hv
    have hnot : ¬ Same filename file := by
      intro hsame
      rw [hplace] at hout hin
      rw [hsame t t' hlen] at hout
      exact hin hout
    have hinside : SameInside filename file := by
      intro t t' _ ht ht'
      rw [← hplace] at ht ht' ⊢
      rw [← hplace, (hr t).resolve_left ht, (hr t').resolve_left ht']
    simp [hnot, hinside]
  | word | ahead =>
    rw [hend] at hv
    obtain ⟨t, t', hlen, hin, hin', hne⟩ := hv
    rw [hplace] at hin hin'
    rw [hplace, hplace] at hne
    have hnot : ¬ Same filename file := fun hsame => hne (hsame t t' hlen)
    have hnotInside : ¬ SameInside filename file := fun hsame => hne (hsame t t' hlen hin hin')
    simp [hnot, hnotInside]

/-- The bytes that stop `skiplwsp`, whatever comes behind them. -/
def stops (c : Byte) : Bool :=
  !isspc c && c ≠ 0x5c#8

theorem skiplwsp_ok {t : List Byte} (ht : ∃ b ∈ t, stops b) (left line : ℕ) :
    ∃ cur, skiplwsp t left line = .ok cur := by
  fun_induction skiplwsp t left line with
  | case1 => simp at ht
  | case2 left line c s hc ih =>
    apply ih
    simp only [List.mem_cons, exists_eq_or_imp] at ht
    apply ht.resolve_left
    simp only [isspcnnl, Bool.or_eq_true, decide_eq_true_iff] at hc
    rcases hc with rfl | rfl <;> decide
  | case3 => exact absurd ht (by decide)
  | case4 left line s _ ih =>
    apply ih
    simp only [List.mem_cons, exists_eq_or_imp] at ht
    exact (ht.resolve_left (by decide)).resolve_left (by decide)
  | case5 | case6 => exact ⟨_, rfl⟩

/-- With such a byte behind the file, no read is outside. -/
def Inside (o : List Byte → Outcome) : Prop :=
  ∀ t, (∃ b ∈ t, stops b) → (o t).stop ≠ some .outside

theorem Inside.of_leads {o o' : List Byte → Outcome} (h : Inside o') (hl : Leads o o') :
    Inside o := by
  obtain ⟨ls, hls⟩ := hl
  intro t ht
  rw [hls]
  exact h t ht

theorem inside_lwsp (h : Held) (line : ℕ) : Inside (place filename .lwsp h [] line) := by
  intro t ht
  have heq : place filename .lwsp h [] line t = _ := out_lwsp_over filename h t line
  obtain ⟨cur, hcur⟩ := skiplwsp_ok ht 0 line
  rw [heq, hcur]
  simp only [finished_stop]
  simp

theorem inside_word {cur cur' : Cursor} (h : Held) (q : Bool) (hleft : cur.left = 0)
    (hok : skiplwsp cur.rest 0 cur.lineno = .ok cur') :
    (out filename (.word q) h cur).stop ≠ some .outside := by
  obtain ⟨rest, left, line⟩ := cur
  subst hleft
  cases rest with
  | nil => cases hok
  | cons c t =>
    by_cases hc : c = 0x5c#8
    · rw [hc, out_word_last h q t line (by decide)]
      simp
    · cases q with
      | true =>
        simp only [out, getargLoop_plain hc, if_true, goOn]
        simp
      | false =>
        have hover := out_lwsp_over filename ⟨h.args ++ [h.arg], h.linep, []⟩ (c :: t) line
        have hok' : skiplwsp (c :: t) 0 line = .ok cur' := hok
        rw [hok'] at hover
        simp only [out] at hover
        simp only [out, getargLoop_plain hc, if_true, Bool.false_eq_true, if_false, goOn, hover,
          finished_stop]
        simp

theorem inside_atEnd (m : Mode) (h : Held) (line : ℕ) : Inside (place filename m h [] line) := by
  cases m with
  | lwsp => exact inside_lwsp h line
  | blanks b =>
    apply (inside_lwsp ⟨[], line, []⟩ line).of_leads
    exact Leads.of_eq fun t => place_blanks_ok (skipblanks_end b t line)
  | word q =>
    intro t ht
    obtain ⟨cur, hcur⟩ := skiplwsp_ok ht 0 line
    exact inside_word h q rfl hcur
  | cont q =>
    intro t ht
    obtain ⟨cur, hcur⟩ := skiplwsp_ok ht 0 line
    have hleft : cur.left = 0 := Nat.le_zero.mp (skiplwsp_left hcur)
    have hword : place filename (.cont q) h [] line t = out filename (.word q) h cur := by
      simp only [place, out, List.nil_append, List.length_nil, hcur]
    have hagain := skiplwsp_again hcur
    rw [hleft] at hagain
    rw [hword]
    exact inside_word h q hleft hagain

theorem inside_atSlash (m : Mode) (h : Held) (line : ℕ) (hc : m ≠ .blanks .comment) :
    Inside (place filename m h [0x5c#8] line) := by
  intro t ht
  match t with
  | [] => simp at ht
  | d :: t =>
    by_cases hd : d = 0x0a#8
    · cases hm : m.atSlash with
      | ahead =>
        rw [hd, place_slash_newline m h t line hc hm]
        apply inside_atEnd
        simp only [hd, List.mem_cons, exists_eq_or_imp] at ht
        exact ht.resolve_left (by decide)
      | slash =>
        cases m with
        | word q =>
          have hlast : place filename (.word q) h [0x5c#8] line (d :: t) = _ :=
            out_word_last h q (d :: t) line le_rfl
          rw [hlast]
          simp
        | lwsp | blanks _ | cont _ => cases hm
      | blank | word => cases m <;> cases hm
    · rw [place_slash_other m h t line hc hd]
      simp

/-- With a byte behind the file that is no blank and no backslash, the run stays in the buffer. -/
theorem run_inside (filename : Option String) (file : List Byte) {stale : List Byte}
    (hstale : ∃ b ∈ stale, stops b) :
    (run filename (start file stale)).stop ≠ some .outside := by
  have hinside : ∀ (m : Mode) (h : Held) (s : List Byte) (line : ℕ), Good m h →
      Inside (place filename m h s line) := by
    intro m h s line hm
    fun_induction ending m s generalizing h line with
    | case1 m => exact inside_atEnd m h line
    | case2 m c hc =>
      rw [hc.1]
      exact inside_atSlash m h line hc.2
    | case3 m c hc d s ih =>
      obtain ⟨h', line', hgood, hleads⟩ := leads_afterSlash filename m h d s line hc.2 hm
      rw [hc.1]
      exact (ih h' line' hgood).of_leads hleads
    | case4 m c s hc ih =>
      have hc' : c ≠ 0x5c#8 ∨ m = .blanks .comment := by
        rw [not_and_or, not_not] at hc
        exact hc
      obtain ⟨h', line', hgood, hleads⟩ := leads_after filename m h c s line hc' hm
      exact (ih h' line' hgood).of_leads hleads
  rw [run_eq filename _ ⟨[], 1, []⟩]
  exact hinside (.blanks .bol) ⟨[], 1, []⟩ file 1 (good_blanks _ _) stale hstale

/-- A file that ends in a word, with a newline and a letter behind it. -/
theorem run_inside_letter : (run none (start [0x61#8] [0x0a#8, 0x78#8])).stop ≠ some .outside :=
  run_inside none [0x61#8] ⟨0x78#8, by simp, by decide⟩

/-- A file of one letter: with a letter behind it, the letter is an argument; with a backslash, it
is an error. -/
theorem run_letter :
    (run none (start [0x61#8] [0x78#8])).stop = none ∧
      (run none (start [0x61#8] [0x5c#8])).stop =
        some (.error "1: invalid '\\' before end of file\n") ∧
      ¬ SameInside none [0x61#8] := by
  have hplace : ∀ t, run none (start [0x61#8] t) =
      out none (.blanks .bol) ⟨[], 1, []⟩ ⟨0x61#8 :: t, 1, 1⟩ := fun t => run_eq none _ _
  have hstart : ∀ t, run none (start [0x61#8] t) =
      out none (.word false) ⟨[], 1, [0x61#8]⟩ ⟨t, 0, 1⟩ := by
    intro t
    have hblanks : place none (.blanks .bol) ⟨[], 1, []⟩ [0x61#8] 1 t =
        place none .lwsp ⟨[], 1, []⟩ [0x61#8] 1 t := place_blanks_ok (skipblanks_cons (by decide) _ _ 0 1)
    have hword : place none .lwsp ⟨[], 1, []⟩ [0x61#8] 1 t =
        place none (.word false) ⟨[], 1, []⟩ [0x61#8] 1 t := by
      apply out_lwsp_word
      · exact skiplwsp_other (by decide) (by decide)
      · exact Nat.one_ne_zero
      · simp
    rw [hplace]
    refine (hblanks.trans hword).trans ?_
    simp only [place, out, List.singleton_append, List.length_singleton]
    rw [getargLoop_plain (by decide)]
    rfl
  have hletter : (run none (start [0x61#8] [0x78#8])).stop = none := by
    rw [hstart, out_word_over _ _ _ _ (by decide) (by decide)]
    rfl
  have hslash : (run none (start [0x61#8] [0x5c#8])).stop =
      some (.error "1: invalid '\\' before end of file\n") := by
    rw [hstart, out_word_last _ _ _ _ (by decide)]
    decide
  refine ⟨hletter, hslash, fun hsame => ?_⟩
  have heq := hsame [0x78#8] [0x5c#8] rfl (by simp [hletter]) (by simp [hslash])
  rw [heq, hslash] at hletter
  cases hletter

end Sfslite.Async.Parseargs
