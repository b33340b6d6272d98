import Sfslite.Async.Parseargs

/-!
The places in a file at which the parser can be, and where a byte of the file leads it, whatever
stands behind the file.
-/

namespace Sfslite.Async.Parseargs

open Sfslite.Arpc (Byte)

/-- Where the parser is: in `skipblanks`, between arguments, in an argument, or in the blanks behind
a continuation of the line in an argument. `q` says that a quote is open. -/
inductive Mode where
  | blanks (b : Blanks)
  | lwsp
  | word (q : Bool)
  | cont (q : Bool)
deriving DecidableEq, Repr

/-- What the file ends with: nothing that is left open, an argument, a backslash that a blank-skipping
loop looks behind, or a backslash in an argument. -/
inductive Ending where
  | blank
  | word
  | ahead
  | slash
deriving DecidableEq, Repr

/-- Behind a byte of an argument. -/
def Mode.plain (q : Bool) (c : Byte) : Mode :=
  if c = 0x22#8 then .word (!q)
  else if q || !isspc c then .word q
  else if c = 0x0a#8 then .blanks .bol
  else .lwsp

/-- Behind a byte that is no backslash. -/
def Mode.after : Mode → Byte → Mode
  | .blanks .comment, c => if c = 0x0a#8 then .blanks .bol else .blanks .comment
  | .blanks b, c =>
    if b = .bol ∧ c = 0x23#8 then .blanks .comment
    else if isspcnnl c then .blanks .mid
    else if c = 0x0a#8 then .blanks .bol
    else plain false c
  | .lwsp, c => if isspcnnl c then .lwsp else plain false c
  | .word q, c => plain q c
  | .cont q, c => if isspcnnl c then .cont q else plain q c

/-- Behind a backslash and a byte. -/
def Mode.afterSlash : Mode → Byte → Mode
  | .blanks _, d => if d = 0x0a#8 then .blanks .mid else .word false
  | .lwsp, d => if d = 0x0a#8 then .lwsp else .word false
  | .word q, d => if d = 0x0a#8 then .cont q else .word q
  | .cont q, d => if d = 0x0a#8 then .cont q else .word q

def Mode.atEnd : Mode → Ending
  | .blanks _ | .lwsp => .blank
  | .word _ | .cont _ => .word

def Mode.atSlash : Mode → Ending
  | .word _ => .slash
  | .blanks _ | .lwsp | .cont _ => .ahead

def ending : Mode → List Byte → Ending
  | m, [] => m.atEnd
  | m, c :: s =>
    if c = 0x5c#8 ∧ m ≠ .blanks .comment then
      match s with
      | [] => m.atSlash
      | d :: s => ending (m.afterSlash d) s
    else ending (m.after c) s

/-- What the parser holds: the arguments of the line so far, the number of the line, and the
argument so far. -/
structure Held where
  args : List (List Byte)
  linep : ℕ
  arg : List Byte

variable (filename : Option String)

/-- One line more in front. -/
def Outcome.cons (l : List (List Byte) × ℕ) (o : Outcome) : Outcome :=
  ⟨l :: o.lines, o.stop⟩

def conclude (linep : ℕ) : Except Stop (List (List Byte) × Cursor) → Outcome
  | .error e => ⟨[], some e⟩
  | .ok ([], _) => ⟨[], none⟩
  | .ok (arg :: args, cur) => (run filename cur).cons (arg :: args, linep)

def goOn (args : List (List Byte)) (linep : ℕ) : Except Stop (List Byte × Cursor) → Outcome
  | .error e => ⟨[], some e⟩
  | .ok (arg, cur) => conclude filename linep (argsLoop filename (args ++ [arg]) cur)

/-- The rest of the run. -/
def out : Mode → Held → Cursor → Outcome
  | .blanks b, _, cur =>
    match skipblanks b cur.rest cur.left cur.lineno with
    | .error e => ⟨[], some e⟩
    | .ok cur => conclude filename cur.lineno (argsLoop filename [] cur)
  | .lwsp, h, cur => conclude filename h.linep (argsLoop filename h.args cur)
  | .word q, h, cur => goOn filename h.args h.linep (getargLoop filename q h.arg cur)
  | .cont q, h, cur =>
    match skiplwsp cur.rest cur.left cur.lineno with
    | .error e => ⟨[], some e⟩
    | .ok cur => goOn filename h.args h.linep (getargLoop filename q h.arg cur)

theorem getarg_eq (cur : Cursor) :
    getarg filename cur =
      match skiplwsp cur.rest cur.left cur.lineno with
      | .error e => .error e
      | .ok cur =>
        if cur.left = 0 ∨ cur.rest.head? = some 0x0a#8 then .ok (none, cur)
        else
          match getargLoop filename false [] cur with
          | .error e => .error e
          | .ok r => .ok (some r.1, r.2) := by
  simp only [getarg, Bind.bind, Except.bind, pure, Except.pure]
  cases skiplwsp cur.rest cur.left cur.lineno with
  | error e => rfl
  | ok cur =>
    simp only
    split
    · rfl
    · cases getargLoop filename false [] cur <;> rfl

theorem argsLoop_eq (args : List (List Byte)) (cur : Cursor) :
    argsLoop filename args cur =
      match getarg filename cur with
      | .error e => .error e
      | .ok (none, cur) => .ok (args, cur)
      | .ok (some arg, cur) => argsLoop filename (args ++ [arg]) cur := by
  rw [argsLoop]
  split <;> simp_all

theorem run_eq (cur : Cursor) (h : Held) :
    run filename cur = out filename (.blanks .bol) h cur := by
  have hline : getline filename cur =
      match skipblanks .bol cur.rest cur.left cur.lineno with
      | .error e => .error e
      | .ok mid => (argsLoop filename [] mid).map fun r => (r.1, mid.lineno, r.2) := by
    simp only [getline, Bind.bind, Except.bind, pure, Except.pure]
    cases skipblanks .bol cur.rest cur.left cur.lineno with
    | error e => rfl
    | ok mid =>
      simp only
      cases argsLoop filename [] mid <;> rfl
  rw [run, hline, out]
  cases skipblanks .bol cur.rest cur.left cur.lineno with
  | error e => rfl
  | ok mid =>
    simp only
    cases argsLoop filename [] mid with
    | error e => rfl
    | ok r =>
      obtain ⟨args, last⟩ := r
      cases args <;> rfl

variable {filename} {q : Bool} {b : Blanks} {h : Held} {c d : Byte} {s : List Byte}
  {left line : ℕ}

theorem skiplwsp_blank (hc : isspcnnl c) :
    skiplwsp (c :: s) left line = skiplwsp s (left - 1) line := by
  cases s <;> simp [skiplwsp, hc]

theorem skiplwsp_other (hc : isspcnnl c = false) (hslash : c ≠ 0x5c#8) :
    skiplwsp (c :: s) left line = .ok ⟨c :: s, left, line⟩ := by
  cases s <;> simp [skiplwsp, hc, hslash]

theorem skiplwsp_slash (hd : d ≠ 0x0a#8) :
    skiplwsp (0x5c#8 :: d :: s) left line = .ok ⟨0x5c#8 :: d :: s, left, line⟩ := by
  simp [skiplwsp, isspcnnl, hd]

theorem getargLoop_plain (hc : c ≠ 0x5c#8) (arg : List Byte) :
    getargLoop filename q arg ⟨c :: s, left, line⟩ =
      if left = 0 then
        if q then .error (.error (errorText filename line "closing '\"' missing"))
        else .ok (arg, ⟨c :: s, left, line⟩)
      else if c = 0x22#8 then getargLoop filename (!q) arg ⟨s, left - 1, line⟩
      else if q || !isspc c then getargLoop filename q (arg ++ [c]) ⟨s, left - 1, line⟩
      else .ok (arg, ⟨c :: s, left, line⟩) := by
  rw [getargLoop.eq_def]
  simp only [hc, dite_false]

theorem getargLoop_slash (hleft : ¬ left ≤ 1) (arg : List Byte) :
    getargLoop filename q arg ⟨0x5c#8 :: d :: s, left, line⟩ =
      if d = 0x0a#8 then
        match skiplwsp (0x5c#8 :: d :: s) left line with
        | .error e => .error e
        | .ok cur => getargLoop filename q arg cur
      else getargLoop filename q (arg ++ [d]) ⟨s, left - 2, line⟩ := by
  rw [getargLoop.eq_def]
  simp only [dite_true, hleft, if_false]
  by_cases hd : d = 0x0a#8
  · rw [dif_pos hd, if_pos hd]
    split <;> simp_all
  · rw [dif_neg hd, if_neg hd]

theorem getargLoop_last (hleft : left ≤ 1) (arg : List Byte) :
    getargLoop filename q arg ⟨0x5c#8 :: s, left, line⟩ =
      .error (.error (errorText filename line "invalid '\\' before end of file")) := by
  rw [getargLoop.eq_def]
  simp only [dite_true, hleft, if_true]

theorem skipblanks_cons (hb : b ≠ .comment) (c : Byte) (s : List Byte) (left line : ℕ) :
    skipblanks b (c :: s) (left + 1) line =
      if b = .bol ∧ c = 0x23#8 then skipblanks .comment s left line
      else if isspcnnl c then skipblanks .mid s left line
      else if c = 0x0a#8 then skipblanks .bol s left (line + 1)
      else if c = 0x5c#8 then
        match s with
        | [] => .error .outside
        | d :: s =>
          if d = 0x0a#8 then skipblanks .mid s (left - 1) (line + 1)
          else .ok ⟨c :: d :: s, left + 1, line⟩
      else .ok ⟨c :: s, left + 1, line⟩ := by
  rw [skipblanks.eq_def]
  cases b with
  | comment => exact absurd rfl hb
  | bol => rfl
  | mid => rfl

theorem skipblanks_end (b : Blanks) (s : List Byte) (line : ℕ) :
    skipblanks b s 0 line = .ok ⟨s, 0, line⟩ := by
  cases b <;> cases s <;> rfl

theorem out_lwsp_blank (hc : isspcnnl c) :
    out filename .lwsp h ⟨c :: s, left, line⟩ = out filename .lwsp h ⟨s, left - 1, line⟩ := by
  simp only [out]
  rw [argsLoop_eq, argsLoop_eq filename h.args ⟨s, left - 1, line⟩, getarg_eq, getarg_eq]
  simp only [skiplwsp_blank hc]

theorem out_lwsp_continuation :
    out filename .lwsp h ⟨0x5c#8 :: 0x0a#8 :: s, left, line⟩ =
      out filename .lwsp h ⟨s, left - 2, line + 1⟩ := by
  simp only [out]
  rw [argsLoop_eq, argsLoop_eq filename h.args ⟨s, left - 2, line + 1⟩, getarg_eq, getarg_eq]
  simp only [skiplwsp_continuation]

theorem out_lwsp_word {cur : Cursor} (hskip : skiplwsp cur.rest cur.left cur.lineno = .ok cur)
    (hleft : cur.left ≠ 0) (hhead : cur.rest.head? ≠ some 0x0a#8) :
    out filename .lwsp h cur = out filename (.word false) ⟨h.args, h.linep, []⟩ cur := by
  simp only [out]
  rw [argsLoop_eq, getarg_eq, hskip]
  simp only [hleft, hhead, or_self, if_false]
  cases getargLoop filename false [] cur <;> rfl

theorem out_lwsp_end {cur : Cursor} (hskip : skiplwsp cur.rest cur.left cur.lineno = .ok cur)
    (hend : cur.left = 0 ∨ cur.rest.head? = some 0x0a#8) :
    out filename .lwsp h cur = conclude filename h.linep (.ok (h.args, cur)) := by
  simp only [out]
  rw [argsLoop_eq, getarg_eq, hskip]
  simp only [hend, if_true]

theorem conclude_of_ne {linep : ℕ} {args : List (List Byte)} {cur : Cursor} (hargs : args ≠ []) :
    conclude filename linep (.ok (args, cur)) = (run filename cur).cons (args, linep) := by
  cases args with
  | nil => exact absurd rfl hargs
  | cons arg args => rfl

/-- Between arguments, the line has some. -/
def Good (m : Mode) (h : Held) : Prop :=
  m = .lwsp → h.args ≠ []

theorem good_blanks (b : Blanks) (h : Held) : Good (.blanks b) h := by
  simp [Good]

theorem good_word (q : Bool) (h : Held) : Good (.word q) h := by
  simp [Good]

theorem good_cont (q : Bool) (h : Held) : Good (.cont q) h := by
  simp [Good]

variable (filename) in
/-- The rest of the run, by the bytes behind the file. -/
def place (m : Mode) (h : Held) (s : List Byte) (line : ℕ) (t : List Byte) : Outcome :=
  out filename m h ⟨s ++ t, s.length, line⟩

/-- Whatever stands behind the file, one run is the other with some lines in front. -/
def Leads (o o' : List Byte → Outcome) : Prop :=
  ∃ ls, ∀ t, o t = ⟨ls ++ (o' t).lines, (o' t).stop⟩

theorem Leads.of_eq {o o' : List Byte → Outcome} (h : ∀ t, o t = o' t) : Leads o o' :=
  ⟨[], h⟩

theorem Leads.trans {o o' o'' : List Byte → Outcome} (h : Leads o o') (h' : Leads o' o'') :
    Leads o o'' := by
  obtain ⟨ls, hls⟩ := h
  obtain ⟨ls', hls'⟩ := h'
  exists ls ++ ls'
  intro t
  rw [hls, hls', List.append_assoc]

theorem leads_newline (h h' : Held) (s : List Byte) (line : ℕ) (hargs : h.args ≠ []) :
    Leads (place filename .lwsp h (0x0a#8 :: s) line)
      (place filename (.blanks .bol) h' s (line + 1)) := by
  exists [(h.args, h.linep)]
  intro t
  have hskip : skiplwsp (0x0a#8 :: (s ++ t)) (s.length + 1) line =
      .ok ⟨0x0a#8 :: (s ++ t), s.length + 1, line⟩ := skiplwsp_other (by decide) (by decide)
  have hline : place filename .lwsp h (0x0a#8 :: s) line t =
      conclude filename h.linep (.ok (h.args, ⟨0x0a#8 :: (s ++ t), s.length + 1, line⟩)) :=
    out_lwsp_end hskip (.inr rfl)
  have hnext : run filename ⟨0x0a#8 :: (s ++ t), s.length + 1, line⟩ =
      place filename (.blanks .bol) h' s (line + 1) t := by
    rw [run_eq filename _ h', place, out, out, skipblanks_cons (by decide)]
    rfl
  rw [hline, conclude_of_ne hargs, hnext]
  rfl

variable (filename) in
theorem leads_plain (h : Held) (q : Bool) (c : Byte) (s : List Byte) (line : ℕ) (hc : c ≠ 0x5c#8) :
    ∃ h' line', Good (.plain q c) h' ∧
      Leads (place filename (.word q) h (c :: s) line)
        (place filename (.plain q c) h' s line') := by
  by_cases hquote : c = 0x22#8
  · have hplain : Mode.plain q c = .word (!q) := if_pos hquote
    have hstep : ∀ t, place filename (.word q) h (c :: s) line t =
        place filename (.word (!q)) h s line t := by
      intro t
      simp only [place, out, List.cons_append, List.length_cons]
      rw [getargLoop_plain hc]
      simp [hquote]
    rw [hplain]
    exists h, line
    exact ⟨good_word _ _, Leads.of_eq hstep⟩
  · by_cases hpush : (q || !isspc c) = true
    · have hplain : Mode.plain q c = .word q := by
        rw [Mode.plain, if_neg hquote, if_pos hpush]
      have hstep : ∀ t, place filename (.word q) h (c :: s) line t =
          place filename (.word q) ⟨h.args, h.linep, h.arg ++ [c]⟩ s line t := by
        intro t
        simp only [place, out, List.cons_append, List.length_cons]
        rw [getargLoop_plain hc]
        simp [hquote, hpush]
      rw [hplain]
      exists ⟨h.args, h.linep, h.arg ++ [c]⟩, line
      exact ⟨good_word _ _, Leads.of_eq hstep⟩
    · -- the argument is complete
      have hargs : h.args ++ [h.arg] ≠ [] := List.append_ne_nil_of_right_ne_nil _ (List.cons_ne_nil _ _)
      have hstep : ∀ t, place filename (.word q) h (c :: s) line t =
          place filename .lwsp ⟨h.args ++ [h.arg], h.linep, []⟩ (c :: s) line t := by
        intro t
        simp only [place, out, List.cons_append, List.length_cons]
        rw [getargLoop_plain hc]
        simp [hquote, hpush, goOn]
      by_cases hnl : c = 0x0a#8
      · have hplain : Mode.plain q c = .blanks .bol := by
          rw [Mode.plain, if_neg hquote, if_neg hpush, if_pos hnl]
        rw [hplain]
        exists h, line + 1
        refine ⟨good_blanks _ _, (Leads.of_eq hstep).trans ?_⟩
        rw [hnl]
        exact leads_newline _ h s line hargs
      · have hplain : Mode.plain q c = .lwsp := by
          rw [Mode.plain, if_neg hquote, if_neg hpush, if_neg hnl]
        have hblank : isspcnnl c = true := by
          simp only [isspc, Bool.or_eq_true, Bool.not_eq_true', not_or, Bool.not_eq_false,
            decide_eq_true_iff] at hpush
          simp only [isspcnnl, Bool.or_eq_true, decide_eq_true_iff]
          tauto
        rw [hplain]
        exists ⟨h.args ++ [h.arg], h.linep, []⟩, line
        refine ⟨fun _ => hargs, (Leads.of_eq hstep).trans (Leads.of_eq fun t => ?_)⟩
        exact out_lwsp_blank hblank

theorem place_blanks_ok {b : Blanks} {h : Held} {s t : List Byte} {line : ℕ}
    (hskip : skipblanks b (s ++ t) s.length line = .ok ⟨s ++ t, s.length, line⟩) :
    place filename (.blanks b) h s line t = place filename .lwsp ⟨[], line, []⟩ s line t := by
  simp only [place, out, hskip]

variable (filename) in
theorem leads_after (m : Mode) (h : Held) (c : Byte) (s : List Byte) (line : ℕ)
    (hc : c ≠ 0x5c#8 ∨ m = .blanks .comment) (hm : Good m h) :
    ∃ h' line', Good (m.after c) h' ∧
      Leads (place filename m h (c :: s) line) (place filename (m.after c) h' s line') := by
  have hlwsp : ∀ h : Held, c ≠ 0x5c#8 → isspcnnl c = false → (c = 0x0a#8 → h.args ≠ []) →
      ∃ h' line', Good (.plain false c) h' ∧
        Leads (place filename .lwsp h (c :: s) line)
          (place filename (.plain false c) h' s line') := by
    intro h hslash hblank hargs
    by_cases hnl : c = 0x0a#8
    · rw [hnl]
      exists h, line + 1
      exact ⟨good_blanks _ _, leads_newline h h s line (hargs hnl)⟩
    · obtain ⟨h', line', hgood, hleads⟩ :=
        leads_plain filename ⟨h.args, h.linep, []⟩ false c s line hslash
      exists h', line'
      refine ⟨hgood, (Leads.of_eq fun t => ?_).trans hleads⟩
      apply out_lwsp_word
      · exact skiplwsp_other hblank hslash
      · simp
      · simpa using hnl
  cases m with
  | word q =>
    have hslash : c ≠ 0x5c#8 := hc.resolve_right (by simp)
    exact leads_plain filename h q c s line hslash
  | cont q =>
    have hslash : c ≠ 0x5c#8 := hc.resolve_right (by simp)
    by_cases hblank : isspcnnl c = true
    · rw [Mode.after, if_pos hblank]
      exists h, line
      refine ⟨good_cont _ _, Leads.of_eq fun t => ?_⟩
      simp only [place, out, List.cons_append, List.length_cons, skiplwsp_blank hblank,
        Nat.add_sub_cancel]
    · rw [Mode.after, if_neg hblank]
      obtain ⟨h', line', hgood, hleads⟩ :=
        leads_plain filename h q c s line hslash
      exists h', line'
      refine ⟨hgood, (Leads.of_eq fun t => ?_).trans hleads⟩
      simp only [place, out, List.cons_append, List.length_cons,
        skiplwsp_other (Bool.not_eq_true _ ▸ hblank) hslash]
  | lwsp =>
    have hslash : c ≠ 0x5c#8 := hc.resolve_right (by simp)
    by_cases hblank : isspcnnl c = true
    · rw [Mode.after, if_pos hblank]
      exists h, line
      exact ⟨fun _ => hm rfl, Leads.of_eq fun t => out_lwsp_blank hblank⟩
    · rw [Mode.after, if_neg hblank]
      exact hlwsp h hslash (Bool.not_eq_true _ ▸ hblank) fun _ => hm rfl
  | blanks b =>
    by_cases hb : b = .comment
    · rw [hb, Mode.after]
      by_cases hnl : c = 0x0a#8
      · rw [if_pos hnl]
        exists h, line + 1
        refine ⟨good_blanks _ _, Leads.of_eq fun t => ?_⟩
        simp [place, out, skipblanks, hnl]
      · rw [if_neg hnl]
        exists h, line
        refine ⟨good_blanks _ _, Leads.of_eq fun t => ?_⟩
        simp [place, out, skipblanks, hnl]
    · have hslash : c ≠ 0x5c#8 := hc.resolve_right fun he => hb (by cases he; rfl)
      have hafter : (Mode.blanks b).after c =
          if b = .bol ∧ c = 0x23#8 then .blanks .comment
          else if isspcnnl c then .blanks .mid
          else if c = 0x0a#8 then .blanks .bol
          else .plain false c := by
        cases b with
        | comment => exact absurd rfl hb
        | bol => rfl
        | mid => rfl
      have hskip := fun t : List Byte => skipblanks_cons hb c (s ++ t) s.length line
      rw [hafter]
      by_cases hhash : b = .bol ∧ c = 0x23#8
      · rw [if_pos hhash]
        exists h, line
        refine ⟨good_blanks _ _, Leads.of_eq fun t => ?_⟩
        simp only [place, out, List.cons_append, List.length_cons, hskip, if_pos hhash]
      · rw [if_neg hhash]
        by_cases hblank : isspcnnl c = true
        · rw [if_pos hblank]
          exists h, line
          refine ⟨good_blanks _ _, Leads.of_eq fun t => ?_⟩
          simp only [place, out, List.cons_append, List.length_cons, hskip, if_neg hhash,
            if_pos hblank]
        · rw [if_neg hblank]
          by_cases hnl : c = 0x0a#8
          · rw [if_pos hnl]
            exists h, line + 1
            refine ⟨good_blanks _ _, Leads.of_eq fun t => ?_⟩
            simp only [place, out, List.cons_append, List.length_cons, hskip, if_neg hhash,
              if_neg hblank, if_pos hnl]
          · rw [if_neg hnl]
            obtain ⟨h', line', hgood, hleads⟩ :=
              hlwsp ⟨[], line, []⟩ hslash (Bool.not_eq_true _ ▸ hblank) fun he => absurd he hnl
            exists h', line'
            refine ⟨hgood, (Leads.of_eq fun t => ?_).trans hleads⟩
            apply place_blanks_ok
            simp only [List.cons_append, List.length_cons, hskip, if_neg hhash, if_neg hblank,
              if_neg hnl, if_neg hslash]

variable (filename) in
theorem leads_afterSlash (m : Mode) (h : Held) (d : Byte) (s : List Byte) (line : ℕ)
    (hc : m ≠ .blanks .comment) (hm : Good m h) :
    ∃ h' line', Good (m.afterSlash d) h' ∧
      Leads (place filename m h (0x5c#8 :: d :: s) line)
        (place filename (m.afterSlash d) h' s line') := by
  have hword : ∀ (h : Held) (q : Bool), d ≠ 0x0a#8 → ∀ t,
      place filename (.word q) h (0x5c#8 :: d :: s) line t =
        place filename (.word q) ⟨h.args, h.linep, h.arg ++ [d]⟩ s line t := by
    intro h q hd t
    simp only [place, out, List.cons_append, List.length_cons]
    rw [getargLoop_slash (by omega), if_neg hd]
    rfl
  have hlwsp : ∀ h : Held, d ≠ 0x0a#8 → ∀ t,
      place filename .lwsp h (0x5c#8 :: d :: s) line t =
        place filename (.word false) ⟨h.args, h.linep, [d]⟩ s line t := by
    intro h hd t
    have hstart : place filename .lwsp h (0x5c#8 :: d :: s) line t =
        place filename (.word false) ⟨h.args, h.linep, []⟩ (0x5c#8 :: d :: s) line t := by
      apply out_lwsp_word
      · exact skiplwsp_slash hd
      · simp
      · simp
    rw [hstart, hword _ false hd]
    rfl
  cases m with
  | word q =>
    by_cases hd : d = 0x0a#8
    · rw [Mode.afterSlash, if_pos hd]
      exists h, line + 1
      refine ⟨good_cont _ _, Leads.of_eq fun t => ?_⟩
      simp only [place, out, List.cons_append, List.length_cons]
      rw [getargLoop_slash (by omega), if_pos hd, hd, skiplwsp_continuation]
      have hleft : s.length + 1 + 1 - 2 = s.length := rfl
      rw [hleft]
      cases skiplwsp (s ++ t) s.length (line + 1) <;> rfl
    · rw [Mode.afterSlash, if_neg hd]
      exists ⟨h.args, h.linep, h.arg ++ [d]⟩, line
      exact ⟨good_word _ _, Leads.of_eq (hword h q hd)⟩
  | cont q =>
    by_cases hd : d = 0x0a#8
    · rw [Mode.afterSlash, if_pos hd, hd]
      exists h, line + 1
      refine ⟨good_cont _ _, Leads.of_eq fun t => ?_⟩
      simp only [place, out, List.cons_append, List.length_cons, skiplwsp_continuation]
      rfl
    · rw [Mode.afterSlash, if_neg hd]
      exists ⟨h.args, h.linep, h.arg ++ [d]⟩, line
      refine ⟨good_word _ _, Leads.of_eq fun t => ?_⟩
      rw [← hword h q hd]
      simp only [place, out, List.cons_append, List.length_cons, skiplwsp_slash hd]
  | lwsp =>
    by_cases hd : d = 0x0a#8
    · rw [Mode.afterSlash, if_pos hd, hd]
      exists h, line + 1
      exact ⟨fun _ => hm rfl, Leads.of_eq fun t => out_lwsp_continuation⟩
    · rw [Mode.afterSlash, if_neg hd]
      exists ⟨h.args, h.linep, [d]⟩, line
      exact ⟨good_word _ _, Leads.of_eq (hlwsp h hd)⟩
  | blanks b =>
    have hb : b ≠ .comment := fun he => hc (by rw [he])
    have hskip : ∀ t : List Byte, skipblanks b (0x5c#8 :: d :: (s ++ t)) (s.length + 1 + 1) line =
        if d = 0x0a#8 then skipblanks .mid (s ++ t) s.length (line + 1)
        else .ok ⟨0x5c#8 :: d :: (s ++ t), s.length + 1 + 1, line⟩ := by
      intro t
      rw [skipblanks_cons hb]
      simp [isspcnnl]
    by_cases hd : d = 0x0a#8
    · rw [Mode.afterSlash, if_pos hd]
      exists h, line + 1
      refine ⟨good_blanks _ _, Leads.of_eq fun t => ?_⟩
      simp only [place, out, List.cons_append, List.length_cons, hskip, if_pos hd]
    · rw [Mode.afterSlash, if_neg hd]
      exists ⟨[], line, [d]⟩, line
      refine ⟨good_word _ _, Leads.of_eq fun t => ?_⟩
      rw [← hlwsp ⟨[], line, []⟩ hd]
      apply place_blanks_ok
      simp only [List.cons_append, List.length_cons, hskip, if_neg hd]

end Sfslite.Async.Parseargs
