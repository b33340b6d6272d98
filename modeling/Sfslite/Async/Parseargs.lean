import Sfslite.Arpc.Bytes

/-!
`parseargs` of `parseopt.C`. The file stands at the front of a buffer; `lim` is its end, and the
bytes behind that are whatever the memory held. A read behind the buffer is `outside`. `error` ends
the program, as it does unless a derived class says otherwise.
-/

namespace Sfslite.Async.Parseargs

open Sfslite.Arpc (Byte)

/-- Why a call does not return. -/
inductive Stop where
  | outside
  | error (text : String)
deriving DecidableEq, Repr

/-- Where the parser is: the bytes from `p` to the end of the buffer, how many of them come before
`lim`, and `lineno`. -/
structure Cursor where
  rest : List Byte
  left : ℕ
  lineno : ℕ
deriving DecidableEq, Repr

def isspcnnl (c : Byte) : Bool :=
  c = 0x20#8 || c = 0x09#8

def isspc (c : Byte) : Bool :=
  c = 0x20#8 || c = 0x09#8 || c = 0x0a#8

/-- The text of `error (msg)`. -/
def errorText (filename : Option String) (lineno : ℕ) (msg : String) : String :=
  (match filename with
    | some f => f ++ ":"
    | none => "") ++ (if lineno ≠ 0 then toString lineno ++ ": " else " ") ++ msg ++ "\n"

/-- Where `skipblanks` is: at the beginning of a line (`bol`), behind it, or in its inner loop. -/
inductive Blanks where
  | bol
  | mid
  | comment
deriving DecidableEq, Repr

def skipblanks : Blanks → List Byte → ℕ → ℕ → Except Stop Cursor
  | _, s, 0, line => .ok ⟨s, 0, line⟩
  | _, [], _ + 1, _ => .error .outside
  | .comment, c :: s, left + 1, line =>
    if c = 0x0a#8 then skipblanks .bol s left (line + 1) else skipblanks .comment s left line
  | b, c :: s, left + 1, line =>
    if b = .bol ∧ c = 0x23#8 then skipblanks .comment s left line
    else if isspcnnl c then skipblanks .mid s left line
    else if c = 0x0a#8 then skipblanks .bol s left (line + 1)
    else if c = 0x5c#8 then
      match s with
      | [] => .error .outside
      | d :: s =>
        if d = 0x0a#8 then skipblanks .mid s (left - 1) (line + 1)
        else .ok ⟨c :: d :: s, left + 1, line⟩
    else .ok ⟨c :: s, left + 1, line⟩

/-- `skiplwsp`, which never looks at `lim`. -/
def skiplwsp : List Byte → ℕ → ℕ → Except Stop Cursor
  | [], _, _ => .error .outside
  | c :: s, left, line =>
    if isspcnnl c then skiplwsp s (left - 1) line
    else if c = 0x5c#8 then
      match s with
      | [] => .error .outside
      | d :: s =>
        if d = 0x0a#8 then skiplwsp s (left - 2) (line + 1)
        else .ok ⟨c :: d :: s, left, line⟩
    else .ok ⟨c :: s, left, line⟩

variable {cur cur' : Cursor} {left line : ℕ}

theorem length_skiplwsp {s : List Byte}
    (h : skiplwsp s left line = .ok cur) : cur.rest.length ≤ s.length := by
  fun_induction skiplwsp s left line with
  | case1 => cases h
  | case2 left line c s hc ih => exact (ih h).trans (Nat.le_succ _)
  | case3 => cases h
  | case4 left line s _ ih =>
    have := ih h
    simp only [List.length_cons]
    omega
  | case5 => cases h; exact le_rfl
  | case6 => cases h; exact le_rfl

theorem skiplwsp_continuation (s : List Byte) (left line : ℕ) :
    skiplwsp (0x5c#8 :: 0x0a#8 :: s) left line = skiplwsp s (left - 2) (line + 1) := by
  rw [skiplwsp, if_neg (by decide), if_pos rfl, if_pos rfl]

/-- The loop of `getarg`. -/
def getargLoop (filename : Option String) (q : Bool) (arg : List Byte) (cur : Cursor) :
    Except Stop (List Byte × Cursor) :=
  match cur with
  | ⟨[], _, _⟩ => .error .outside
  | ⟨c :: s, left, line⟩ =>
    if hc : c = 0x5c#8 then
      if left ≤ 1 then
        .error (.error (errorText filename line "invalid '\\' before end of file"))
      else
        match s with
        | [] => .error .outside
        | d :: s =>
          if hd : d = 0x0a#8 then
            match _h : skiplwsp (c :: d :: s) left line with
            | .error e => .error e
            | .ok cur => getargLoop filename q arg cur
          else getargLoop filename q (arg ++ [d]) ⟨s, left - 2, line⟩
    else if left = 0 then
      if q then .error (.error (errorText filename line "closing '\"' missing"))
      else .ok (arg, ⟨c :: s, left, line⟩)
    else if c = 0x22#8 then getargLoop filename (!q) arg ⟨s, left - 1, line⟩
    else if q || !isspc c then getargLoop filename q (arg ++ [c]) ⟨s, left - 1, line⟩
    else .ok (arg, ⟨c :: s, left, line⟩)
termination_by cur.rest.length
decreasing_by
  · rw [hc, hd, skiplwsp_continuation] at _h
    have := length_skiplwsp _h
    simp only [List.length_cons]
    omega
  all_goals simp only [List.length_cons]; omega

def getarg (filename : Option String) (cur : Cursor) :
    Except Stop (Option (List Byte) × Cursor) := do
  let cur ← skiplwsp cur.rest cur.left cur.lineno
  if cur.left = 0 ∨ cur.rest.head? = some 0x0a#8 then
    return (none, cur)
  else
    let (arg, cur) ← getargLoop filename false [] cur
    return (some arg, cur)

theorem skiplwsp_stop {s : List Byte} (h : skiplwsp s left line = .ok cur) :
    ∃ c t, cur.rest = c :: t ∧ isspcnnl c = false ∧
      (c = 0x5c#8 → ∃ d u, t = d :: u ∧ d ≠ 0x0a#8) := by
  fun_induction skiplwsp s left line with
  | case1 => cases h
  | case2 left line c s hc ih => exact ih h
  | case3 => cases h
  | case4 left line s _ ih => exact ih h
  | case5 left line d s hd hc =>
    cases h
    exact ⟨_, _, rfl, by simpa using hc, fun _ => ⟨d, s, rfl, hd⟩⟩
  | case6 c s left line hc hslash =>
    cases h
    exact ⟨c, s, rfl, by simpa using hc, fun h => absurd h hslash⟩

variable {filename : Option String}

theorem length_getargLoop {q : Bool} {arg arg' : List Byte}
    (h : getargLoop filename q arg cur = .ok (arg', cur')) :
    cur'.rest.length ≤ cur.rest.length ∧
      (cur.left ≠ 0 → (∀ c ∈ cur.rest.head?, isspc c = false) →
        cur'.rest.length < cur.rest.length) := by
  fun_induction getargLoop filename q arg cur with
  | case1 => cases h
  | case2 => cases h
  | case3 => cases h
  | case4 => cases h
  | case5 q arg left line _ s cur hrun ih =>
    rw [skiplwsp_continuation] at hrun
    have := length_skiplwsp hrun
    have := (ih h).1
    simp only [List.length_cons]
    omega
  | case6 q arg left line _ d s _ ih =>
    have := (ih h).1
    simp only [List.length_cons] at this ⊢
    omega
  | case7 => cases h
  | case8 =>
    cases h
    exact ⟨le_rfl, fun hleft => absurd rfl hleft⟩
  | case9 q arg s left line _ _ ih =>
    have := (ih h).1
    simp only [List.length_cons] at this ⊢
    omega
  | case10 q arg c s left line _ _ _ _ ih =>
    have := (ih h).1
    simp only [List.length_cons] at this ⊢
    omega
  | case11 q arg c s left line _ _ _ hspace =>
    cases h
    refine ⟨le_rfl, fun _ hhead => ?_⟩
    have := hhead c rfl
    simp [this] at hspace

theorem length_getarg {r : Option (List Byte)} (h : getarg filename cur = .ok (r, cur')) :
    cur'.rest.length ≤ cur.rest.length ∧ (r ≠ none → cur'.rest.length < cur.rest.length) := by
  simp only [getarg, Bind.bind, Except.bind, pure, Except.pure] at h
  cases hskip : skiplwsp cur.rest cur.left cur.lineno with
  | error e => simp [hskip] at h
  | ok mid =>
    obtain ⟨c, t, hrest, hblank, -⟩ := skiplwsp_stop hskip
    have hle := length_skiplwsp hskip
    simp only [hskip] at h
    split at h
    · cases h
      exact ⟨hle, fun hr => absurd rfl hr⟩
    · next hstop =>
      rw [not_or] at hstop
      cases hloop : getargLoop filename false [] mid with
      | error e => simp [hloop] at h
      | ok p =>
        obtain ⟨arg, last⟩ := p
        simp only [hloop, Except.ok.injEq, Prod.mk.injEq] at h
        obtain ⟨-, rfl⟩ := h
        have hhead : ∀ c ∈ mid.rest.head?, isspc c = false := by
          intro c' hc'
          rw [hrest] at hc' hstop
          cases hc'
          have hnl : c ≠ 0x0a#8 := fun h => hstop.2 (by rw [h]; rfl)
          simp only [isspcnnl, Bool.or_eq_false_iff] at hblank
          simp [isspc, hblank.1, hblank.2, hnl]
        have hlt := ((length_getargLoop hloop).2 hstop.1 hhead).trans_le hle
        exact ⟨hlt.le, fun _ => hlt⟩

/-- The loop of `getline`. -/
def argsLoop (filename : Option String) (args : List (List Byte)) (cur : Cursor) :
    Except Stop (List (List Byte) × Cursor) :=
  match _h : getarg filename cur with
  | .error e => .error e
  | .ok (none, cur) => .ok (args, cur)
  | .ok (some arg, cur) => argsLoop filename (args ++ [arg]) cur
termination_by cur.rest.length
decreasing_by exact (length_getarg _h).2 (Option.some_ne_none arg)

/-- `getline`: the arguments, none if it returns false, and `*linep`. -/
def getline (filename : Option String) (cur : Cursor) :
    Except Stop (List (List Byte) × ℕ × Cursor) := do
  let cur ← skipblanks .bol cur.rest cur.left cur.lineno
  let linep := cur.lineno
  let (args, cur) ← argsLoop filename [] cur
  return (args, linep, cur)

/-- The parser that the constructor leaves for a file, with the bytes behind it in the buffer. -/
def start (file stale : List Byte) : Cursor :=
  ⟨file ++ stale, file.length, 1⟩

theorem length_skipblanks {b : Blanks} {s : List Byte}
    (h : skipblanks b s left line = .ok cur) : cur.rest.length ≤ s.length := by
  fun_induction skipblanks b s left line with
  | case1 | case10 | case11 => cases h; exact le_rfl
  | case2 | case8 => cases h
  | case3 _ _ _ ih | case4 _ _ _ _ _ ih | case5 _ _ _ _ _ _ _ ih | case6 _ _ _ _ _ _ _ _ ih
  | case7 _ _ _ _ _ _ _ ih => exact (ih h).trans (Nat.le_succ _)
  | case9 _ _ _ _ _ _ _ _ ih =>
    have := ih h
    simp only [List.length_cons]
    omega

theorem length_argsLoop {args args' : List (List Byte)}
    (h : argsLoop filename args cur = .ok (args', cur')) :
    cur'.rest.length ≤ cur.rest.length ∧
      (args' ≠ args → cur'.rest.length < cur.rest.length) := by
  fun_induction argsLoop filename args cur with
  | case1 => cases h
  | case2 args cur last hnone =>
    cases h
    exact ⟨(length_getarg hnone).1, fun hne => absurd rfl hne⟩
  | case3 args cur arg last hsome ih =>
    have hlt := (length_getarg hsome).2 (Option.some_ne_none arg)
    have hle := (ih h).1
    exact ⟨by omega, fun _ => by omega⟩

theorem length_getline {args : List (List Byte)} {linep : ℕ}
    (h : getline filename cur = .ok (args, linep, cur')) (hargs : args ≠ []) :
    cur'.rest.length < cur.rest.length := by
  simp only [getline, Bind.bind, Except.bind, pure, Except.pure] at h
  cases hskip : skipblanks .bol cur.rest cur.left cur.lineno with
  | error e => simp [hskip] at h
  | ok mid =>
    simp only [hskip] at h
    cases hloop : argsLoop filename [] mid with
    | error e => simp [hloop] at h
    | ok p =>
      simp only [hloop, Except.ok.injEq, Prod.mk.injEq] at h
      obtain ⟨hp, -, hcur⟩ := h
      have hne : p.1 ≠ [] := hp ▸ hargs
      rw [← hcur]
      exact ((length_argsLoop hloop).2 hne).trans_le (length_skipblanks hskip)

/-- The lines that `getline` returns, the arguments of each with its number, until it returns false
or does not return. -/
structure Outcome where
  lines : List (List (List Byte) × ℕ)
  stop : Option Stop
deriving DecidableEq, Repr

/-- All of a file, as `conftab::run` reads it. -/
def run (filename : Option String) (cur : Cursor) : Outcome :=
  match _h : getline filename cur with
  | .error e => ⟨[], some e⟩
  | .ok ([], _, _) => ⟨[], none⟩
  | .ok (arg :: args, linep, cur) =>
    let o := run filename cur
    ⟨(arg :: args, linep) :: o.lines, o.stop⟩
termination_by cur.rest.length
decreasing_by exact length_getline _h (List.cons_ne_nil arg args)

end Sfslite.Async.Parseargs
