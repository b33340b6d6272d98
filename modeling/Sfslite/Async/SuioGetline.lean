import Sfslite.Async.SuioFocus
import Sfslite.Lib.Lines

/-!
Lines out of a suio: `suio::linelen` of `suio++.h` and `suio_getline` of `str.C`. A line is
ended by a newline, and one carriage return in front of that is not part of it.
-/

namespace Sfslite.Async

open Sfslite.Lib

abbrev Str := List (BitVec 8)

def newline : BitVec 8 := 0x0a

def carriageReturn : BitVec 8 := 0x0d

def chomp (l : Str) : Str := if l.getLast? = some carriageReturn then l.dropLast else l

namespace Suio

/-- The loop of `linelen`, with the bytes of the iovecs before. -/
def linelenLoop (mem : Mem) : List Iovec → ℕ → ℕ
  | [], _ => 0
  | v :: vs, n =>
    match (mem.read v.base v.len).idxOf? newline with
    | some p => n + p + 1
    | none => linelenLoop mem vs (n + v.len)

def linelen (mem : Mem) (s : Suio) : ℕ := linelenLoop mem s.iovs 0

/-- `suio_getline`: a line, or no line. -/
def getline (e : Env) (s : Suio) : Option (Option Str × Env × Suio) :=
  let n := s.linelen e.mem
  if n ≠ 0 then do
    let m := copyout e.mem s.iovs (n - 1)
    let (e, s) ← s.rembytes e n
    let line :=
      if m.length ≠ 0 ∧ m[m.length - 1]? = some carriageReturn then m.take (m.length - 1) else m
    some (some line, e, s)
  else some (none, e, s)

/-- What some calls of `suio_getline` give. -/
def getlines (e : Env) (s : Suio) : ℕ → Option (List (Option Str))
  | 0 => some []
  | k + 1 => do
      let (line, e, s) ← s.getline e
      let lines ← getlines e s k
      some (line :: lines)

/-- The suio has these bytes. -/
structure Holds (e : Env) (s : Suio) (bs : List (BitVec 8)) : Prop where
  bytes : (addrs s.iovs).map e.mem = bs
  uiobytes : s.uiobytes = bs.length

variable {e : Env} {s : Suio} {bs : List (BitVec 8)}

theorem linelenLoop_eq (mem : Mem) (vs : List Iovec) (n : ℕ) :
    linelenLoop mem vs n =
      match ((addrs vs).map mem).idxOf? newline with
      | some p => n + p + 1
      | none => 0 := by
  induction vs generalizing n with
  | nil => rfl
  | cons v vs ih =>
    have happ : ((addrs (v :: vs)).map mem).idxOf? newline =
        ((mem.read v.base v.len).idxOf? newline).or
          ((((addrs vs).map mem).idxOf? newline).map (· + v.len)) := by
      simp [List.idxOf?, Mem.read]
    rw [linelenLoop, happ]
    cases (mem.read v.base v.len).idxOf? newline with
    | some p => rfl
    | none =>
      rw [ih]
      cases ((addrs vs).map mem).idxOf? newline with
      | some p => simp [Nat.add_assoc, Nat.add_comm, Nat.add_left_comm]
      | none => rfl

theorem Holds.linelen (h : Holds e s bs) :
    s.linelen e.mem = match bs.idxOf? newline with
      | some p => p + 1
      | none => 0 := by
  rw [Suio.linelen, linelenLoop_eq, h.bytes]
  cases bs.idxOf? newline <;> simp

theorem Holds.rembytes (h : Holds e s bs) {n : ℕ} (hn : n ≤ bs.length) :
    ∃ e' s', s.rembytes e n = some (e', s') ∧ Holds e' s' (bs.drop n) := by
  have hlens : lens s.iovs = bs.length := by
    rw [← h.bytes, List.length_map, length_addrs]
  obtain ⟨us, hus⟩ := remIovs_isSome (hlens ▸ hn)
  obtain ⟨e', s', hrem⟩ : ∃ e' s', s.rembytes e n = some (e', s') := by
    rw [Suio.rembytes, if_neg (by rw [h.uiobytes]; omega), hus]
    exact ⟨_, _, rfl⟩
  obtain ⟨-, us', hus', hcbs, hiovs, huiobytes, -⟩ := rembytes_cases hrem
  obtain rfl := Option.some.inj (hus.symm.trans hus')
  obtain ⟨-, -, -, hmem, -⟩ := makeuiocbs_front (s.nrembytes + n) s.uiocbs e
  rw [← hcbs] at hmem
  obtain ⟨-, haddrs, -⟩ := remIovs_spec hus
  refine ⟨e', s', hrem, ?_, ?_⟩
  · rw [hiovs, haddrs, List.map_drop, hmem, h.bytes]
  · rw [huiobytes, h.uiobytes, List.length_drop]

theorem chomp_eq (l : Str) :
    (if l.length ≠ 0 ∧ l[l.length - 1]? = some carriageReturn then l.take (l.length - 1) else l) =
      chomp l := by
  rw [chomp, List.getLast?_eq_getElem?, List.dropLast_eq_take]
  cases l with
  | nil => rfl
  | cons c l => simp

theorem Holds.getline {l r : List (BitVec 8)} (h : Holds e s (l ++ newline :: r))
    (hl : newline ∉ l) : ∃ e' s', s.getline e = some (some (chomp l), e', s') ∧ Holds e' s' r := by
  have hline : s.linelen e.mem = l.length + 1 := by rw [h.linelen, idxOf?_line hl]
  have hcopy : copyout e.mem s.iovs l.length = l := by
    rw [copyout_eq, List.map_take, h.bytes, List.take_left]
  obtain ⟨e', s', hrem, hs'⟩ := h.rembytes (n := l.length + 1) (by simp)
  refine ⟨e', s', ?_, by simpa using hs'⟩
  rw [Suio.getline, hline, ← chomp_eq]
  simp [hcopy, hrem]

theorem Holds.getline_none (h : Holds e s bs) (hbs : newline ∉ bs) :
    s.getline e = some (none, e, s) := by
  rw [Suio.getline, h.linelen, List.idxOf?_eq_none_iff.mpr hbs]
  rfl

theorem Holds.getlines {ls : List Str} (hls : ∀ l ∈ ls, newline ∉ l)
    (h : Holds e s (lineStream newline ls)) (k : ℕ) :
    s.getlines e k = some ((List.range k).map fun i => ls[i]?.map chomp) := by
  induction k generalizing e s ls with
  | zero => rfl
  | succ k ih =>
    rw [Suio.getlines, List.range_succ_eq_map, List.map_cons, List.map_map]
    cases ls with
    | nil =>
      simp only [h.getline_none List.not_mem_nil, ih hls h, Option.bind_eq_bind,
        Option.bind_some]
      rfl
    | cons l ls =>
      rw [lineStream_cons] at h
      obtain ⟨e', s', hget, hs'⟩ := h.getline (hls l (List.mem_cons_self ..))
      have hrest : ∀ l' ∈ ls, newline ∉ l' := fun l' hl' => hls l' (List.mem_cons_of_mem l hl')
      simp only [hget, ih hrest hs', Option.bind_eq_bind, Option.bind_some]
      rfl

end Suio

end Sfslite.Async
