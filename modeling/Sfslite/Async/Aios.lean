import Sfslite.Async.Cbuf
import Sfslite.Async.SuioGetline

/-!
Reading lines from a descriptor: the input half of `aios.C`. The bytes that are sent and not read
yet are part of the state, and an event says how many of them a read gets. A failed assertion, a
panic and an overflow answer `none`.

Between two events the callbacks were called with the first lines as `rline` gives them. `find`
answers an `int`, so a line of `2 ^ 31` bytes is not found, or one that is too short is.
-/

namespace Sfslite.Async

inductive Infn
  | rnone
  | rline
  deriving DecidableEq, Repr

/-- What `readv` answers. -/
inductive ReadResult
  | bytes (n : ℕ)
  | eagain
  | error (errno : ℕ)
  deriving DecidableEq, Repr

structure Aios where
  infn : Infn
  /-- Whether a callback is set. -/
  rcb : Bool
  inb : Cbuf (BitVec 8)
  err : ℕ
  eof : Bool
  /-- Whether `input` is called when the descriptor can be read. -/
  selread : Bool
  /-- The bytes that are to come. -/
  wire : List (BitVec 8)
  /-- What the callbacks were called with. -/
  called : List (Option Str × ℕ)

namespace Aios

def new (mem : ℕ → BitVec 8) (rbsz : ℕ) (wire : List (BitVec 8)) : Aios where
  infn := .rnone
  rcb := false
  inb := Cbuf.new mem rbsz
  err := 0
  eof := false
  selread := false
  wire := wire
  called := []

/-- `setreadcb` for a line, up to its call of `input`. -/
def setreadcb (a : Aios) : Aios :=
  if a.eof ∨ a.err ≠ 0 then { a with called := a.called ++ [(none, a.err)] }
  else { a with infn := .rline, rcb := true }

variable (again : List (Option Str × ℕ) → Bool)

/-- A callback that is given a line calls `readline` again or does not. It runs within `input`,
where `rlock` is set, so the `input` in that `readline` returns at once. -/
def mkrcb (a : Aios) (s : Option Str) : Aios :=
  let a := { a with infn := .rnone, rcb := false, called := a.called ++ [(s, a.err)] }
  if s.isSome ∧ again a.called then a.setreadcb else a

def fail (a : Aios) (e : ℕ) : Aios :=
  let a := { a with eof := true, err := if e ≠ 0 then e else a.err, selread := false }
  if a.rcb then a.mkrcb again none else a

def efbig : ℕ := 27

def rline (a : Aios) : Option (Bool × Aios) :=
  let lfp := a.inb.find newline
  if lfp < 0 then some (false, if a.inb.space = 0 then a.fail again efbig else a)
  else if lfp = 2 ^ 31 - 1 then none
  else do
    let n := lfp.toNat
    let (m, inb) ← a.inb.copyout (n + 1)
    let s := if 1 < n ∧ m[n - 1]? = some carriageReturn then m.take (n - 1) else m.take n
    some (true, { a with inb := inb }.mkrcb again (some s))

/-- `(this->*infn) ()`. -/
def callInfn (a : Aios) : Option (Bool × Aios) :=
  match a.infn with
  | .rnone => some (false, a)
  | .rline => a.rline again

/-- The loop of `input`. A line that is taken out has a byte or more, so the bytes in the buffer
bound the number of rounds. -/
def inputLoop : ℕ → Aios → Option Aios
  | 0, _ => none
  | fuel + 1, a => do
      let (more, a) ← a.callInfn again
      if more then inputLoop fuel a else some a

def setincb (a : Aios) : Aios := { a with selread := a.rcb }

/-- The end of `input`. -/
def inputRest (a : Aios) : Option Aios := (a.inputLoop again (a.inb.size + 1)).map setincb

/-- How many bytes the `iovec`s of the free space take. -/
def room (a : Aios) : ℕ := ((a.inb.iniov.take a.inb.iniovcnt).map Iovec.iov_len).sum

/-- A read can get this many bytes: no byte at the end of the stream only, or where there is no
room. -/
def Readable (a : Aios) (n : ℕ) : Prop :=
  n ≤ a.room ∧ n ≤ a.wire.length ∧ (n = 0 → a.wire = [] ∨ a.room = 0)

instance (a : Aios) (n : ℕ) : Decidable (a.Readable n) := by
  unfold Readable
  infer_instance

/-- `doinput` that gets `n` bytes. -/
def doinput (a : Aios) (n : ℕ) : Option Aios :=
  if a.Readable n then
    (a.inb.step (.addbytes (a.wire.take n))).map fun inb =>
      { a with inb := inb, wire := a.wire.drop n }
  else none

def input (a : Aios) : ReadResult → Option Aios
  | .error e => some (a.fail again e)
  | .eagain => a.inputRest again
  | .bytes n => do
      let a ← a.doinput n
      if n = 0 then
        let (more, a) ← a.callInfn again
        if more then a.inputRest again else some (a.fail again 0)
      else a.inputRest again

/-- What happens: the program calls `readline`, or the descriptor can be read. -/
inductive Event
  | readline (r : ReadResult)
  | selread (r : ReadResult)

def step (a : Aios) : Event → Option Aios
  | .readline r =>
    -- panic ("aios::setreadcb: read call made with read already pending\n")
    if a.rcb then none
    else if a.eof ∨ a.err ≠ 0 then some a.setreadcb
    else a.setreadcb.input again r
  | .selread r => if a.selread then a.input again r else none

/-- A read cuts off some of the bytes that are to come, or there are none yet. -/
def Cuts (a : Aios) : ReadResult → Prop
  | .bytes n => a.Readable n
  | .eagain => True
  | .error _ => False

/-- An event that can happen: one `readline` after the other, and every read cuts the stream. -/
def Possible (a : Aios) : Event → Prop
  | .readline r => a.rcb = false ∧ (a.eof ∨ a.Cuts r)
  | .selread r => a.selread ∧ a.Cuts r

instance (a : Aios) (e : Event) : Decidable (a.Possible e) := by
  cases e with
  | readline r => cases r <;> unfold Possible Cuts <;> infer_instance
  | selread r => cases r <;> unfold Possible Cuts <;> infer_instance

/-- All is read and a callback waits for more, or the end of the stream was seen. -/
def Ended (a : Aios) : Prop := (a.rcb ∧ a.wire = []) ∨ a.eof

/-- The callbacks are called with the lines in order, and then with no line. -/
def Delivers (ls : List Str) (a : Aios) : Prop :=
  a.called.map Prod.fst = (List.range a.called.length).map (fun i => ls[i]?.map chomp) ∧
    (a.Ended → ls.length ≤ a.called.length)

end Aios

end Sfslite.Async

namespace Sfslite.Async.Aios

open Sfslite.Lib Cbuf

/-- A line as `rline` gives it. -/
def cut (l : Str) : Str :=
  if 1 < l.length ∧ l.getLast? = some carriageReturn then l.dropLast else l

theorem cut_eq_chomp_iff {l : Str} : cut l = chomp l ↔ l ≠ [carriageReturn] := by
  match l with
  | [] => simp [cut, chomp]
  | [c] =>
    simp only [cut, chomp, List.length_singleton, lt_irrefl, false_and, if_false,
      List.getLast?_singleton, Option.some.injEq, List.dropLast_singleton, ne_eq,
      List.cons.injEq, and_true]
    split
    · rename_i hc
      simp [hc]
    · rename_i hc
      simp [hc]
  | c :: d :: l => simp [cut, chomp]

theorem length_chomp (l : Str) : l.length ≤ (chomp l).length + 1 := by
  unfold chomp
  split
  · rw [List.length_dropLast]
    omega
  · omega

theorem cut_eq (l : Str) :
    (if 1 < l.length ∧ (l ++ [newline])[l.length - 1]? = some carriageReturn then
      (l ++ [newline]).take (l.length - 1)
    else (l ++ [newline]).take l.length) = cut l := by
  rw [cut, List.getLast?_eq_getElem?, List.dropLast_eq_take, List.take_left]
  cases l with
  | nil => rfl
  | cons c l =>
    have hlast : (c :: l ++ [newline])[(c :: l).length - 1]? = (c :: l)[(c :: l).length - 1]? :=
      List.getElem?_append_left (by simp)
    have htake : (c :: l ++ [newline]).take ((c :: l).length - 1) =
        (c :: l).take ((c :: l).length - 1) := List.take_append_of_le_length (by simp)
    rw [hlast, htake]

theorem toInt_of_le {i : ℕ} (h : 2 ^ 31 ≤ i) : toInt i < 0 ∨ 2 ^ 32 ≤ i ∧ toInt i < 2 ^ 31 := by
  rcases Nat.lt_or_ge i (2 ^ 32) with hi | hi
  · have hback : toInt i = ((i : ℤ) - (2 ^ 32 : ℕ)).bmod (2 ^ 32) := (Int.sub_bmod_right ..).symm
    have hneg : toInt i = (i : ℤ) - (2 ^ 32 : ℕ) :=
      hback.trans (Int.bmod_eq_of_le (by omega) (by omega))
    exact Or.inl (by omega)
  · have hlt : toInt i < ((2 ^ 32 : ℕ) + 1) / 2 := Int.bmod_lt (by decide)
    exact Or.inr ⟨hi, by omega⟩

theorem drop_cases (ls : List Str) (k : ℕ) :
    ls.length ≤ k ∧ ls.drop k = [] ∨
      ∃ l, ls[k]? = some l ∧ l ∈ ls ∧ ls.drop k = l :: ls.drop (k + 1) := by
  rcases Nat.lt_or_ge k ls.length with hk | hk
  · refine Or.inr ⟨ls[k], List.getElem?_eq_getElem hk, List.getElem_mem hk, ?_⟩
    exact List.drop_eq_getElem_cons hk
  · exact Or.inl ⟨hk, List.drop_eq_nil_of_le hk⟩

variable {again : List (Option Str × ℕ) → Bool} {a a' : Aios} {more : Bool}

/-- The calls that were made stay, and nothing is read. -/
structure Later (a a' : Aios) : Prop where
  called : a.called <+: a'.called
  wire : a'.wire = a.wire

theorem Later.refl (a : Aios) : Later a a := ⟨List.prefix_refl _, rfl⟩

theorem Later.trans {a₁ : Aios} (h : Later a a₁) (h' : Later a₁ a') : Later a a' :=
  ⟨h.called.trans h'.called, h'.wire.trans h.wire⟩

theorem later_setreadcb (a : Aios) : Later a a.setreadcb := by
  unfold setreadcb
  split
  · exact ⟨List.prefix_append .., rfl⟩
  · exact ⟨List.prefix_refl _, rfl⟩

theorem mkrcb_called (a : Aios) (s : Option Str) :
    Later { a with called := a.called ++ [(s, a.err)] } (a.mkrcb again s) := by
  unfold mkrcb
  dsimp only
  split
  · have hset := later_setreadcb
      { a with infn := .rnone, rcb := false, called := a.called ++ [(s, a.err)] }
    exact ⟨hset.called, hset.wire⟩
  · exact ⟨List.prefix_refl _, rfl⟩

variable (again) in
theorem later_mkrcb (a : Aios) (s : Option Str) : Later a (a.mkrcb again s) :=
  ⟨(List.prefix_append ..).trans (mkrcb_called a s).called, (mkrcb_called a s).wire⟩

variable (again) in
theorem later_fail (a : Aios) (e : ℕ) : Later a (a.fail again e) := by
  unfold fail
  dsimp only
  split
  · have hmkrcb := later_mkrcb again
      { a with eof := true, err := if e ≠ 0 then e else a.err, selread := false } none
    exact ⟨hmkrcb.called, hmkrcb.wire⟩
  · exact ⟨List.prefix_refl _, rfl⟩

theorem later_rline (h : a.rline again = some (more, a')) : Later a a' := by
  unfold rline at h
  dsimp only at h
  split at h
  · cases h
    split
    · exact later_fail again a efbig
    · exact .refl a
  · split at h
    · cases h
    · obtain ⟨⟨m, inb⟩, -, h⟩ := Option.bind_eq_some_iff.mp h
      cases h
      have hmkrcb := later_mkrcb again { a with inb := inb }
      exact ⟨(hmkrcb _).called, (hmkrcb _).wire⟩

theorem later_callInfn (h : a.callInfn again = some (more, a')) : Later a a' := by
  unfold callInfn at h
  split at h
  · cases h
    exact .refl a
  · exact later_rline h

theorem later_inputLoop {fuel : ℕ} (h : a.inputLoop again fuel = some a') : Later a a' := by
  induction fuel generalizing a with
  | zero => cases h
  | succ fuel ih =>
    obtain ⟨⟨more, a₁⟩, hcall, h⟩ := Option.bind_eq_some_iff.mp h
    have hlater := later_callInfn hcall
    dsimp only at h
    split at h
    · exact hlater.trans (ih h)
    · cases h
      exact hlater

theorem later_inputRest (h : a.inputRest again = some a') : Later a a' := by
  obtain ⟨a₁, hloop, rfl⟩ := Option.map_eq_some_iff.mp h
  have hlater := later_inputLoop hloop
  exact ⟨hlater.called, hlater.wire⟩

theorem later_input {r : ReadResult} (h : a.input again r = some a') :
    a.called <+: a'.called ∧
      a'.wire = a.wire.drop (match r with | .bytes n => n | _ => 0) := by
  cases r with
  | error e =>
    cases h
    have hfail := later_fail again a e
    exact ⟨hfail.called, hfail.wire⟩
  | eagain =>
    have hrest := later_inputRest h
    exact ⟨hrest.called, hrest.wire⟩
  | bytes n =>
    obtain ⟨a₁, hread, h⟩ := Option.bind_eq_some_iff.mp h
    obtain ⟨inb, rfl⟩ : ∃ inb, a₁ = { a with inb := inb, wire := a.wire.drop n } := by
      unfold doinput at hread
      split at hread
      · obtain ⟨inb, -, rfl⟩ := Option.map_eq_some_iff.mp hread
        exact ⟨inb, rfl⟩
      · cases hread
    suffices hlater : Later { a with inb := inb, wire := a.wire.drop n } a' from
      ⟨hlater.called, hlater.wire⟩
    split at h
    · obtain ⟨⟨more, a₂⟩, hcall, h⟩ := Option.bind_eq_some_iff.mp h
      apply (later_callInfn hcall).trans
      dsimp only at h
      split at h
      · exact later_inputRest h
      · cases h
        exact later_fail again a₂ 0
    · exact later_inputRest h

theorem called_step {e : Event} (h : a.step again e = some a') : a.called <+: a'.called := by
  cases e with
  | readline r =>
    rw [step] at h
    split at h
    · cases h
    · split at h
      · cases h
        exact (later_setreadcb a).called
      · exact (later_setreadcb a).called.trans (later_input h).1
  | selread r =>
    rw [step] at h
    split at h
    · exact (later_input h).1
    · cases h

/-- The callbacks were called with the first lines as `rline` gives them, of which `find` found
every end, and the stream goes on in the buffer. -/
structure Good (rbsz : ℕ) (ls : List Str) (a : Aios) : Prop where
  inb : ∃ q, Refines a.inb q ∧
    q.held ++ a.wire = lineStream newline (ls.drop a.called.length)
  buflen : a.inb.buflen = rbsz
  called : ∀ (i : ℕ) (p : Option Str × ℕ), a.called[i]? = some p → p.1 = ls[i]?.map cut
  short : ∀ l ∈ ls.take a.called.length, l.length < 2 ^ 31 - 1
  infn : a.infn = .rline ↔ a.rcb = true
  err : a.eof = false → a.err = 0
  eof : a.eof = true → a.rcb = false ∧ ls.length ≤ a.called.length

/-- A callback was called with something else than its line, and `find` was the reason. -/
def Broken (ls : List Str) (a : Aios) : Prop :=
  (∃ l ∈ ls, 2 ^ 31 - 1 ≤ l.length) ∧
    ∃ (i : ℕ) (p : Option Str × ℕ), a.called[i]? = some p ∧ p.1 ≠ ls[i]?.map chomp

theorem Broken.mono {ls : List Str} (h : Broken ls a) (hcalled : a.called <+: a'.called) :
    Broken ls a' := by
  obtain ⟨hlong, i, p, hp, hne⟩ := h
  obtain ⟨more, hmore⟩ := hcalled
  refine ⟨hlong, i, p, ?_, hne⟩
  rw [← hmore, List.getElem?_append_left (List.getElem?_eq_some_iff.mp hp).1, hp]

variable {rbsz e : ℕ} {ls : List Str}

theorem Good.find (h : Good rbsz ls a) (hls : ∀ l ∈ ls, newline ∉ l) :
    ∃ q, Refines a.inb q ∧
      q.held ++ a.wire = lineStream newline (ls.drop a.called.length) ∧
      (newline ∉ q.held ∧ a.inb.find newline = -1 ∨
        ∃ l rest, ls[a.called.length]? = some l ∧ l ∈ ls ∧ q.held = l ++ newline :: rest ∧
          rest ++ a.wire = lineStream newline (ls.drop (a.called.length + 1)) ∧
          a.inb.find newline = toInt l.length) := by
  obtain ⟨q, hq, hstream⟩ := h.inb
  refine ⟨q, hq, hstream, ?_⟩
  by_cases hmem : newline ∈ q.held
  · right
    obtain ⟨-, hdrop⟩ | ⟨l, hget, hl, hdrop⟩ := drop_cases ls a.called.length
    · rw [hdrop, lineStream_nil, List.append_eq_nil_iff] at hstream
      rw [hstream.1] at hmem
      exact absurd hmem List.not_mem_nil
    · rw [hdrop, lineStream_cons] at hstream
      obtain ⟨rest, hheld, hrest⟩ := held_eq (hls l hl) hstream hmem
      refine ⟨l, rest, hget, hl, hheld, hrest, ?_⟩
      rw [hq.find_eq, hheld, idxOf?_line (hls l hl)]
  · left
    refine ⟨hmem, ?_⟩
    rw [hq.find_eq, List.idxOf?_eq_none_iff.mpr hmem]

theorem Good.no_line (h : Good rbsz ls a) (hls : ∀ l ∈ ls, newline ∉ l)
    (hfit : ∀ l ∈ ls, l.length < rbsz) (hfind : a.inb.find newline < 0)
    (hend : a.wire = [] ∨ a.inb.space = 0) :
    ls.length ≤ a.called.length ∨
      ∃ l, ls[a.called.length]? = some l ∧ l ∈ ls ∧ 2 ^ 31 ≤ l.length := by
  obtain ⟨q, hq, hstream, ⟨hmem, -⟩ | ⟨l, -, hget, hl, -, -, hplace⟩⟩ := h.find hls
  · obtain ⟨hle, -⟩ | ⟨l, hget, hl, hdrop⟩ := drop_cases ls a.called.length
    · exact Or.inl hle
    · rw [hdrop, lineStream_cons] at hstream
      exfalso
      apply hmem
      rw [mem_held_iff (hls l hl) hstream]
      have hlen := congrArg List.length hstream
      have hsize := hq.size_add_space
      have hheld := hq.length_held
      have hbuflen := h.buflen
      have hroom := hfit l hl
      rw [List.length_append, List.length_append, List.length_cons] at hlen
      rcases hend with hwire | hspace
      · rw [hwire, List.length_nil] at hlen
        omega
      · omega
  · right
    refine ⟨l, hget, hl, ?_⟩
    rw [hplace] at hfind
    by_contra hlt
    rw [toInt_eq_iff.mpr (by omega)] at hfind
    omega

theorem fail_eq (h : a.rcb = true) (again : List (Option Str × ℕ) → Bool) (e : ℕ) :
    a.fail again e = { a with
      infn := .rnone
      rcb := false
      eof := true
      err := if e ≠ 0 then e else a.err
      selread := false
      called := a.called ++ [(none, if e ≠ 0 then e else a.err)] } := by
  simp [fail, mkrcb, h]

theorem Good.called_none (h : Good rbsz ls a) (hle : ls.length ≤ a.called.length) (err : ℕ) :
    Good rbsz ls { a with called := a.called ++ [(none, err)] } := by
  obtain ⟨q, hq, hstream⟩ := h.inb
  refine ⟨⟨q, hq, ?_⟩, h.buflen, ?_, ?_, h.infn, h.err, ?_⟩
  · have hdrop : ls.drop (a.called.length + 1) = ls.drop a.called.length := by
      rw [List.drop_eq_nil_of_le hle, List.drop_eq_nil_of_le (by omega)]
    simpa [hdrop] using hstream
  · intro i p hp
    dsimp only at hp
    rw [List.getElem?_append] at hp
    split at hp
    · exact h.called i p hp
    · rw [List.getElem?_singleton] at hp
      split at hp
      · cases hp
        rw [List.getElem?_eq_none (by omega), Option.map_none]
      · cases hp
  · intro l hl
    apply h.short l
    rw [List.take_of_length_le hle]
    exact List.mem_of_mem_take hl
  · intro heof
    refine ⟨(h.eof heof).1, ?_⟩
    rw [List.length_append]
    omega

theorem Good.fail (h : Good rbsz ls a) (hls : ∀ l ∈ ls, newline ∉ l)
    (hfit : ∀ l ∈ ls, l.length < rbsz) (hrcb : a.rcb = true) (hfind : a.inb.find newline < 0)
    (hend : a.wire = [] ∨ a.inb.space = 0) (e : ℕ) :
    Good rbsz ls (a.fail again e) ∨ Broken ls (a.fail again e) := by
  rw [fail_eq hrcb]
  obtain hle | ⟨l, hget, hl, hlong⟩ := h.no_line hls hfit hfind hend
  · left
    have hnone := h.called_none hle (if e ≠ 0 then e else a.err)
    refine { hnone with infn := by simp, err := by simp, eof := ?_ }
    intro _
    refine ⟨rfl, ?_⟩
    rw [List.length_append]
    omega
  · right
    refine ⟨⟨l, hl, by omega⟩, a.called.length, (none, if e ≠ 0 then e else a.err), by simp, ?_⟩
    rw [hget]
    simp

theorem mkrcb_some (heof : a.eof = false) (herr : a.err = 0) (s : Str) :
    a.mkrcb again (some s) = { a with
      infn := if again (a.called ++ [(some s, 0)]) then .rline else .rnone
      rcb := again (a.called ++ [(some s, 0)])
      called := a.called ++ [(some s, 0)] } := by
  cases hagain : again (a.called ++ [(some s, 0)]) <;>
    simp [mkrcb, setreadcb, heof, herr, hagain]

theorem rline_eq {q : ByteQueue (BitVec 8)} {l rest : Str} (hq : Refines a.inb q)
    (hheld : q.held = l ++ newline :: rest) (hfind : a.inb.find newline = l.length)
    (hl : l.length < 2 ^ 31 - 1) :
    ∃ inb, a.rline again = some (true, { a with inb := inb }.mkrcb again (some (cut l))) ∧
      (∃ q', Refines inb q' ∧ q'.held = rest) ∧ inb.buflen = a.inb.buflen := by
  have hsize : a.inb.size = l.length + 1 + rest.length := by
    rw [← hq.length_held, hheld, List.length_append, List.length_cons]
    omega
  have hsplit : l ++ newline :: rest = (l ++ [newline]) ++ rest := by simp
  have hlen : (l ++ [newline]).length = l.length + 1 := by simp
  have htake : q.held.take (l.length + 1) = l ++ [newline] := by
    rw [hheld, hsplit, List.take_left' hlen]
  obtain ⟨inb, hcopy, hrem⟩ := hq.copyout (n := l.length + 1) (by omega)
  rw [htake] at hcopy
  refine ⟨inb, ?_, ⟨_, hq.rembytes hrem, ?_⟩, buflen_rembytes hrem⟩
  · rw [Aios.rline, hfind]
    have hnonneg : ¬ (l.length : ℤ) < 0 := by omega
    have hint : (l.length : ℤ) ≠ 2 ^ 31 - 1 := by omega
    simp only [if_neg hnonneg, if_neg hint, Int.toNat_natCast, hcopy, Option.bind_eq_bind,
      Option.bind_some, cut_eq]
  · rw [ByteQueue.held, ← List.drop_drop]
    have hdrop : q.held.drop (l.length + 1) = rest := by
      rw [hheld, hsplit, List.drop_left' hlen]
    exact hdrop

theorem Broken.of_short {l s : Str} (hget : ls[a.called.length]? = some l)
    (hlong : 2 ^ 32 ≤ l.length) (hs : s.length < 2 ^ 31)
    (hcalled : a.called ++ [(some s, a.err)] <+: a'.called) : Broken ls a' := by
  obtain ⟨more, hmore⟩ := hcalled
  refine ⟨⟨l, List.mem_of_getElem? hget, by omega⟩, a.called.length, (some s, a.err), ?_, ?_⟩
  · rw [← hmore]
    simp
  · rw [hget]
    intro heq
    obtain rfl : s = chomp l := by simpa using heq
    have hlen := length_chomp l
    omega

variable (again) in
theorem Good.rline (h : Good rbsz ls a) (hls : ∀ l ∈ ls, newline ∉ l) (heof : a.eof = false)
    (hfind : 0 ≤ a.inb.find newline) :
    (∃ a', a.rline again = some (true, a') ∧ Good rbsz ls a' ∧ a'.eof = false ∧
        a'.inb.size < a.inb.size ∧ ((∀ c, again c = true) → a'.rcb = true)) ∨
      (∃ l ∈ ls, 2 ^ 31 - 1 ≤ l.length) ∧
        ∀ more a', a.rline again = some (more, a') → Broken ls a' := by
  obtain ⟨q, hq, hstream, ⟨-, hnone⟩ | ⟨l, rest, hget, hl, hheld, hrest, hplace⟩⟩ := h.find hls
  · omega
  rcases Nat.lt_or_ge l.length (2 ^ 31 - 1) with hshort | hlong
  · left
    rw [toInt_eq_iff.mpr (by omega)] at hplace
    obtain ⟨inb, hrline, ⟨q', hq', hheld'⟩, hbuflen⟩ :=
      rline_eq hq hheld hplace hshort
    rw [mkrcb_some (a := { a with inb := inb }) heof (h.err heof)] at hrline
    have hsize : inb.size < a.inb.size := by
      rw [← hq'.length_held, hheld', ← hq.length_held, hheld, List.length_append, List.length_cons]
      omega
    refine ⟨_, hrline, ⟨⟨q', hq', ?_⟩, hbuflen.trans h.buflen, ?_, ?_, ?_, ?_, ?_⟩, heof, hsize,
      fun hagain => hagain _⟩
    · rw [hheld']
      simpa using hrest
    · intro i p hp
      dsimp only at hp
      rw [List.getElem?_append] at hp
      split at hp
      · exact h.called i p hp
      · rw [List.getElem?_singleton] at hp
        split at hp
        · cases hp
          obtain rfl : i = a.called.length := by omega
          rw [hget, Option.map_some]
        · cases hp
    · intro l' hl'
      rw [List.length_append, List.length_singleton, List.take_add_one, hget] at hl'
      rcases List.mem_append.mp hl' with hl' | hl'
      · exact h.short l' hl'
      · obtain rfl : l' = l := by simpa using hl'
        exact hshort
    · dsimp only
      split
      · rename_i hagain
        simp [hagain]
      · rename_i hagain
        simp [hagain]
    · exact fun _ => h.err heof
    · intro htrue
      exact absurd (heof.symm.trans htrue) Bool.false_ne_true
  · right
    refine ⟨⟨l, hl, hlong⟩, fun more a' hrline => ?_⟩
    unfold Aios.rline at hrline
    dsimp only at hrline
    rw [if_neg (by omega)] at hrline
    split at hrline
    · cases hrline
    rename_i hint
    obtain ⟨⟨m, inb⟩, hcopy, hrline⟩ := Option.bind_eq_some_iff.mp hrline
    cases hrline
    obtain hneg | ⟨hle, hlt⟩ :
        toInt l.length < 0 ∨ 2 ^ 32 ≤ l.length ∧ toInt l.length < 2 ^ 31 := by
      apply toInt_of_le
      by_contra hlt
      rw [hplace, toInt_eq_iff.mpr (by omega)] at hint
      omega
    · omega
    · apply Broken.of_short hget hle ?_ (mkrcb_called { a with inb := inb } _).called
      rw [hplace]
      split
      · rw [List.length_take]
        omega
      · rw [List.length_take]
        omega

end Sfslite.Async.Aios
