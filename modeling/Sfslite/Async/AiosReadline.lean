import Sfslite.Async.Aios

/-!
`readline` over whole runs, however the stream is cut into reads: what a run delivers is what
`suio_getline` gives of the same bytes if no line is a carriage return alone and each line is
shorter than an `int` counts.
-/

namespace Sfslite.Async.Aios

open Sfslite.Lib Cbuf

variable {again : List (Option Str × ℕ) → Bool} {rbsz : ℕ} {ls : List Str} {a a' : Aios}
  (hls : ∀ l ∈ ls, newline ∉ l) (hfit : ∀ l ∈ ls, l.length < rbsz)
  (hshort : ∀ l ∈ ls, l.length < 2 ^ 31 - 1)

/-- What holds after the loop of `input`. -/
structure Looped (again : List (Option Str × ℕ) → Bool) (rbsz : ℕ) (ls : List Str) (a : Aios) :
    Prop extends Good rbsz ls a where
  waits : a.rcb = true → 0 < a.inb.space ∧ a.inb.find newline < 0
  asks : (∀ c, again c = true) → a.rcb = true ∨ a.eof = true

theorem Good.callInfn_rcb (h : Good rbsz ls a) (hrcb : a.rcb = true) :
    a.callInfn again = a.rline again := by
  rw [callInfn, h.infn.mpr hrcb]

theorem Good.callInfn_idle (h : Good rbsz ls a) (hrcb : a.rcb = false) :
    a.callInfn again = some (false, a) := by
  have hne : a.infn ≠ .rline := by
    intro hinfn
    rw [h.infn.mp hinfn] at hrcb
    cases hrcb
  rw [callInfn]
  cases hinfn : a.infn with
  | rnone => rfl
  | rline => exact absurd hinfn hne

theorem Good.eof_false (h : Good rbsz ls a) (hrcb : a.rcb = true) : a.eof = false := by
  cases heof : a.eof with
  | false => rfl
  | true => exact absurd ((h.eof heof).1.symm.trans hrcb) Bool.false_ne_true

theorem rline_not_found (hfind : a.inb.find newline < 0) :
    a.rline again = some (false, if a.inb.space = 0 then a.fail again efbig else a) := by
  rw [rline]
  exact if_pos hfind

include hls hfit in
theorem Good.looped_fail (h : Good rbsz ls a) (hrcb : a.rcb = true)
    (hfind : a.inb.find newline < 0) (hend : a.wire = [] ∨ a.inb.space = 0) (e : ℕ) :
    Looped again rbsz ls (a.fail again e) ∨ Broken ls (a.fail again e) := by
  apply (h.fail hls hfit hrcb hfind hend e).imp_left
  intro hgood
  have hfail := fail_eq hrcb again e
  refine ⟨hgood, ?_, ?_⟩
  · rw [hfail]
    simp
  · rw [hfail]
    simp

include hls hfit in
theorem Good.inputLoop (h : Good rbsz ls a) (heof : a.eof = false)
    (hasks : (∀ c, again c = true) → a.rcb = true) {fuel : ℕ}
    (hs : a.inputLoop again fuel = some a') : Looped again rbsz ls a' ∨ Broken ls a' := by
  induction fuel generalizing a with
  | zero => cases hs
  | succ fuel ih =>
    obtain ⟨⟨more, a₁⟩, hcall, hs⟩ := Option.bind_eq_some_iff.mp hs
    cases hrcb : a.rcb with
    | false =>
      rw [h.callInfn_idle hrcb] at hcall
      cases hcall
      cases hs
      refine Or.inl ⟨h, fun hwaits => ?_, fun hagain => Or.inl (hasks hagain)⟩
      rw [hrcb] at hwaits
      cases hwaits
    | true =>
      rw [h.callInfn_rcb hrcb] at hcall
      rcases lt_or_ge (a.inb.find newline) 0 with hfind | hfind
      · rw [rline_not_found hfind] at hcall
        cases hcall
        cases hs
        split
        · rename_i hspace
          exact h.looped_fail hls hfit hrcb hfind (Or.inr hspace) efbig
        · rename_i hspace
          exact Or.inl ⟨h, fun _ => ⟨Nat.pos_of_ne_zero hspace, hfind⟩, fun _ => Or.inl hrcb⟩
      · obtain ⟨a₂, hrline, hgood, heof₂, -, hasks₂⟩ | ⟨-, hbroken⟩ :=
          h.rline again hls heof hfind
        · rw [hrline] at hcall
          cases hcall
          exact ih hgood heof₂ hasks₂ hs
        · have hb := hbroken more a₁ hcall
          dsimp only at hs
          split at hs
          · exact Or.inr (hb.mono (later_inputLoop hs).called)
          · cases hs
            exact Or.inr hb

include hls hshort in
variable (again) in
/-- The bytes in the buffer bound the rounds of the loop. -/
theorem Good.inputLoop_isSome (h : Good rbsz ls a)
    (heof : a.eof = false) {fuel : ℕ} (hfuel : a.inb.size < fuel) :
    ∃ a', a.inputLoop again fuel = some a' := by
  induction fuel generalizing a with
  | zero => omega
  | succ fuel ih =>
    rw [Aios.inputLoop]
    cases hrcb : a.rcb with
    | false =>
      rw [h.callInfn_idle hrcb]
      exact ⟨a, rfl⟩
    | true =>
      rw [h.callInfn_rcb hrcb]
      rcases lt_or_ge (a.inb.find newline) 0 with hfind | hfind
      · rw [rline_not_found hfind]
        exact ⟨_, rfl⟩
      · obtain ⟨a₂, hrline, hgood, heof₂, hsize, -⟩ | ⟨⟨l, hl, hlong⟩, -⟩ :=
          h.rline again hls heof hfind
        · rw [hrline]
          exact ih hgood heof₂ (by omega)
        · exact absurd (hshort l hl) (by omega)

theorem room_eq (h : Good rbsz ls a) : a.room = a.inb.space := by
  obtain ⟨q, hq, -⟩ := h.inb
  have hcells := congrArg List.length hq.cells_iniov
  rw [length_window, cells, List.length_flatMap] at hcells
  simpa [room] using hcells

theorem Good.doinput (h : Good rbsz ls a) {n : ℕ} (hn : a.Readable n) :
    ∃ a', a.doinput n = some a' ∧ Good rbsz ls a' ∧ a'.rcb = a.rcb ∧ a'.eof = a.eof ∧
      (n = 0 → a'.wire = [] ∨ a'.inb.space = 0) := by
  obtain ⟨q, hq, hstream⟩ := h.inb
  have hroom := room_eq h
  obtain ⟨hle, hwire, hzero⟩ := hn
  obtain ⟨inb, hinb⟩ := step_of_within hq (e := .addbytes (a.wire.take n)) (by
    show (a.wire.take n).length ≤ a.inb.space
    rw [List.length_take]
    omega)
  have hq' := hq.step hinb
  have hremoved : q.removed ≤ q.added.length := by
    have := hq.removed
    omega
  have hheld : (q.step (.addbytes (a.wire.take n))).held = q.held ++ a.wire.take n := by
    simp only [ByteQueue.held, ByteQueue.step]
    rw [List.drop_append_of_le_length hremoved]
  refine ⟨{ a with inb := inb, wire := a.wire.drop n }, ?_, { h with
    inb := ⟨_, hq', ?_⟩
    buflen := (buflen_step hinb).trans h.buflen }, rfl, rfl, ?_⟩
  · rw [Aios.doinput, if_pos ⟨hle, hwire, hzero⟩, hinb]
    rfl
  · rw [hheld, List.append_assoc, List.take_append_drop, hstream]
  · rintro rfl
    apply (hzero rfl).imp
    · intro hnil
      rw [hnil, List.drop_nil]
    · intro hfull
      have hlen := congrArg List.length hheld
      have hsize := hq.size_add_space
      have hsize' := hq'.size_add_space
      have hbuflen := buflen_step hinb
      rw [hq'.length_held, List.take_zero, List.append_nil, hq.length_held] at hlen
      dsimp only
      omega

/-- What holds between events. -/
structure Idle (rbsz : ℕ) (ls : List Str) (a : Aios) : Prop extends Good rbsz ls a where
  waits : a.rcb = true → 0 < a.inb.space ∧ a.inb.find newline < 0
  selread : a.selread = a.rcb

include hls hfit in
theorem Good.inputRest (h : Good rbsz ls a) (heof : a.eof = false)
    (hasks : (∀ c, again c = true) → a.rcb = true) (hs : a.inputRest again = some a') :
    Idle rbsz ls a' ∧ ((∀ c, again c = true) → a'.rcb = true ∨ a'.eof = true) ∨ Broken ls a' := by
  obtain ⟨a₁, hloop, rfl⟩ := Option.map_eq_some_iff.mp hs
  apply (h.inputLoop hls hfit heof hasks hloop).imp
  · intro hlooped
    have hgood := hlooped.toGood
    exact ⟨⟨{ hgood with },
      hlooped.waits, rfl⟩, hlooped.asks⟩
  · exact id

include hls hfit in
theorem Good.idle_fail (h : Good rbsz ls a) (hrcb : a.rcb = true)
    (hfind : a.inb.find newline < 0) (hend : a.wire = [] ∨ a.inb.space = 0) (e : ℕ) :
    Idle rbsz ls (a.fail again e) ∧
      ((∀ c, again c = true) → (a.fail again e).rcb = true ∨ (a.fail again e).eof = true) ∨
        Broken ls (a.fail again e) := by
  apply (h.looped_fail hls hfit hrcb hfind hend e).imp_left
  intro hlooped
  refine ⟨⟨hlooped.toGood, hlooped.waits, ?_⟩, hlooped.asks⟩
  rw [fail_eq hrcb]

include hls hfit in
theorem Good.input (h : Good rbsz ls a) (hrcb : a.rcb = true) {r : ReadResult} (hr : a.Cuts r)
    (hs : a.input again r = some a') :
    Idle rbsz ls a' ∧ ((∀ c, again c = true) → a'.rcb = true ∨ a'.eof = true) ∨ Broken ls a' := by
  have heof := h.eof_false hrcb
  cases r with
  | error e => exact hr.elim
  | eagain => exact h.inputRest hls hfit heof (fun _ => hrcb) hs
  | bytes n =>
    obtain ⟨a₁, hread, hs⟩ := Option.bind_eq_some_iff.mp hs
    obtain ⟨a₂, hread', hgood, hrcb', heof', hend⟩ := h.doinput hr
    obtain rfl := Option.some.inj (hread.symm.trans hread')
    rw [hrcb] at hrcb'
    rw [heof] at heof'
    split at hs
    · rename_i hzero
      obtain ⟨⟨more, a₂⟩, hcall, hs⟩ := Option.bind_eq_some_iff.mp hs
      rw [hgood.callInfn_rcb hrcb'] at hcall
      rcases lt_or_ge (a₁.inb.find newline) 0 with hfind | hfind
      · rw [rline_not_found hfind] at hcall
        cases hcall
        cases hs
        split
        · rename_i hspace
          have hagain : (a₁.fail again efbig).fail again 0 = a₁.fail again efbig := by
            rw [fail_eq hrcb']
            simp [Aios.fail]
          rw [hagain]
          exact hgood.idle_fail hls hfit hrcb' hfind (Or.inr hspace) efbig
        · exact hgood.idle_fail hls hfit hrcb' hfind (hend hzero) 0
      · obtain ⟨a₃, hrline, hgood₃, heof₃, -, hasks₃⟩ | ⟨-, hbroken⟩ :=
          hgood.rline again hls heof' hfind
        · rw [hrline] at hcall
          cases hcall
          exact hgood₃.inputRest hls hfit heof₃ hasks₃ hs
        · have hb := hbroken more a₂ hcall
          dsimp only at hs
          split at hs
          · exact Or.inr (hb.mono (later_inputRest hs).called)
          · cases hs
            exact Or.inr (hb.mono (later_fail again a₂ 0).called)
    · exact hgood.inputRest hls hfit heof' (fun _ => hrcb') hs

include hls hshort in
theorem Good.inputRest_isSome (h : Good rbsz ls a)
    (heof : a.eof = false) : ∃ a', a.inputRest again = some a' := by
  obtain ⟨a', ha'⟩ := h.inputLoop_isSome again hls hshort heof (Nat.lt_succ_self _)
  exact ⟨_, by rw [Aios.inputRest, ha', Option.map_some]⟩

include hls hshort in
theorem Good.input_isSome (h : Good rbsz ls a)
    (hrcb : a.rcb = true) {r : ReadResult} (hr : a.Cuts r) : ∃ a', a.input again r = some a' := by
  have heof := h.eof_false hrcb
  cases r with
  | error e => exact hr.elim
  | eagain => exact h.inputRest_isSome hls hshort heof
  | bytes n =>
    obtain ⟨a₁, hread, hgood, hrcb', heof', -⟩ := h.doinput hr
    rw [hrcb] at hrcb'
    rw [heof] at heof'
    rw [Aios.input, hread, Option.bind_eq_bind, Option.bind_some]
    split
    · rw [hgood.callInfn_rcb hrcb']
      rcases lt_or_ge (a₁.inb.find newline) 0 with hfind | hfind
      · rw [rline_not_found hfind]
        exact ⟨_, rfl⟩
      · obtain ⟨a₂, hrline, hgood₂, heof₂, -⟩ | ⟨⟨l, hl, hlong⟩, -⟩ :=
          hgood.rline again hls heof' hfind
        · rw [hrline]
          exact hgood₂.inputRest_isSome hls hshort heof₂
        · exact absurd (hshort l hl) (by omega)
    · exact hgood.inputRest_isSome hls hshort heof'

theorem Good.setreadcb (h : Good rbsz ls a) (heof : a.eof = false) :
    a.setreadcb = { a with infn := .rline, rcb := true } ∧ Good rbsz ls a.setreadcb := by
  have hset : a.setreadcb = { a with infn := .rline, rcb := true } := by
    simp [Aios.setreadcb, heof, h.err heof]
  refine ⟨hset, ?_⟩
  rw [hset]
  refine { h with infn := by simp, eof := fun htrue => ?_ }
  exact absurd (heof.symm.trans htrue) Bool.false_ne_true

theorem Idle.setreadcb (h : Idle rbsz ls a) (heof : a.eof = true) :
    Idle rbsz ls a.setreadcb ∧ a.setreadcb.eof = true := by
  have hset : a.setreadcb = { a with called := a.called ++ [(none, a.err)] } := by
    simp [Aios.setreadcb, heof]
  rw [hset]
  exact ⟨⟨h.called_none (h.eof heof).2 a.err, h.waits, h.selread⟩, heof⟩

variable (again) in
theorem Idle.step_cases (h : Idle rbsz ls a) {e : Event} (he : a.Possible e) :
    a.eof = true ∧ a.step again e = some a.setreadcb ∨
      ∃ b r, Good rbsz ls b ∧ b.rcb = true ∧ b.Cuts r ∧ a.step again e = b.input again r := by
  cases e with
  | readline r =>
    obtain ⟨hrcb, hr⟩ := he
    rw [Aios.step, if_neg (by simp [hrcb])]
    cases heof : a.eof with
    | true =>
      rw [if_pos (Or.inl rfl)]
      exact Or.inl ⟨rfl, rfl⟩
    | false =>
      rw [if_neg (by simp [h.err heof])]
      obtain ⟨hset, hgood⟩ := h.toGood.setreadcb heof
      have hcuts := hr.resolve_left (by simp [heof])
      refine Or.inr ⟨a.setreadcb, r, hgood, by rw [hset], ?_, rfl⟩
      rw [hset]
      cases r with
      | bytes n => exact hcuts
      | eagain => trivial
      | error e => exact hcuts
  | selread r =>
    obtain ⟨hsel, hr⟩ := he
    rw [Aios.step, if_pos hsel]
    exact Or.inr ⟨a, r, h.toGood, h.selread.symm.trans hsel, hr, rfl⟩

include hls hshort in
theorem Idle.step_isSome (h : Idle rbsz ls a)
    {e : Event} (he : a.Possible e) : ∃ a', a.step again e = some a' := by
  obtain ⟨-, hstep⟩ | ⟨b, r, hgood, hrcb, hr, hstep⟩ := h.step_cases again he
  · exact ⟨_, hstep⟩
  · rw [hstep]
    exact hgood.input_isSome hls hshort hrcb hr

include hls hfit in
theorem Idle.step (h : Idle rbsz ls a) {e : Event} (he : a.Possible e)
    (hs : a.step again e = some a') :
    Idle rbsz ls a' ∧ ((∀ c, again c = true) → a'.rcb = true ∨ a'.eof = true) ∨ Broken ls a' := by
  obtain ⟨heof, hstep⟩ | ⟨b, r, hgood, hrcb, hr, hstep⟩ := h.step_cases again he
  · obtain rfl := Option.some.inj (hstep.symm.trans hs)
    obtain ⟨hidle, heof'⟩ := h.setreadcb heof
    exact Or.inl ⟨hidle, fun _ => Or.inr heof'⟩
  · rw [hstep] at hs
    exact hgood.input hls hfit hrcb hr hs

theorem idle_new (mem : ℕ → BitVec 8) : Idle rbsz ls (new mem rbsz (lineStream newline ls)) where
  inb := by
    refine ⟨_, Refines.new mem rbsz, ?_⟩
    simp [ByteQueue.held, ByteQueue.after, new]
  buflen := rfl
  called := by simp [new]
  short := by simp [new]
  infn := by simp [new]
  err _ := rfl
  eof := by simp [new]
  waits := by simp [new]
  selread := rfl

theorem idle_run (hls : ∀ l ∈ ls, newline ∉ l) (hfit : ∀ l ∈ ls, l.length < rbsz)
    {mem : ℕ → BitVec 8} {es : List Event}
    (hrun : Run (step again) Possible (new mem rbsz (lineStream newline ls)) es a) :
    Idle rbsz ls a ∨ Broken ls a := by
  refine hrun.invariant (I := fun a => Idle rbsz ls a ∨ Broken ls a) (Or.inl (idle_new mem)) ?_
  rintro b e b' (hidle | hbroken) he hs
  · exact (hidle.step hls hfit he hs).imp_left And.left
  · exact Or.inr (hbroken.mono (called_step hs))

theorem delivered_iff (f : Str → Str) (a : Aios) :
    a.called.map Prod.fst = (List.range a.called.length).map (fun i => ls[i]?.map f) ↔
      ∀ (i : ℕ) (p : Option Str × ℕ), a.called[i]? = some p → p.1 = ls[i]?.map f := by
  constructor
  · intro h i p hp
    have hi := congrArg (fun l => l[i]?) h
    have hlt := (List.getElem?_eq_some_iff.mp hp).1
    simpa [hp, List.getElem?_range hlt] using hi
  · intro h
    apply List.ext_getElem?
    intro i
    rw [List.getElem?_map, List.getElem?_map]
    cases hp : a.called[i]? with
    | none =>
      rw [List.getElem?_eq_none_iff] at hp
      rw [List.getElem?_eq_none (by simpa using hp)]
      rfl
    | some p =>
      rw [List.getElem?_range (List.getElem?_eq_some_iff.mp hp).1, Option.map_some,
        Option.map_some, h i p hp]

theorem Broken.not_delivers (h : Broken ls a) : ¬ Delivers ls a := by
  obtain ⟨-, i, p, hp, hne⟩ := h
  rintro ⟨hcalled, -⟩
  exact hne ((delivered_iff chomp a).mp hcalled i p hp)

theorem Idle.ended (h : Idle rbsz ls a) (hls : ∀ l ∈ ls, newline ∉ l)
    (hfit : ∀ l ∈ ls, l.length < rbsz) (hend : a.Ended) :
    ls.length ≤ a.called.length ∨
      ls.length > a.called.length ∧ ∃ l ∈ ls, 2 ^ 31 ≤ l.length := by
  rcases hend with ⟨hrcb, hwire⟩ | heof
  · apply (h.no_line hls hfit (h.waits hrcb).2 (Or.inl hwire)).imp_right
    rintro ⟨l, hget, hl, hlong⟩
    exact ⟨(List.getElem?_eq_some_iff.mp hget).1, l, hl, hlong⟩
  · exact Or.inl (h.eof heof).2

theorem Good.delivered (h : Good rbsz ls a) (hlines : ∀ l ∈ ls, l ≠ [carriageReturn]) :
    a.called.map Prod.fst = (List.range a.called.length).map (fun i => ls[i]?.map chomp) := by
  apply (delivered_iff chomp a).mpr
  intro i p hp
  rw [h.called i p hp]
  cases hget : ls[i]? with
  | none => rfl
  | some l =>
    have hcut := cut_eq_chomp_iff.mpr (hlines l (List.mem_of_getElem? hget))
    rw [Option.map_some, Option.map_some, hcut]

theorem Idle.delivers_iff (h : Idle rbsz ls a) (hls : ∀ l ∈ ls, newline ∉ l)
    (hfit : ∀ l ∈ ls, l.length < rbsz) (hend : a.Ended) :
    Delivers ls a ↔ ∀ l ∈ ls, l ≠ [carriageReturn] ∧ l.length < 2 ^ 31 - 1 := by
  obtain hall | ⟨hgt, l, hl, hlong⟩ := h.ended hls hfit hend
  · have hshort := h.short
    rw [List.take_of_length_le hall] at hshort
    constructor
    · rintro ⟨hcalled, -⟩ l hl
      refine ⟨cut_eq_chomp_iff.mp ?_, hshort l hl⟩
      obtain ⟨i, hi, rfl⟩ := List.mem_iff_getElem.mp hl
      have hp := List.getElem?_eq_getElem (hi.trans_le hall)
      have hcut := h.called i _ hp
      have hchomp := (delivered_iff chomp a).mp hcalled i _ hp
      rw [hcut, List.getElem?_eq_getElem hi] at hchomp
      exact Option.some.inj hchomp
    · intro hlines
      exact ⟨h.delivered fun l hl => (hlines l hl).1, fun _ => hall⟩
  · constructor
    · rintro ⟨-, hall⟩
      have hle := hall hend
      omega
    · intro hlines
      have hlt := (hlines l hl).2
      omega

theorem Idle.exists_run (hls : ∀ l ∈ ls, newline ∉ l) (hfit : ∀ l ∈ ls, l.length < rbsz)
    (k : ℕ) (h : Idle rbsz ls a) (hk : a.wire.length ≤ k) (hasks : a.rcb = true ∨ a.eof = true) :
    ∃ es a', Run (Aios.step fun _ => true) Possible a es a' ∧
      (Idle rbsz ls a' ∧ a'.Ended ∨ Broken ls a' ∨
        ∃ e, a'.Possible e ∧ a'.step (fun _ => true) e = none) := by
  induction k generalizing a with
  | zero =>
    have hwire : a.wire = [] := List.eq_nil_of_length_eq_zero (by omega)
    exact ⟨[], a, .nil a, Or.inl ⟨h, hasks.imp_left fun hrcb => ⟨hrcb, hwire⟩⟩⟩
  | succ k ih =>
    rcases hasks with hrcb | heof
    · cases hwire : a.wire with
      | nil => exact ⟨[], a, .nil a, Or.inl ⟨h, Or.inl ⟨hrcb, hwire⟩⟩⟩
      | cons c wire =>
        have hroom : 1 ≤ a.room := by
          rw [room_eq h.toGood]
          exact (h.waits hrcb).1
        have he : a.Possible (.selread (.bytes 1)) :=
          ⟨h.selread.trans hrcb, hroom, by rw [hwire]; simp, by simp⟩
        cases hs : a.step (fun _ => true) (.selread (.bytes 1)) with
        | none => exact ⟨[], a, .nil a, Or.inr (Or.inr ⟨_, he, hs⟩)⟩
        | some a₁ =>
          obtain ⟨hidle, hasks₁⟩ | hbroken := h.step hls hfit he hs
          · have hdrop : a₁.wire = a.wire.drop 1 := by
              rw [Aios.step, if_pos he.1] at hs
              exact (later_input hs).2
            have hlen : a₁.wire.length ≤ k := by
              rw [hdrop, List.length_drop]
              omega
            obtain ⟨es, a', hrun, hend⟩ := ih hidle hlen (hasks₁ fun _ => rfl)
            exact ⟨_, a', .cons he hs hrun, hend⟩
          · exact ⟨_, a₁, .cons he hs (.nil a₁), Or.inr (Or.inl hbroken)⟩
    · exact ⟨[], a, .nil a, Or.inl ⟨h, Or.inr heof⟩⟩

/-- What `readline` is there for: the callbacks are called with the lines, as `suio_getline`
gives them, and no event stops the program. -/
def Reads (again : List (Option Str × ℕ) → Bool) (e : Suio.Env) (u : Suio) (ls : List Str)
    (a : Aios) : Prop :=
  Delivers ls a ∧ u.getlines e a.called.length = some (a.called.map Prod.fst) ∧
    ∀ ev, a.Possible ev → ∃ a', a.step again ev = some a'

/-- Lines of any stream that fit into the buffer are read right, in every run, if none of them is
a carriage return alone and each is shorter than `2 ^ 31 - 1` bytes. Of another stream they are
not, and no run of it ends right. -/
theorem readline_iff (hls : ∀ l ∈ ls, newline ∉ l) (hfit : ∀ l ∈ ls, l.length < rbsz)
    {e : Suio.Env} {u : Suio} (hu : u.Holds e (lineStream newline ls)) :
    ((∀ again mem es a,
        Run (step again) Possible (new mem rbsz (lineStream newline ls)) es a →
        Reads again e u ls a) ↔
      ∀ l ∈ ls, l ≠ [carriageReturn] ∧ l.length < 2 ^ 31 - 1) ∧
    ∀ again mem es a, Run (step again) Possible (new mem rbsz (lineStream newline ls)) es a →
      a.Ended →
      (Delivers ls a ↔ ∀ l ∈ ls, l ≠ [carriageReturn] ∧ l.length < 2 ^ 31 - 1) := by
  have hended : ∀ again mem es a,
      Run (step again) Possible (new mem rbsz (lineStream newline ls)) es a → a.Ended →
      (Delivers ls a ↔ ∀ l ∈ ls, l ≠ [carriageReturn] ∧ l.length < 2 ^ 31 - 1) := by
    intro again mem es a hrun hend
    obtain hidle | hbroken := idle_run hls hfit hrun
    · exact hidle.delivers_iff hls hfit hend
    · obtain ⟨⟨l, hl, hlong⟩, -⟩ := id hbroken
      refine ⟨fun hd => absurd hd hbroken.not_delivers, fun hlines => ?_⟩
      have hlt := (hlines l hl).2
      omega
  refine ⟨⟨fun hreads => ?_, fun hlines again mem es a hrun => ?_⟩, hended⟩
  · have hnew : Idle rbsz ls (new (fun _ => 0) rbsz (lineStream newline ls)) := idle_new _
    have he : (new (fun _ => 0) rbsz (lineStream newline ls)).Possible (.readline .eagain) :=
      ⟨rfl, Or.inr trivial⟩
    obtain ⟨a₁, hs⟩ := (hreads (fun _ => true) _ _ _ (.nil _)).2.2 _ he
    have hfirst : Run (step fun _ => true) Possible
        (new (fun _ => 0) rbsz (lineStream newline ls)) [.readline .eagain] a₁ :=
      .cons he hs (.nil a₁)
    obtain ⟨hidle, hasks⟩ | hbroken := hnew.step hls hfit he hs
    · obtain ⟨es, a', hrun, hcase⟩ := hidle.exists_run hls hfit _ le_rfl (hasks fun _ => rfl)
      have hright := hreads (fun _ => true) _ _ _ (.cons he hs hrun)
      rcases hcase with ⟨hidle', hend⟩ | hbroken | ⟨ev, hev, hnone⟩
      · exact (hidle'.delivers_iff hls hfit hend).mp hright.1
      · exact absurd hright.1 hbroken.not_delivers
      · obtain ⟨a'', hsome⟩ := hright.2.2 ev hev
        rw [hnone] at hsome
        cases hsome
    · exact absurd (hreads (fun _ => true) _ _ _ hfirst).1 hbroken.not_delivers
  · obtain hidle | ⟨⟨l, hl, hlong⟩, -⟩ := idle_run hls hfit hrun
    · have hdelivered := hidle.delivered fun l hl => (hlines l hl).1
      refine ⟨⟨hdelivered, fun hend => ?_⟩, ?_, fun ev hev => ?_⟩
      · exact ((hidle.delivers_iff hls hfit hend).mpr hlines).2 hend
      · rw [hu.getlines hls, hdelivered]
      · exact hidle.step_isSome hls (fun l hl => (hlines l hl).2) hev
    · have hlt := (hlines l hl).2
      omega

/-- A suio that has its bytes in one piece. -/
def suioOf (bs : List (BitVec 8)) : Suio.Env × Suio :=
  (⟨fun x => (bs[x - 1000]?).getD 0, [], []⟩,
    { Suio.new 0 with iovs := [⟨1000, bs.length⟩], uiobytes := bs.length })

theorem holds_suioOf (bs : List (BitVec 8)) : (suioOf bs).2.Holds (suioOf bs).1 bs := by
  refine ⟨?_, rfl⟩
  apply List.ext_getElem
  · simp [suioOf, Suio.addrs]
  · intro i _ hi
    simp [suioOf, Suio.addrs, hi]

/-- A line and an empty line, where the first read ends within the end of the first line. -/
theorem readline_iff_two :
    ∃ a, Run (step fun _ => true) Possible
        (new (fun _ => 0) 3 (lineStream newline [[0x61, 0x0d], []]))
        [.readline (.bytes 2), .selread (.bytes 1), .selread (.bytes 1)] a ∧
      a.called = [(some [0x61], 0), (some [], 0)] ∧
      Reads (fun _ => true) (suioOf (lineStream newline [[0x61, 0x0d], []])).1
        (suioOf (lineStream newline [[0x61, 0x0d], []])).2 [[0x61, 0x0d], []] a := by
  obtain ⟨a, ha, hcalled⟩ := Option.map_eq_some_iff.mp (show
    (List.foldlM (fun a e => if Possible a e then step (fun _ => true) a e else none)
      (new (fun _ => 0) 3 (lineStream newline [[0x61, 0x0d], []]))
      [.readline (.bytes 2), .selread (.bytes 1), .selread (.bytes 1)]).map Aios.called =
        some [(some [0x61], 0), (some [], 0)] by decide +kernel)
  have hrun := Run.of_checked ha
  refine ⟨a, hrun, hcalled, ?_⟩
  exact (readline_iff (by decide) (by decide) (holds_suioOf _)).1.mpr (by decide) _ _ _ _ hrun

/-- The line that is a carriage return alone is empty for `suio_getline`, and not here. -/
theorem readline_carriage_return :
    ∃ a, Run (step fun _ => true) Possible
        (new (fun _ => 0) 3 (lineStream newline [[carriageReturn]]))
        [.readline (.bytes 1), .selread (.bytes 1)] a ∧
      a.called = [(some [carriageReturn], 0)] ∧
      (suioOf (lineStream newline [[carriageReturn]])).2.getlines
        (suioOf (lineStream newline [[carriageReturn]])).1 1 = some [some []] ∧
      ¬ Reads (fun _ => true) (suioOf (lineStream newline [[carriageReturn]])).1
        (suioOf (lineStream newline [[carriageReturn]])).2 [[carriageReturn]] a := by
  obtain ⟨a, ha, hcalled⟩ := Option.map_eq_some_iff.mp (show
    (List.foldlM (fun a e => if Possible a e then step (fun _ => true) a e else none)
      (new (fun _ => 0) 3 (lineStream newline [[carriageReturn]]))
      [.readline (.bytes 1), .selread (.bytes 1)]).map Aios.called =
        some [(some [carriageReturn], 0)] by decide +kernel)
  refine ⟨a, Run.of_checked ha, hcalled, by decide +kernel, ?_⟩
  rintro ⟨⟨hlines, -⟩, -⟩
  rw [hcalled] at hlines
  revert hlines
  decide

end Sfslite.Async.Aios
