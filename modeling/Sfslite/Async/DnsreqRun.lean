import Sfslite.Async.Dnsreq

/-!
What a `dnsreq` keeps to in every run, as long as nothing ends it that the code behind what runs
still has to do with it.
-/

namespace Sfslite.Async.Dnsreq

open Dnsparse (Name strcasecmp)

/-- Nothing that goes on later uses the request, but for its constructor. -/
def Unused (s : Dnsreq) : Prop := ∀ f ∈ s.stack, f = .ctor

instance (s : Dnsreq) : Decidable s.Unused := inferInstanceAs (Decidable (∀ f ∈ s.stack, f = .ctor))

/-- The request is not ended while something that goes on later uses it, or `delaycb` does. -/
def Meets (s : Dnsreq) : Event → Prop
  | .cancel => s.stack = [] ∧ s.delays = 0
  | .failreq => s.Unused
  | .restart x => x = .inval → s.Unused
  | .resend x => x = .inval → s.Unused
  | .timer late x => x = .inval → ¬ (late = true ∧ s.name ≠ [] ∧ maxsend - 1 ≤ s.qno)
  | _ => True

instance (s : Dnsreq) (e : Event) : Decidable (s.Meets e) :=
  match e with
  | .cancel => inferInstanceAs (Decidable (s.stack = [] ∧ s.delays = 0))
  | .failreq => inferInstanceAs (Decidable s.Unused)
  | .restart x => inferInstanceAs (Decidable (x = .inval → s.Unused))
  | .resend x => inferInstanceAs (Decidable (x = .inval → s.Unused))
  | .timer late x => inferInstanceAs (Decidable
      (x = .inval → ¬ (late = true ∧ s.name ≠ [] ∧ maxsend - 1 ≤ s.qno)))
  | .answer _ _ => .isTrue trivial
  | .delayed => .isTrue trivial
  | .loop => .isTrue trivial
  | .ret => .isTrue trivial

def Awaited (s : Dnsreq) : Prop := s.freed = false ∧ s.calls = [] ∧ s.delays = 0

/-- The callback runs once at most, and not for a request that was cancelled. The suffixes are tried
in their order. The request is in the table while an answer is awaited, and then until the callback
that it is for has returned. It goes on as long as it is there, and with its end its callback has
run, if it was not cancelled; then it is not used again. -/
structure Kept (s : Dnsreq) : Prop where
  once : s.calls.length ≤ 1
  cancelled : s.cancelled = true → s.calls = []
  suffixes : s.tried = List.range s.tried.length
  awaited : s.Awaited → s.intab = true
  table : s.intab = true → s.Awaited ∨ s.freed = false ∧ s.delays = 0 ∧ .readreply ∈ s.stack
  goesOn : s.freed = false → ∃ e s', e ≠ .cancel ∧ s.Meets e ∧ s.step e = .ok s'
  called : s.freed = true → s.cancelled = false → s.calls.length = 1
  sound : ∀ e, s.Meets e → s.step e = .error .disabled ∨ ∃ s', s.step e = .ok s'
  quiet : s.freed = true → ∀ e, s.step e = .error .disabled

/-- In the table, and in the queue as long as the request is sent from there. -/
structure In (s : Dnsreq) : Prop where
  intable : s.intable = true
  intab : s.intab = true
  queued : s.linked = true ↔ s.usetcp = false ∧ s.qno < maxsend

structure Out (s : Dnsreq) : Prop where
  intable : s.intable = false
  intab : s.intab = false
  linked : s.linked = false

/-- Taken out of the lists. -/
def out (s : Dnsreq) : Dnsreq := { s with intable := false, intab := false, linked := false }

variable {s s' : Dnsreq}

theorem Out.out_eq (h : s.Out) : s.out = s := by
  obtain ⟨hintable, hintab, hlinked⟩ := h
  cases s
  simp only at hintable hintab hlinked
  subst hintable hintab hlinked
  rfl

theorem reqtoqRemove_eq (h : s.linked = true ↔ s.usetcp = false ∧ s.qno < maxsend) :
    s.reqtoqRemove = .ok { s with linked := false } := by
  rw [reqtoqRemove]
  by_cases hqueued : ¬ s.usetcp = true ∧ s.qno < maxsend
  · have hlinked : s.linked = true := h.mpr (by simpa using hqueued)
    rw [if_pos hqueued, if_pos hlinked]
  · have hlinked : s.linked = false := by
      rw [← Bool.not_eq_true, h]
      simpa using hqueued
    rw [if_neg hqueued, ← hlinked]

theorem remove_eq (h : s.In ∨ s.Out) : s.remove = .ok s.out := by
  rcases h with h | h
  · rw [remove, if_pos h.intable, reqtabRemove, if_pos h.intab]
    exact reqtoqRemove_eq (s := { s with intable := false, intab := false }) h.queued
  · rw [remove, if_neg (by simp [h.intable]), h.out_eq]

theorem delete_eq (hfreed : s.freed = false) (h : s.In ∨ s.Out) :
    s.delete = .ok { s.out with freed := true } := by
  rw [delete, if_neg (by simp [hfreed]), remove_eq h]
  rfl

/-- What goes on later with a request that waits, or whose constructor has not ended. -/
inductive Waits : Bool → List ReqFrame → Prop
  | nil : Waits true []
  | ctor : Waits false [.ctor]
  | timeout : Waits true [.timeout]
  | loop {b : Bool} {fs : List ReqFrame} : Waits b fs → Waits b (.loop :: fs)

/-- The same, while the callback runs. -/
inductive Calls : List ReqFrame → Prop
  | readreply : Calls [.readreply]
  | loop {fs : List ReqFrame} : Calls fs → Calls (.loop :: fs)

def Searched (s : Dnsreq) : Prop :=
  s.tried = List.range s.tried.length ∧ (0 ≤ s.srchno → s.srchno = s.tried.length)

structure Alive (s : Dnsreq) : Prop where
  stack : Waits s.constructed s.stack
  searched : s.Searched
  calls : s.calls = []
  delays : s.delays = 0
  cancelled : s.cancelled = false
  freed : s.freed = false

inductive Good (s : Dnsreq) : Prop
  | waiting (hs : s.Alive) (hin : s.In) (hlinked : s.usetcp = false → s.linked = true)
  | failed (hout : s.Out) (hsearched : s.Searched) (herror : s.error ≠ 0)
      (hstack : s.stack = if s.constructed then [] else [.ctor]) (hcalls : s.calls = [])
      (hdelays : s.delays = 1) (hcancelled : s.cancelled = false) (hfreed : s.freed = false)
  | calling (hstack : Calls s.stack) (hlists : s.In ∨ s.Out ∧ s.stack = [.readreply])
      (hsearched : s.Searched) (hcalls : s.calls.length = 1) (hdelays : s.delays = 0)
      (hconstructed : s.constructed = true) (hcancelled : s.cancelled = false)
      (hfreed : s.freed = false)
  | ended (hout : s.Out) (hsearched : s.Searched) (hstack : s.stack = []) (hdelays : s.delays = 0)
      (hcalls : if s.cancelled then s.calls = [] else s.calls.length = 1) (hfreed : s.freed = true)

theorem Waits.unused {b : Bool} {fs : List ReqFrame} (h : Waits b fs)
    (hunused : ∀ f ∈ fs, f = .ctor) : fs = if b then [] else [.ctor] := by
  cases h with
  | nil => rfl
  | ctor => rfl
  | timeout => cases hunused .timeout (by simp)
  | loop h => cases hunused .loop (by simp)

theorem error_ne {err : ℕ} (herr : err ≠ 0) : (if s.error = 0 then err else s.error) ≠ 0 := by
  split_ifs with h
  · exact herr
  · exact h

theorem fail_spec {err : ℕ} (hs : s.Alive) (hin : s.In) (hunused : s.Unused) (herr : err ≠ 0) :
    ∃ s', s.fail err = .ok s' ∧ s'.Good := by
  have hstack := hs.stack.unused hunused
  have herror := error_ne (s := s) herr
  generalize herror' : (if s.error = 0 then err else s.error) = error' at herror
  cases hconstructed : s.constructed with
  | true =>
    rw [hconstructed, if_pos rfl] at hstack
    refine ⟨{ s with
      error := error', calls := s.calls ++ [error'], stack := .readreply :: s.stack }, ?_, ?_⟩
    · simp only [fail, herror', hconstructed, if_true, readreply, if_pos herror]
    · exact .calling (by rw [hstack]; exact .readreply)
        (Or.inl { hin with }) hs.searched (by simp [hs.calls]) hs.delays
        hconstructed hs.cancelled hs.freed
  | false =>
    have hin' : ({ s with error := error' } : Dnsreq).In := { hin with }
    refine ⟨{ s.out with error := error', delays := s.delays + 1 }, ?_, ?_⟩
    · rw [fail, herror', if_neg (by simp [hconstructed]), remove_eq (Or.inl hin')]
      rfl
    · refine .failed ⟨rfl, rfl, rfl⟩ hs.searched herror ?_ hs.calls ?_ hs.cancelled hs.freed
      · rw [hconstructed] at hstack
        simpa [out, hconstructed] using hstack
      · simp [hs.delays]

theorem sendreq_spec (x : Send) (hs : s.Alive) (hin : s.In)
    (hlinked : s.usetcp = false → s.linked = true) (hunused : x = .inval → s.Unused) :
    ∃ s', s.sendreq x = .ok s' ∧ s'.Good := by
  cases x with
  | nosock => exact ⟨s, rfl, .waiting hs hin hlinked⟩
  | inval => exact fail_spec hs hin (hunused rfl) (by decide)
  | sent name =>
    exact ⟨_, rfl, .waiting
      { hs with }
      { hin with } hlinked⟩

theorem xmit_spec (x : Send) (hs : s.Alive) (hin : s.In)
    (hlinked : s.usetcp = false → s.linked = true) (hunused : x = .inval → s.Unused) :
    ∃ s', s.xmit x = .ok s' ∧ s'.Good :=
  sendreq_spec (s := { s with error := 0 }) x
    { hs with }
    { hin with } hlinked hunused

theorem insert_spec {qn : ℕ} (x : Send) (hs : s.Alive) (hintable : s.intable = true)
    (hintab : s.intab = true) (hlinked : s.linked = false) (husetcp : s.usetcp = false)
    (hqn : qn < maxsend) (hunused : x = .inval → s.Unused) :
    ∃ s', s.insert qn x = .ok s' ∧ s'.Good := by
  rw [insert, if_neg (by simp [hlinked])]
  exact xmit_spec (s := { s with qno := qn, linked := true }) x
    { hs with }
    ⟨hintable, hintab, iff_of_true rfl ⟨husetcp, hqn⟩⟩ (fun _ => rfl) hunused

theorem searched_search (dnsrch : List Name) (hs : s.Searched) : (s.search dnsrch).Searched := by
  by_cases hsrchno : 0 ≤ s.srchno
  · have hnext := hs.2 hsrchno
    rw [search, if_pos hsrchno]
    refine ⟨?_, fun _ => ?_⟩
    · simp only [List.length_append, List.length_singleton, List.range_succ, ← hs.1]
      rw [hnext]
      rfl
    · simp only [List.length_append, List.length_singleton]
      omega
  · rw [search, if_neg hsrchno]
    exact hs

theorem search_same (dnsrch : List Name) : ∃ srchno name tried, s.search dnsrch =
    { s with srchno := srchno, name := name, tried := tried } := by
  rw [search]
  split
  · exact ⟨_, _, _, rfl⟩
  · exact ⟨s.srchno, s.name, s.tried, rfl⟩

theorem begin_spec (a : Ask) (hs : s.Alive) (hintab : s.intab = false) (hlinked : s.linked = false)
    (hunused : s.Unused) : ∃ s', s.begin a = .ok s' ∧ s'.Good := by
  obtain ⟨srchno, name, tried, hsame⟩ := search_same (s := s) a.dnsrch
  have hsearched := searched_search a.dnsrch hs.searched
  have halive : ({ s with
      srchno := srchno, name := name, tried := tried, id := a.id, intable := true,
      intab := true } : Dnsreq).Alive := by
    rw [hsame] at hsearched
    exact { hs with searched := hsearched }
  have hstep : s.begin a = if s.usetcp then xmit { s with
        srchno := srchno, name := name, tried := tried, id := a.id, intable := true,
        intab := true } a.send
      else insert { s with
        srchno := srchno, name := name, tried := tried, id := a.id, intable := true,
        intab := true } 0 a.send := by
    rw [begin, hsame]
    simp only [reqtabInsert, hintab, Bool.false_eq_true, if_false]
    rfl
  rw [hstep]
  by_cases husetcp : s.usetcp = true
  · rw [if_pos husetcp]
    refine xmit_spec a.send halive ⟨rfl, rfl, ?_⟩ ?_ fun _ => hunused
    · exact iff_of_false (by simp [hlinked]) (by simp [husetcp])
    · simp [husetcp]
  · rw [if_neg husetcp]
    exact insert_spec a.send halive rfl rfl hlinked (by simpa using husetcp) (by decide)
      fun _ => hunused

theorem Alive.constructed (hs : s.Alive) (hstack : s.stack = []) : s.constructed = true := by
  have hwaits := hs.stack
  rw [hstack] at hwaits
  cases hb : s.constructed with
  | true => rfl
  | false =>
    rw [hb] at hwaits
    cases hwaits

theorem unused_nil (hstack : s.stack = []) : s.Unused := by
  simp [Unused, hstack]

theorem calling_of_waiting {err : ℕ} {e : ℕ} (hs : s.Alive) (hin : s.In) (hstack : s.stack = []) :
    Good { s with error := e, calls := s.calls ++ [err], stack := .readreply :: s.stack } :=
  .calling (by rw [hstack]; exact .readreply) (Or.inl { hin with })
    hs.searched (by simp [hs.calls]) hs.delays (hs.constructed hstack) hs.cancelled hs.freed

theorem start_again_spec (a : Ask) (hs : s.Alive) (hin : s.In) (hstack : s.stack = []) :
    ∃ s', s.start true a = .ok s' ∧ s'.Good := by
  rw [start, if_pos rfl]
  by_cases hlast : s.srchno < 0 ∨ srchlist a.dnsrch s.srchno = none
  · rw [if_pos hlast]
    exact fail_spec hs hin (unused_nil hstack) (by decide)
  · rw [if_neg hlast, reqtabRemove, if_pos hin.intab]
    have hqueue := reqtoqRemove_eq (s := { s with intab := false }) hin.queued
    obtain ⟨s', hs', hgood⟩ := begin_spec (s := { s with intab := false, linked := false }) a
      { hs with } rfl rfl
      (unused_nil hstack)
    refine ⟨s', ?_, hgood⟩
    rw [← hs']
    exact congrArg (fun r => r >>= fun s => begin s a) hqueue

theorem pktready_spec (p : Answer) (a : Ask) (hs : s.Alive) (hin : s.In) (hstack : s.stack = []) :
    ∃ s', s.pktready p a = .ok s' ∧ s'.Good := by
  rw [pktready]
  generalize (if p.error ≠ 0 ∧ s.error = 0 then p.error else s.error) = error
  have halive : ∀ e, ({ s with error := e } : Dnsreq).Alive := fun e =>
    { hs with }
  have hinto : ∀ e, ({ s with error := e } : Dnsreq).In := fun e =>
    { hin with }
  by_cases hnx : error = nxdomain
  · simp only [if_pos hnx]
    exact start_again_spec (s := { s with error := 0 }) a (halive 0) (hinto 0) hstack
  simp only [if_neg hnx]
  by_cases htc : error = 0 ∧ ¬ s.usetcp = true ∧ p.tc = true
  · rw [if_pos htc, reqtoqRemove_eq (s := { s with error := error }) hin.queued]
    exact xmit_spec (s := { s with error := error, linked := false, usetcp := true }) a.send
      { hs with }
      ⟨hin.intable, hin.intab, by simp⟩ (by simp) fun _ => unused_nil hstack
  · rw [if_neg htc]
    by_cases herror : error = 0
    · refine ⟨_, by simp [readreply, herror]; rfl, ?_⟩
      exact calling_of_waiting hs hin hstack
    · refine ⟨_, by simp [readreply, herror]; rfl, ?_⟩
      exact calling_of_waiting hs hin hstack

theorem expire_spec {late : Bool} {x : Send} (hs : s.Alive) (hin : s.In) (hstack : s.stack = [])
    (hlinked : s.linked = true) (hmeets : s.Meets (.timer late x)) :
    ∃ s', s.expire late x = .ok s' ∧ s'.Good := by
  obtain ⟨husetcp, hqno⟩ := hin.queued.mp hlinked
  have hexpire : s.expire late x = if s.qno < maxsend - 1 then
        insert { s with linked := false } (s.qno + 1) x
      else timeout { s with linked := false, qno := maxsend } late x := by
    rw [expire, reqtoqRemove_eq hin.queued]
    rfl
  rw [hexpire]
  by_cases hmore : s.qno < maxsend - 1
  · rw [if_pos hmore]
    exact insert_spec (s := { s with linked := false }) x
      { hs with } hin.intable hin.intab
      rfl husetcp (by omega) fun _ => unused_nil hstack
  rw [if_neg hmore, timeout]
  by_cases hgiveup : ¬ late = true ∨ s.name = []
  · simp only [if_pos hgiveup]
    exact fail_spec (s := { s with linked := false, qno := maxsend })
      { hs with }
      ⟨hin.intable, hin.intab, by simp⟩ (unused_nil hstack) (by decide)
  · simp only [if_neg hgiveup]
    obtain ⟨hlate, hname⟩ := not_or.mp hgiveup
    refine insert_spec (s := { s with
      linked := false, qno := maxsend, stack := .timeout :: s.stack }) x
      { hs with stack := ?_ } hin.intable hin.intab rfl
      husetcp (by decide) fun hx => absurd ⟨not_not.mp hlate, hname, by omega⟩ (hmeets hx)
    simp only [hs.constructed hstack, hstack]
    exact .timeout

def Steps (s : Dnsreq) (e : Event) : Prop :=
  s.step e = .error .disabled ∨ ∃ s', s.step e = .ok s' ∧ s'.Good

theorem Waits.ret {stack : List ReqFrame} (hs : s.Alive) (hin : s.In)
    (hlinked : s.usetcp = false → s.linked = true) (hstack : s.stack = stack)
    (hwaits : Waits s.constructed stack) : s.Steps .ret := by
  have hthere : ¬ s.freed = true := by simp [hs.freed]
  have hgood : ∀ b fs, Waits b fs → Good { s with constructed := b, stack := fs } :=
    fun b fs h => .waiting { hs with stack := h }
      { hin with } hlinked
  generalize hb : s.constructed = b at hwaits
  cases hwaits with
  | nil => exact Or.inl (by simp only [step, hstack])
  | ctor =>
    exact Or.inr ⟨{ s with constructed := true, stack := [] },
      by simp only [step, hstack, if_neg hthere], hgood true [] .nil⟩
  | timeout =>
    exact Or.inr ⟨{ s with stack := [] }, by simp only [step, hstack, if_neg hthere],
      hb ▸ hgood s.constructed [] (hb ▸ .nil)⟩
  | @loop _ fs h =>
    exact Or.inr ⟨{ s with stack := fs },
      by simp only [step, hstack, if_neg hthere, hin.intab, if_true],
      hgood s.constructed fs (hb ▸ h)⟩

variable {e : Event}

theorem waiting_step (hs : s.Alive) (hin : s.In) (hlinked : s.usetcp = false → s.linked = true)
    (hmeets : s.Meets e) : s.Steps e := by
  cases e with
  | answer p a =>
    by_cases hready : s.stack = [] ∧ s.Answers p
    · rw [Steps, step, if_pos hready]
      exact Or.inr (pktready_spec p a hs hin hready.1)
    · exact Or.inl (by rw [step, if_neg hready])
  | timer late x =>
    by_cases hready : s.stack = [] ∧ s.linked = true
    · rw [Steps, step, if_pos hready]
      exact Or.inr (expire_spec hs hin hready.1 hready.2 hmeets)
    · exact Or.inl (by rw [step, if_neg hready])
  | delayed => exact Or.inl (by simp [step, hs.delays])
  | failreq =>
    rw [Steps, step, if_pos hin.intab]
    exact Or.inr (fail_spec hs hin hmeets (by decide))
  | restart x =>
    by_cases hready : s.intab = true ∧ s.usetcp = false
    · have hstep : s.step (.restart x) = insert { s with linked := false } 0 x := by
        rw [step, if_pos hready, reqtoqRemove_eq hin.queued]
        rfl
      rw [Steps, hstep]
      exact Or.inr (insert_spec (s := { s with linked := false }) x
        { hs with } hin.intable
        hin.intab rfl hready.2 (by decide) hmeets)
    · exact Or.inl (by rw [step, if_neg hready])
  | resend x =>
    by_cases hready : s.intab = true ∧ s.usetcp = true
    · rw [Steps, step, if_pos hready]
      exact Or.inr (sendreq_spec x hs hin hlinked hmeets)
    · exact Or.inl (by rw [step, if_neg hready])
  | loop =>
    refine Or.inr ⟨{ s with stack := .loop :: s.stack }, by rw [step, if_pos hin.intab], ?_⟩
    exact .waiting { hs with stack := .loop hs.stack }
      { hin with } hlinked
  | cancel =>
    have hready : .ctor ∉ s.stack ∧ s.cancelled = false ∧
        (s.calls = [] ∨ .readreply ∈ s.stack) :=
      ⟨by simp [hmeets.1], hs.cancelled, Or.inl hs.calls⟩
    rw [Steps, step, if_pos hready, delete_eq (s := { s with cancelled := true }) hs.freed
      (Or.inl { hin with })]
    exact Or.inr ⟨_, rfl, .ended ⟨rfl, rfl, rfl⟩ hs.searched hmeets.1 hs.delays hs.calls rfl⟩
  | ret => exact Waits.ret hs hin hlinked rfl hs.stack

theorem failed_step (hout : s.Out) (hsearched : s.Searched) (herror : s.error ≠ 0)
    (hstack : s.stack = if s.constructed then [] else [.ctor]) (hcalls : s.calls = [])
    (hdelays : s.delays = 1) (hcancelled : s.cancelled = false) (hfreed : s.freed = false)
    (hmeets : s.Meets e) : s.Steps e := by
  have hthere : ¬ s.freed = true := by simp [hfreed]
  cases e with
  | answer p a => exact Or.inl (by simp [step, Answers, hout.intab])
  | timer late x => exact Or.inl (by simp [step, hout.linked])
  | failreq => exact Or.inl (by simp [step, hout.intab])
  | restart x => exact Or.inl (by simp [step, hout.intab])
  | resend x => exact Or.inl (by simp [step, hout.intab])
  | loop => exact Or.inl (by simp [step, hout.intab])
  | cancel =>
    have hzero := hmeets.2
    rw [hdelays] at hzero
    cases hzero
  | delayed =>
    cases hconstructed : s.constructed with
    | false =>
      rw [hconstructed] at hstack
      exact Or.inl (by simp [step, hstack])
    | true =>
      rw [hconstructed, if_pos rfl] at hstack
      refine Or.inr ⟨{ s with
        delays := 0, calls := s.calls ++ [s.error], stack := .readreply :: s.stack }, ?_, ?_⟩
      · simp [step, hstack, hdelays, hfreed, readreply, herror]
      · exact .calling (by rw [hstack]; exact .readreply)
          (Or.inr ⟨{ hout with }, by rw [hstack]⟩) hsearched
          (by simp [hcalls]) rfl hconstructed hcancelled hfreed
  | ret =>
    cases hconstructed : s.constructed with
    | true =>
      rw [hconstructed, if_pos rfl] at hstack
      exact Or.inl (by simp only [step, hstack])
    | false =>
      rw [hconstructed] at hstack
      exact Or.inr ⟨{ s with constructed := true, stack := [] },
        by simp [step, hstack, hfreed], .failed { hout with }
          hsearched herror rfl hcalls hdelays hcancelled hfreed⟩

theorem Calls.readreply_mem {fs : List ReqFrame} (h : Calls fs) : .readreply ∈ fs := by
  induction h with
  | readreply => exact List.mem_singleton_self _
  | loop _ ih => exact List.mem_cons_of_mem _ ih

theorem calling_step (hstack : Calls s.stack) (hlists : s.In ∨ s.Out ∧ s.stack = [.readreply])
    (hsearched : s.Searched) (hcalls : s.calls.length = 1) (hdelays : s.delays = 0)
    (hconstructed : s.constructed = true) (hcancelled : s.cancelled = false)
    (hfreed : s.freed = false) (hmeets : s.Meets e) : s.Steps e := by
  have hmem := hstack.readreply_mem
  have hne : s.stack ≠ [] := List.ne_nil_of_mem hmem
  have hused : ¬ s.Unused := by
    intro hunused
    cases hunused .readreply hmem
  have hlists' : s.In ∨ s.Out := hlists.imp (fun h => h) And.left
  have hin : s.intab = true → s.In := by
    intro hintab
    rcases hlists' with hin | hout
    · exact hin
    · rw [hout.intab] at hintab
      cases hintab
  have hsent : ∀ name q, s.In → (q < maxsend ∧ s.usetcp = false) →
      Good { s with error := 0, linked := true, qno := q, name := name } := fun name q hin hq =>
    .calling hstack (Or.inl ⟨hin.intable, hin.intab, iff_of_true rfl ⟨hq.2, hq.1⟩⟩) hsearched hcalls
      hdelays hconstructed hcancelled hfreed
  cases e with
  | answer p a => exact Or.inl (by simp [step, hne])
  | timer late x => exact Or.inl (by simp [step, hne])
  | delayed => exact Or.inl (by simp [step, hne])
  | failreq => exact absurd hmeets hused
  | cancel => exact absurd hmeets.1 hne
  | restart x =>
    by_cases hready : s.intab = true ∧ s.usetcp = false
    · have hstep : s.step (.restart x) = insert { s with linked := false } 0 x := by
        rw [step, if_pos hready, reqtoqRemove_eq (hin hready.1).queued]
        rfl
      rw [Steps, hstep]
      cases x with
      | inval => exact absurd (hmeets rfl) hused
      | nosock =>
        exact Or.inr ⟨_, rfl, hsent s.name 0 (hin hready.1) ⟨by decide, hready.2⟩⟩
      | sent name =>
        exact Or.inr ⟨_, rfl, hsent name 0 (hin hready.1) ⟨by decide, hready.2⟩⟩
    · exact Or.inl (by rw [step, if_neg hready])
  | resend x =>
    by_cases hready : s.intab = true ∧ s.usetcp = true
    · rw [Steps, step, if_pos hready]
      cases x with
      | inval => exact absurd (hmeets rfl) hused
      | nosock =>
        exact Or.inr ⟨s, rfl, .calling hstack hlists hsearched hcalls hdelays hconstructed
          hcancelled hfreed⟩
      | sent name =>
        have hin' := hin hready.1
        exact Or.inr ⟨{ s with name := name }, rfl, .calling hstack
          (Or.inl { hin' with }) hsearched hcalls hdelays hconstructed
          hcancelled hfreed⟩
    · exact Or.inl (by rw [step, if_neg hready])
  | loop =>
    by_cases hintab : s.intab = true
    · have hin' := hin hintab
      exact Or.inr ⟨{ s with stack := .loop :: s.stack }, by rw [step, if_pos hintab],
        .calling (.loop hstack) (Or.inl { hin' with }) hsearched hcalls
          hdelays hconstructed hcancelled hfreed⟩
    · exact Or.inl (by rw [step, if_neg hintab])
  | ret =>
    generalize hfs : s.stack = fs at hstack
    cases hstack with
    | readreply =>
      have hstep : s.step .ret = .ok { s.out with stack := [], freed := true } := by
        simp only [step, hfs]
        refine delete_eq (s := { s with stack := [] }) hfreed ?_
        exact hlists'.imp (fun h => { h with })
          fun h => { h with }
      refine Or.inr ⟨_, hstep, .ended ⟨rfl, rfl, rfl⟩ hsearched rfl hdelays ?_ rfl⟩
      rw [if_neg (by simp [out, hcancelled])]
      exact hcalls
    | @loop fs h =>
      have hin' : s.In := by
        rcases hlists with hin | ⟨-, heq⟩
        · exact hin
        · rw [hfs] at heq
          cases heq
      exact Or.inr ⟨{ s with stack := fs }, by simp [step, hfs, hfreed, hin'.intab],
        .calling h (Or.inl { hin' with }) hsearched hcalls hdelays
          hconstructed hcancelled hfreed⟩

theorem over_disabled (hout : s.Out) (hstack : s.stack = []) (hdelays : s.delays = 0)
    (hcalls : if s.cancelled then s.calls = [] else s.calls.length = 1) (e : Event) :
    s.step e = .error .disabled := by
  cases e with
  | answer p a => simp [step, Answers, hout.intab]
  | timer late x => simp [step, hout.linked]
  | delayed => simp [step, hdelays]
  | failreq => simp [step, hout.intab]
  | restart x => simp [step, hout.intab]
  | resend x => simp [step, hout.intab]
  | loop => simp [step, hout.intab]
  | ret => simp only [step, hstack]
  | cancel =>
    rw [step, if_neg]
    rintro ⟨-, hcancelled, hnil | hmem⟩
    · rw [if_neg (by simp [hcancelled]), hnil] at hcalls
      cases hcalls
    · rw [hstack] at hmem
      cases hmem

theorem step_spec (h : s.Good) (hmeets : s.Meets e) : s.Steps e := by
  cases h with
  | waiting hs hin hlinked => exact waiting_step hs hin hlinked hmeets
  | failed hout hsearched herror hstack hcalls hdelays hcancelled hfreed =>
    exact failed_step hout hsearched herror hstack hcalls hdelays hcancelled hfreed hmeets
  | calling hstack hlists hsearched hcalls hdelays hconstructed hcancelled hfreed =>
    exact calling_step hstack hlists hsearched hcalls hdelays hconstructed hcancelled hfreed
      hmeets
  | ended hout hsearched hstack hdelays hcalls hfreed =>
    exact Or.inl (over_disabled hout hstack hdelays hcalls e)

theorem delete_ne_disabled (s : Dnsreq) : s.delete ≠ .error .disabled := by
  have hqueue : ∀ s : Dnsreq, s.reqtoqRemove ≠ .error .disabled := by
    intro s
    rw [reqtoqRemove]
    split_ifs <;> simp
  have hremove : s.remove ≠ .error .disabled := by
    rw [remove]
    split_ifs
    · by_cases hintab : s.intab = true
      · rw [reqtabRemove, if_pos hintab]
        exact hqueue _
      · rw [reqtabRemove, if_neg hintab]
        rintro ⟨⟩
    · simp
  rw [delete]
  split_ifs
  · simp
  · cases hs' : s.remove with
    | ok s' => rintro ⟨⟩
    | error x =>
      rw [hs'] at hremove
      exact hremove

theorem ret_goesOn (h : s.Good) (hstack : s.stack ≠ []) :
    ∃ e s', e ≠ .cancel ∧ s.Meets e ∧ s.step e = .ok s' := by
  rcases step_spec h (e := .ret) trivial with hstop | ⟨s', hs', -⟩
  · exfalso
    cases hfs : s.stack with
    | nil => exact hstack hfs
    | cons f fs =>
      cases f with
      | ctor =>
        simp only [step, hfs] at hstop
        split_ifs at hstop
        cases hstop
      | timeout =>
        simp only [step, hfs] at hstop
        split_ifs at hstop
        cases hstop
      | readreply =>
        simp only [step, hfs] at hstop
        exact delete_ne_disabled _ hstop
      | loop =>
        simp only [step, hfs] at hstop
        split_ifs at hstop <;> cases hstop
  · exact ⟨.ret, s', by simp, trivial, hs'⟩

theorem waiting_goesOn (hs : s.Alive) (hin : s.In) (hlinked : s.usetcp = false → s.linked = true)
    (hstack : s.stack = []) : ∃ e s', e ≠ .cancel ∧ s.Meets e ∧ s.step e = .ok s' := by
  cases husetcp : s.usetcp with
  | false =>
    have hmeets : s.Meets (.timer false .nosock) := by simp [Meets]
    obtain ⟨s', hs', -⟩ := expire_spec hs hin hstack (hlinked husetcp) hmeets
    exact ⟨.timer false .nosock, s', by simp, hmeets,
      by rw [step, if_pos ⟨hstack, hlinked husetcp⟩, hs']⟩
  | true =>
    obtain ⟨s', hs', -⟩ := pktready_spec ⟨true, s.id, s.type, s.name, 0, false, 0⟩
      ⟨0, [], .nosock⟩ hs hin hstack
    have hself : ∀ n : Name, strcasecmp n n = 0 := by
      intro n
      induction n with
      | nil => rfl
      | cons b n ih => rw [strcasecmp, if_pos rfl, ih]
    exact ⟨.answer ⟨true, s.id, s.type, s.name, 0, false, 0⟩ ⟨0, [], .nosock⟩, s', by simp,
      trivial, by rw [step, if_pos ⟨hstack, hin.intab, rfl, husetcp, rfl, hself _⟩, hs']⟩

theorem Good.kept (h : s.Good) : s.Kept := by
  have hsound : ∀ e, s.Meets e → s.step e = .error .disabled ∨ ∃ s', s.step e = .ok s' := by
    intro e hmeets
    rcases step_spec h hmeets with hstop | ⟨s', hs', -⟩
    · exact Or.inl hstop
    · exact Or.inr ⟨s', hs'⟩
  have hgoesOn : (s.stack = [] → s.freed = false →
      ∃ e s', e ≠ .cancel ∧ s.Meets e ∧ s.step e = .ok s') →
      s.freed = false → ∃ e s', e ≠ .cancel ∧ s.Meets e ∧ s.step e = .ok s' := by
    intro hnil hfreed
    by_cases hstack : s.stack = []
    · exact hnil hstack hfreed
    · exact ret_goesOn h hstack
  cases h with
  | waiting hs hin hlinked =>
    refine ⟨by simp [hs.calls], by simp [hs.cancelled], hs.searched.1, fun _ => hin.intab, ?_,
      hgoesOn fun hstack _ => waiting_goesOn hs hin hlinked hstack, by simp [hs.freed], hsound,
      by simp [hs.freed]⟩
    exact fun _ => Or.inl ⟨hs.freed, hs.calls, hs.delays⟩
  | failed hout hsearched herror hstack hcalls hdelays hcancelled hfreed =>
    refine ⟨by simp [hcalls], by simp [hcancelled], hsearched.1, ?_, by simp [hout.intab],
      hgoesOn ?_, by simp [hfreed], hsound, by simp [hfreed]⟩
    · rintro ⟨-, -, hzero⟩
      rw [hdelays] at hzero
      cases hzero
    · intro hnil _
      refine ⟨.delayed, { s with
        delays := 0, calls := s.calls ++ [s.error], stack := .readreply :: s.stack }, by simp,
        trivial, ?_⟩
      simp [step, hnil, hdelays, hfreed, readreply, herror]
  | calling hstack hlists hsearched hcalls hdelays hconstructed hcancelled hfreed =>
    refine ⟨by simp [hcalls], by simp [hcancelled], hsearched.1, ?_, ?_, hgoesOn ?_,
      by simp [hfreed], hsound, by simp [hfreed]⟩
    · rintro ⟨-, hnone, -⟩
      rw [hnone] at hcalls
      cases hcalls
    · exact fun _ => Or.inr ⟨hfreed, hdelays, hstack.readreply_mem⟩
    · intro hnil _
      exact absurd hnil (List.ne_nil_of_mem hstack.readreply_mem)
  | ended hout hsearched hstack hdelays hcalls hfreed =>
    refine ⟨?_, ?_, hsearched.1, ?_, by simp [hout.intab], by simp [hfreed], ?_, hsound,
      fun _ => over_disabled hout hstack hdelays hcalls⟩
    · split_ifs at hcalls
      · simp [hcalls]
      · exact hcalls.le
    · intro hcancelled
      rwa [if_pos hcancelled] at hcalls
    · rintro ⟨hthere, -, -⟩
      rw [hfreed] at hthere
      cases hthere
    · intro _ hcancelled
      rwa [if_neg (by simp [hcancelled])] at hcalls

theorem make_spec (n : Name) (type : BitVec 16) (search : Bool) (a : Ask) :
    ∃ s, make n type search a = .ok s ∧ s.Good := by
  rw [make, start, if_neg (by simp)]
  refine begin_spec a ⟨.ctor, ⟨rfl, ?_⟩, rfl, rfl, rfl, rfl⟩ rfl rfl ?_
  · simp only [new]
    split_ifs
    · simp
    · simp
  · simp [Unused, new]

def next (s : Dnsreq) (e : Event) : Option Dnsreq := (s.step e).toOption

/-- Every run whose steps the code is ready for. -/
theorem dnsreq_kept {n : Name} {type : BitVec 16} {search : Bool} {a : Ask} {s₀ : Dnsreq}
    (hmake : make n type search a = .ok s₀) {es : List Event} (hrun : Lib.Run next Meets s₀ es s) :
    s.Kept := by
  obtain ⟨s₁, hs₁, hgood⟩ := make_spec n type search a
  rw [hs₁] at hmake
  cases hmake
  refine Good.kept (hrun.invariant hgood ?_)
  intro a e b ha hmeets hb
  rcases step_spec ha hmeets with hstop | ⟨s', hs', hgood'⟩
  · rw [next, hstop] at hb
    cases hb
  · rw [next, hs'] at hb
    cases hb
    exact hgood'

/-- A name that is not there, with a suffix that is. -/
theorem dnsreq_kept_suffix :
    ∃ s₀ s, make [0x61] 1 true ⟨7, [[0x62]], .sent [0x61]⟩ = .ok s₀ ∧
      Lib.Run next Meets s₀ [.ret,
        .answer ⟨false, 7, 1, [0x61], nxdomain, false, 0⟩ ⟨8, [[0x62]], .sent [0x61, 0x2e, 0x62]⟩,
        .timer false (.sent [0x61, 0x2e, 0x62]),
        .answer ⟨false, 8, 1, [0x61, 0x2e, 0x62], 0, false, 0⟩ ⟨0, [], .nosock⟩, .ret] s ∧
      s.Kept := by
  obtain ⟨s₀, s, hs₀, hs⟩ : ∃ s₀ s, make [0x61] 1 true ⟨7, [[0x62]], .sent [0x61]⟩ = .ok s₀ ∧
      [.ret,
        .answer ⟨false, 7, 1, [0x61], nxdomain, false, 0⟩ ⟨8, [[0x62]], .sent [0x61, 0x2e, 0x62]⟩,
        .timer false (.sent [0x61, 0x2e, 0x62]),
        .answer ⟨false, 8, 1, [0x61, 0x2e, 0x62], 0, false, 0⟩ ⟨0, [], .nosock⟩, .ret].foldlM
        (fun s e => if Meets s e then next s e else none) s₀ = some s := ⟨_, _, rfl, rfl⟩
  have hrun := Lib.Run.of_checked hs
  exact ⟨s₀, s, hs₀, hrun, dnsreq_kept hs₀ hrun⟩

/-- The constructor fails, and the request is cancelled before `delaycb` calls `readreply`: it is
called for a request that was deleted. -/
theorem cancel_leaves_readreply :
    ¬ ∀ (n : Name) (type : BitVec 16) (search : Bool) (a : Ask) (s₀ : Dnsreq) (es : List Event)
      (s : Dnsreq), make n type search a = .ok s₀ → es.foldlM next s₀ = some s → s.Kept := by
  intro hclaim
  obtain ⟨s₀, s, hs₀, hs, hfreed⟩ : ∃ s₀ s, make [0x61] 1 false ⟨7, [], .nosock⟩ = .ok s₀ ∧
      [.failreq, .ret, .cancel].foldlM next s₀ = some s ∧ s.step .delayed = .error .freed :=
    ⟨_, _, rfl, rfl, rfl⟩
  rcases (hclaim _ _ _ _ s₀ _ s hs₀ hs).sound .delayed trivial with hstop | ⟨s', hs'⟩
  · rw [hfreed] at hstop
    cases hstop
  · rw [hfreed] at hs'
    cases hs'

end Sfslite.Async.Dnsreq
