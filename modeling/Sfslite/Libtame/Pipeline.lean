import Mathlib.Algebra.Group.Nat.Defs
import Mathlib.Data.List.Perm.Basic
import Sfslite.Lib.Run

/-!
`pipeliner_t` of `pipeline.T`: a window over operations that complete in any order. The operations
and `keep_going` are those of a derived class; a completion may come while `pipeline_op` is still
running, and one that `run` waits for lets it go on before the trigger returns.
-/

namespace Sfslite.Libtame.Pipeline

open Sfslite.Lib (Run)

/-- Where `run` is: it was not called yet, it waits in `launch`, it is in `pipeline_op`, it waits
for the rest, or it has triggered its event. -/
inductive Phase where
  | idle
  | waiting
  | inOp
  | flushing
  | finished
deriving DecidableEq, Repr

/-- `pipeliner_t`, with the events on its rendezvous and the number of values that are pending
there, and what is remembered: the operations that were started and completed, and how often the
event of `run` was triggered. -/
structure Pipeliner where
  i : ℕ
  cancelled : Bool
  out : List ℕ
  pending : ℕ
  phase : Phase
  started : List ℕ
  completed : List ℕ
  done : ℕ
deriving DecidableEq, Repr

/-- `n_triggers_left`, a `u_int`. -/
def nTriggersLeft (nEvents nPending : ℕ) : ℕ := (nEvents + nPending) % 2 ^ 32

/-- `wait_n`, as far as it goes without blocking: the values that stay pending, and whether it
comes to its end. -/
def waitN (nEvents n : ℕ) : ℕ → ℕ × Bool
  | 0 => (0, nTriggersLeft nEvents 0 ≤ n)
  | p + 1 => if nTriggersLeft nEvents (p + 1) ≤ n then (p + 1, true) else waitN nEvents n p

namespace Pipeliner

def init : Pipeliner := ⟨0, false, [], 0, .idle, [], [], 0⟩

/-- `pipeline_op (i, mkevent (_rv))`, to where it first gives way. -/
def start (s : Pipeliner) : Pipeliner :=
  { s with phase := .inOp, out := s.out ++ [s.i], started := s.started ++ [s.i] }

/-- `launch`, from its `wait_n` on. -/
def launch (s : Pipeliner) (w : ℕ) : Pipeliner :=
  let r := waitN s.out.length (w - 1) s.pending
  let s := { s with pending := r.1 }
  if r.2 then s.start else { s with phase := .waiting }

/-- The end of `run`, from its `wait_n` on. -/
def flush (s : Pipeliner) : Pipeliner :=
  let r := waitN s.out.length 0 s.pending
  let s := { s with pending := r.1 }
  if r.2 then { s with phase := .finished, done := s.done + 1 } else { s with phase := .flushing }

/-- The head of the loop of `run`, with what `keep_going` says. -/
def next (s : Pipeliner) (w : ℕ) (keepGoing : Bool) : Pipeliner :=
  if keepGoing && !s.cancelled then s.launch w else s.flush

/-- The event of an operation is triggered. A `twait` that waits for it takes its value. -/
def complete (s : Pipeliner) (w j : ℕ) : Pipeliner :=
  let s := { s with out := s.out.erase j, completed := s.completed ++ [j] }
  match s.phase with
  | .waiting => s.launch w
  | .flushing => s.flush
  | _ => { s with pending := s.pending + 1 }

def cancel (s : Pipeliner) : Pipeliner := { s with cancelled := true }

end Pipeliner

/-- What happens to a pipeliner, with what `keep_going` says next. -/
inductive Act where
  | run (keepGoing : Bool)
  | opReturns (keepGoing : Bool)
  | complete (j : ℕ)
  | cancel
deriving DecidableEq, Repr

/-- `none` where this cannot happen. -/
def step (w : ℕ) (s : Pipeliner) : Act → Option Pipeliner
  | .run keepGoing => if s.phase = .idle then some (s.next w keepGoing) else none
  | .opReturns keepGoing =>
    if s.phase = .inOp then some ({ s with i := s.i + 1 }.next w keepGoing) else none
  | .complete j => if j ∈ s.out then some (s.complete w j) else none
  | .cancel => some s.cancel

/-- `cancel` is not called while `launch` waits, and the triggers that are left can be counted
when another operation is started. -/
def Timely (w : ℕ) (s : Pipeliner) : Act → Prop
  | .cancel => s.phase ≠ .waiting
  | .complete _ => True
  | _ => w < 2 ^ 32 ∨ s.out.length + s.pending + 1 < 2 ^ 32

instance (w : ℕ) (s : Pipeliner) : (a : Act) → Decidable (Timely w s a)
  | .cancel => inferInstanceAs (Decidable (s.phase ≠ .waiting))
  | .complete _ => .isTrue trivial
  | .run _ | .opReturns _ =>
    inferInstanceAs (Decidable (w < 2 ^ 32 ∨ s.out.length + s.pending + 1 < 2 ^ 32))

/-- What the phase says about the operations. -/
def Phase.Fits (w : ℕ) (s : Pipeliner) : Phase → Prop
  | .idle => s.started.length = s.i ∧ s.done = 0
  | .waiting => s.started.length = s.i ∧ s.done = 0 ∧ s.cancelled = false ∧ s.pending = 0 ∧
      s.out.length = w
  | .inOp => s.started.length = s.i + 1 ∧ s.done = 0
  | .flushing => s.done = 0 ∧ s.pending = 0 ∧ s.out ≠ []
  | .finished => s.done = 1 ∧ s.out = []

/-- The operations are started in order, and each completes once. -/
structure Books (w : ℕ) (s : Pipeliner) : Prop where
  order : s.started = List.range s.started.length
  perm : s.started.Perm (s.completed ++ s.out)
  window : s.out.length + s.pending ≤ w
  size : s.out.length + s.pending < 2 ^ 32

structure Inv (w : ℕ) (s : Pipeliner) : Prop extends Books w s where
  phase : s.phase.Fits w s

variable {w : ℕ} {s s' : Pipeliner}

theorem nTriggersLeft_eq {a b : ℕ} (h : a + b < 2 ^ 32) : nTriggersLeft a b = a + b :=
  Nat.mod_eq_of_lt h

theorem waitN_spec {a n : ℕ} (p : ℕ) (h : a + p < 2 ^ 32) :
    (waitN a n p).1 ≤ p ∧ ((waitN a n p).2 = true → a + (waitN a n p).1 ≤ n) ∧
      ((waitN a n p).2 = false → (waitN a n p).1 = 0 ∧ n < a) := by
  induction p with
  | zero =>
    have heq := nTriggersLeft_eq h
    refine ⟨Nat.le_refl _, ?_, ?_⟩
    · intro hpass
      have hle : nTriggersLeft a 0 ≤ n := of_decide_eq_true hpass
      simp only [waitN]
      omega
    · intro hblock
      have hlt : ¬ nTriggersLeft a 0 ≤ n := of_decide_eq_false hblock
      exact ⟨rfl, by omega⟩
  | succ p ih =>
    have heq := nTriggersLeft_eq h
    obtain ⟨hle, hpass, hblock⟩ := ih (by omega)
    by_cases hfew : nTriggersLeft a (p + 1) ≤ n
    · rw [waitN, if_pos hfew]
      refine ⟨Nat.le_refl _, fun _ => by simp only; omega, ?_⟩
      intro hfalse
      cases hfalse
    · rw [waitN, if_neg hfew]
      exact ⟨by omega, hpass, hblock⟩

theorem Books.launch (h : Books w s) (hw : 1 ≤ w) (hlength : s.started.length = s.i)
    (hdone : s.done = 0) (hlive : s.cancelled = false)
    (hfits : w < 2 ^ 32 ∨ s.out.length + s.pending + 1 < 2 ^ 32) : Inv w (s.launch w) := by
  obtain ⟨hle, hpass, hblock⟩ := waitN_spec (n := w - 1) s.pending h.size
  have hwindow := h.window
  have hsize := h.size
  cases hr : (waitN s.out.length (w - 1) s.pending).2 with
  | true =>
    have hfew := hpass hr
    simp only [Pipeliner.launch, hr, if_true]
    refine ⟨⟨?_, ?_, ?_, ?_⟩, ?_, hdone⟩
    · simp only [Pipeliner.start, List.length_append, List.length_singleton, List.range_succ]
      rw [← h.order, hlength]
    · simp only [Pipeliner.start, ← List.append_assoc]
      exact h.perm.append_right _
    · simp only [Pipeliner.start, List.length_append, List.length_singleton]
      omega
    · simp only [Pipeliner.start, List.length_append, List.length_singleton]
      omega
    · simp only [Pipeliner.start, List.length_append, List.length_singleton, hlength]
  | false =>
    obtain ⟨hnone, hmany⟩ := hblock hr
    simp only [Pipeliner.launch, hr, Bool.false_eq_true, if_false]
    refine ⟨⟨h.order, h.perm, ?_, ?_⟩, hlength, hdone, hlive, hnone, ?_⟩
    · simp only
      omega
    · simp only
      omega
    · simp only
      omega

theorem Books.flush (h : Books w s) (hdone : s.done = 0) : Inv w s.flush := by
  obtain ⟨hle, hpass, hblock⟩ := waitN_spec (n := 0) s.pending h.size
  have hwindow := h.window
  have hsize := h.size
  cases hr : (waitN s.out.length 0 s.pending).2 with
  | true =>
    have hnone := hpass hr
    simp only [Pipeliner.flush, hr, if_true]
    refine ⟨⟨h.order, h.perm, ?_, ?_⟩, ?_, ?_⟩
    · simp only
      omega
    · simp only
      omega
    · simp only [hdone]
    · have hempty : s.out.length = 0 := by omega
      exact List.eq_nil_of_length_eq_zero hempty
  | false =>
    obtain ⟨hnone, hmany⟩ := hblock hr
    simp only [Pipeliner.flush, hr, Bool.false_eq_true, if_false]
    refine ⟨⟨h.order, h.perm, ?_, ?_⟩, hdone, hnone, ?_⟩
    · simp only
      omega
    · simp only
      omega
    · exact List.ne_nil_of_length_pos hmany

theorem Books.next (h : Books w s) (hw : 1 ≤ w) (hlength : s.started.length = s.i)
    (hdone : s.done = 0) (hfits : w < 2 ^ 32 ∨ s.out.length + s.pending + 1 < 2 ^ 32)
    (keepGoing : Bool) : Inv w (s.next w keepGoing) := by
  unfold Pipeliner.next
  by_cases hgo : (keepGoing && !s.cancelled) = true
  · rw [if_pos hgo]
    have hlive : s.cancelled = false := by
      rw [Bool.and_eq_true, Bool.not_eq_true'] at hgo
      exact hgo.2
    exact h.launch hw hlength hdone hlive hfits
  · rw [if_neg hgo]
    exact h.flush hdone

theorem Books.trigger (h : Books w s) {j : ℕ} (hj : j ∈ s.out) :
    Books w { s with out := s.out.erase j, completed := s.completed ++ [j] } ∧
      (s.out.erase j).length + 1 = s.out.length := by
  have hlength : (s.out.erase j).length + 1 = s.out.length := by
    have hpos := List.length_pos_of_mem hj
    rw [List.length_erase_of_mem hj]
    omega
  have hwindow := h.window
  have hsize := h.size
  refine ⟨⟨h.order, ?_, ?_, ?_⟩, hlength⟩
  · simp only [List.append_assoc, List.singleton_append]
    exact h.perm.trans ((List.perm_cons_erase hj).append_left _)
  · simp only
    omega
  · simp only
    omega

theorem Inv.complete (h : Inv w s) (hw : 1 ≤ w) {j : ℕ} (hj : j ∈ s.out) :
    Inv w (s.complete w j) := by
  obtain ⟨hbooks, hlength⟩ := h.toBooks.trigger hj
  have hwindow := h.window
  have hsize := h.size
  have hphase := h.phase
  unfold Pipeliner.complete
  cases hp : s.phase with
  | idle =>
    rw [hp] at hphase
    refine ⟨⟨h.order, hbooks.perm, ?_, ?_⟩, hphase⟩
    · simp only
      omega
    · simp only
      omega
  | waiting =>
    rw [hp] at hphase
    obtain ⟨hi, hdone, hlive, hnone, -⟩ := hphase
    refine hbooks.launch hw hi hdone hlive ?_
    simp only
    omega
  | inOp =>
    rw [hp] at hphase
    refine ⟨⟨h.order, hbooks.perm, ?_, ?_⟩, hphase⟩
    · simp only
      omega
    · simp only
      omega
  | flushing =>
    rw [hp] at hphase
    exact hbooks.flush hphase.1
  | finished =>
    rw [hp] at hphase
    rw [hphase.2] at hj
    cases hj

theorem Inv.cancel (h : Inv w s) (hnot : s.phase ≠ .waiting) : Inv w s.cancel := by
  refine ⟨{ h with }, ?_⟩
  have hphase := h.phase
  cases hp : s.phase with
  | waiting => exact absurd hp hnot
  | idle =>
    rw [hp] at hphase
    simp only [Pipeliner.cancel, hp]
    exact hphase
  | inOp =>
    rw [hp] at hphase
    simp only [Pipeliner.cancel, hp]
    exact hphase
  | flushing =>
    rw [hp] at hphase
    simp only [Pipeliner.cancel, hp]
    exact hphase
  | finished =>
    rw [hp] at hphase
    simp only [Pipeliner.cancel, hp]
    exact hphase

theorem Inv.kept (h : Inv w s) (hw : 1 ≤ w) {a : Act} (ht : Timely w s a)
    (hstep : step w s a = some s') : Inv w s' := by
  have hphase := h.phase
  cases a with
  | run keepGoing =>
    simp only [step] at hstep
    split_ifs at hstep with hp
    cases hstep
    rw [hp] at hphase
    exact h.toBooks.next hw hphase.1 hphase.2 ht keepGoing
  | opReturns keepGoing =>
    simp only [step] at hstep
    split_ifs at hstep with hp
    cases hstep
    rw [hp] at hphase
    exact Books.next (s := { s with i := s.i + 1 }) { h with } hw
      hphase.1 hphase.2 ht keepGoing
  | complete j =>
    simp only [step] at hstep
    split_ifs at hstep with hj
    cases hstep
    exact h.complete hw hj
  | cancel =>
    cases hstep
    exact h.cancel ht

theorem flush_started (s : Pipeliner) : s.flush.started = s.started := by
  unfold Pipeliner.flush
  simp only
  split_ifs <;> rfl

theorem Inv.started_of_cancelled (h : Inv w s) (hc : s.cancelled = true) {a : Act}
    (hstep : step w s a = some s') : s'.started = s.started := by
  have hnext : ∀ t : Pipeliner, t.cancelled = true → ∀ keepGoing,
      (t.next w keepGoing).started = t.started := by
    intro t ht keepGoing
    rw [Pipeliner.next, ht, Bool.not_true, Bool.and_false, if_neg Bool.false_ne_true]
    exact flush_started t
  cases a with
  | run keepGoing =>
    simp only [step] at hstep
    split_ifs at hstep
    cases hstep
    exact hnext s hc keepGoing
  | opReturns keepGoing =>
    simp only [step] at hstep
    split_ifs at hstep
    cases hstep
    exact hnext { s with i := s.i + 1 } hc keepGoing
  | complete j =>
    simp only [step] at hstep
    split_ifs at hstep
    cases hstep
    have hphase := h.phase
    unfold Pipeliner.complete
    cases hp : s.phase with
    | waiting =>
      rw [hp] at hphase
      rw [hphase.2.2.1] at hc
      cases hc
    | flushing => exact flush_started _
    | idle => rfl
    | inOp => rfl
    | finished => rfl
  | cancel =>
    cases hstep
    rfl

/-- In every run in which `cancel` is not called while `launch` waits, and the triggers that are
left can be counted, the operations are started in order and each once, within the window, and each
completes once. The event of `run` is triggered at most once, when all of them have completed.
Nothing is started after `cancel`. -/
theorem pipeliner_run (hw : 1 ≤ w) {as : List Act}
    (hrun : Run (step w) (Timely w) .init as s) :
    s.started = List.range s.started.length ∧ s.out.length ≤ w ∧
      s.started.Perm (s.completed ++ s.out) ∧
      s.done = (if s.phase = .finished then 1 else 0) ∧
      (s.phase = .finished → s.out = []) ∧
      (s.phase = .waiting ∨ s.phase = .flushing → s.out ≠ []) ∧
      (s.cancelled = true → ∀ a s', step w s a = some s' → s'.started = s.started) := by
  have h : Inv w s := by
    refine hrun.invariant ?_ fun a e b ha ht hstep => ha.kept hw ht hstep
    exact ⟨⟨rfl, .refl _, Nat.zero_le _, by decide⟩, rfl, rfl⟩
  have hphase := h.phase
  have hwindow := h.window
  refine ⟨h.order, by omega, h.perm, ?_, ?_, ?_, fun hc a s' hstep => ?_⟩
  · cases hp : s.phase with
    | finished =>
        rw [hp] at hphase
        exact hphase.1
    | idle =>
        rw [hp] at hphase
        exact hphase.2
    | inOp =>
        rw [hp] at hphase
        exact hphase.2
    | waiting =>
        rw [hp] at hphase
        exact hphase.2.1
    | flushing =>
        rw [hp] at hphase
        exact hphase.1
  · intro hp
    rw [hp] at hphase
    exact hphase.2
  · rintro (hp | hp)
    · rw [hp] at hphase
      obtain ⟨-, -, -, -, hfull⟩ := hphase
      exact List.ne_nil_of_length_pos (by omega)
    · rw [hp] at hphase
      exact hphase.2.2
  · exact h.started_of_cancelled hc hstep

/-- A window of one and three operations, of which the second one completes within its call. -/
theorem pipeliner_run_three :
    ∃ s : Pipeliner, s.phase = .finished ∧ s.completed = [0, 1, 2] ∧ s.done = 1 ∧
      s.started = List.range s.started.length := by
  have hex : (([.run true, .opReturns true, .complete 0, .complete 1, .opReturns true,
      .opReturns false, .complete 2].foldlM
        (fun s a => if Timely 1 s a then step 1 s a else none) Pipeliner.init).map
          fun s => (s.phase, s.completed, s.done)) = some (.finished, [0, 1, 2], 1) := by
    decide
  obtain ⟨s, hs, hout⟩ := Option.map_eq_some_iff.mp hex
  simp only [Prod.mk.injEq] at hout
  exact ⟨s, hout.1, hout.2.1, hout.2.2, (pipeliner_run (Nat.le_refl 1) (Run.of_checked hs)).1⟩

/-- `cancel` is called while `launch` waits for the only operation that fits: when that one
completes, the next one is started all the same. -/
theorem pipeliner_starts_cancelled : ¬ ∀ w as s, 1 ≤ w →
    Run (step w) (fun _ _ => True) .init as s →
      s.cancelled = true → ∀ a s', step w s a = some s' → s'.started = s.started := by
  intro h
  have hex : (([.run true, .opReturns true, .cancel].foldlM (step 1) Pipeliner.init).map
      fun s => (s.cancelled, s.started, (step 1 s (.complete 0)).map (·.started))) =
      some (true, [0], some [0, 1]) := by
    decide
  obtain ⟨s, hs, hout⟩ := Option.map_eq_some_iff.mp hex
  simp only [Prod.mk.injEq] at hout
  obtain ⟨hc, hstarted, hnext⟩ := hout
  obtain ⟨s', hs', hmore⟩ := Option.map_eq_some_iff.mp hnext
  have hsame := h 1 _ s (Nat.le_refl 1) (Run.of_foldlM hs) hc _ s' hs'
  rw [hmore, hstarted] at hsame
  cases hsame

end Sfslite.Libtame.Pipeline
