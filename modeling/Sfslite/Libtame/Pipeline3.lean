import Mathlib.Algebra.Group.Nat.Defs
import Sfslite.Lib.Run

/-!
`pipeline3::runner_t` of `pipeline3.T`, with a controller whose window and delay may be others each
time that it is asked. A trigger is the last thing in each function of the runner, so what a
callback does comes after the call that triggered it.
-/

namespace Sfslite.Libtame.Pipeline3

open Sfslite.Lib (Run)

inductive Kind where
  | takeoff
  | flush
deriving DecidableEq, Repr

/-- A call of `queue_for_takeoff` or `flush` that waits in its loop. -/
structure Waiter where
  id : ℕ
  kind : Kind
deriving DecidableEq, Repr

/-- `runner_t`, with the calls that wait, those whose delay runs, the flights, and what is
remembered: the calls that were woken, those that took off, and those that have returned. -/
structure Runner where
  nOut : ℕ
  i : ℕ
  ev : Option Waiter
  waiting : List Waiter
  delayed : List ℕ
  flights : List ℕ
  nextId : ℕ
  woken : List ℕ
  taken : List ℕ
  returned : List ℕ
deriving DecidableEq, Repr

namespace Runner

def init : Runner := ⟨0, 0, none, [], [], [], 0, [], [], []⟩

/-- `_ev = mkevent ()`: the event that was there is dropped. -/
def wait (r : Runner) (w : Waiter) : Runner :=
  { r with ev := some w, waiting := r.waiting ++ [w] }

def finish (r : Runner) (id : ℕ) : Runner := { r with returned := r.returned ++ [id] }

/-- `queue_for_takeoff` from the head of its loop. -/
def takeoff (r : Runner) (id window delay : ℕ) : Runner :=
  if window ≤ r.nOut then r.wait ⟨id, .takeoff⟩
  else
    let r := { r with nOut := (r.nOut + 1) % 2 ^ 64, taken := r.taken ++ [id] }
    if delay = 0 then r.finish id else { r with delayed := r.delayed ++ [id] }

/-- `flush` from the head of its loop. -/
def flush (r : Runner) (id : ℕ) : Runner :=
  if r.nOut ≠ 0 then r.wait ⟨id, .flush⟩ else r.finish id

/-- A call that was woken goes back to the head of its loop. -/
def resume (r : Runner) (w : Waiter) (window delay : ℕ) : Runner :=
  match w.kind with
  | .takeoff => r.takeoff w.id window delay
  | .flush => r.flush w.id

/-- `_mkev`, to where it waits for the flight to land. -/
def mkev (r : Runner) : Option Runner :=
  if r.nOut ≠ 0 then some { r with i := r.i + 1, flights := r.flights ++ [r.i] } else none

/-- The rest of `_mkev`, when the event of the flight is triggered. -/
def land (r : Runner) (i window delay : ℕ) : Runner :=
  let r := { r with nOut := (r.nOut + (2 ^ 64 - 1)) % 2 ^ 64, flights := r.flights.erase i }
  match r.ev with
  | none => r
  | some w =>
    { r with
      ev := none
      waiting := r.waiting.erase w
      woken := r.woken ++ [w.id] }.resume w window delay

def delayOver (r : Runner) (id : ℕ) : Runner :=
  { r with delayed := r.delayed.erase id }.finish id

end Runner

/-- Calls and events, with what the controller answers on the way. -/
inductive Event where
  | queueForTakeoff (window delay : ℕ)
  | flush
  | mkev
  | land (i window delay : ℕ)
  | delayOver (id : ℕ)
deriving DecidableEq, Repr

def step (r : Runner) : Event → Option Runner
  | .queueForTakeoff window delay =>
    some ({ r with nextId := r.nextId + 1 }.takeoff r.nextId window delay)
  | .flush => some ({ r with nextId := r.nextId + 1 }.flush r.nextId)
  | .mkev => r.mkev
  | .land i window delay => some (r.land i window delay)
  | .delayOver id => some (r.delayOver id)

/-- The window is a `size_t`, each take-off makes one flight, and a flight lands once. -/
def Allowed (r : Runner) : Event → Prop
  | .queueForTakeoff window _ => window < 2 ^ 64
  | .flush => True
  | .mkev => r.flights.length < r.nOut
  | .land i window _ => i ∈ r.flights ∧ window < 2 ^ 64
  | .delayOver id => id ∈ r.delayed

/-- No call has to wait while another one waits. -/
def OneWaits (r : Runner) : Event → Prop
  | .queueForTakeoff window _ => window ≤ r.nOut → r.waiting = []
  | .flush => r.nOut ≠ 0 → r.waiting = []
  | _ => True

instance (r : Runner) : (e : Event) → Decidable (Allowed r e)
  | .queueForTakeoff window _ => inferInstanceAs (Decidable (window < 2 ^ 64))
  | .flush => .isTrue trivial
  | .mkev => inferInstanceAs (Decidable (r.flights.length < r.nOut))
  | .land i window _ => inferInstanceAs (Decidable (i ∈ r.flights ∧ window < 2 ^ 64))
  | .delayOver id => inferInstanceAs (Decidable (id ∈ r.delayed))

instance (r : Runner) : (e : Event) → Decidable (OneWaits r e)
  | .queueForTakeoff window _ => inferInstanceAs (Decidable (window ≤ r.nOut → r.waiting = []))
  | .flush => inferInstanceAs (Decidable (r.nOut ≠ 0 → r.waiting = []))
  | .mkev | .land .. | .delayOver _ => .isTrue trivial

/-- Nobody who waits is forgotten: whichever flight lands next, and whatever the controller says
then, wakes him. -/
def Remembered (r : Runner) : Prop :=
  ∀ w ∈ r.waiting, ∀ i window delay, (r.land i window delay).woken = r.woken ++ [w.id]

/-- The window that a step asks the controller for. -/
def Event.asks : Event → Option ℕ
  | .queueForTakeoff window _ | .land _ window _ => some window
  | _ => none

variable {r r' : Runner}

@[simp] theorem takeoff_woken (r : Runner) (id window delay : ℕ) :
    (r.takeoff id window delay).woken = r.woken := by
  unfold Runner.takeoff
  split_ifs <;> rfl

@[simp] theorem flush_woken (r : Runner) (id : ℕ) : (r.flush id).woken = r.woken := by
  unfold Runner.flush
  split_ifs <;> rfl

@[simp] theorem resume_woken (r : Runner) (w : Waiter) (window delay : ℕ) :
    (r.resume w window delay).woken = r.woken := by
  cases hkind : w.kind <;> simp [Runner.resume, hkind]

theorem land_woken (r : Runner) (i window delay : ℕ) :
    (r.land i window delay).woken = r.woken ++ (r.ev.map Waiter.id).toList := by
  cases hev : r.ev <;> simp [Runner.land, hev]

theorem remembered_iff : Remembered r ↔ ∀ w ∈ r.waiting, r.ev.map Waiter.id = some w.id := by
  refine forall₂_congr fun w _ => ?_
  simp only [land_woken, List.append_cancel_left_eq, forall_const]
  cases r.ev <;> simp

/-- The event of the call that waits is in the slot, and every flight is counted. -/
structure Inv (r : Runner) : Prop where
  slot : r.waiting = r.ev.toList
  below : ∀ w ∈ r.waiting, w.id < r.nextId
  flights : r.flights.length ≤ r.nOut
  size : r.nOut < 2 ^ 64

theorem Inv.remembered (h : Inv r) : Remembered r := by
  rw [remembered_iff, h.slot]
  intro w hw
  rw [Option.mem_toList.mp hw]
  rfl

theorem Inv.wait (h : Inv r) {w : Waiter} (hnone : r.waiting = []) (hid : w.id < r.nextId) :
    Inv (r.wait w) := by
  refine ⟨?_, ?_, h.flights, h.size⟩
  · simp [Runner.wait, hnone]
  · intro x hx
    rw [Runner.wait, hnone] at hx
    rw [List.mem_singleton.mp hx]
    exact hid

variable {id window delay : ℕ}

theorem Inv.takeoff (h : Inv r) (hid : id < r.nextId)
    (hwindow : window < 2 ^ 64) (hnone : window ≤ r.nOut → r.waiting = []) :
    Inv (r.takeoff id window delay) := by
  unfold Runner.takeoff
  by_cases hfull : window ≤ r.nOut
  · rw [if_pos hfull]
    exact h.wait (hnone hfull) hid
  · rw [if_neg hfull]
    have hmod : (r.nOut + 1) % 2 ^ 64 = r.nOut + 1 := Nat.mod_eq_of_lt (by omega)
    have hflights := h.flights
    simp only [hmod]
    split_ifs
    · exact ⟨h.slot, h.below, by simp only [Runner.finish]; omega,
        by simp only [Runner.finish]; omega⟩
    · exact ⟨h.slot, h.below, by simp only; omega, by simp only; omega⟩

theorem Inv.flush (h : Inv r) (hid : id < r.nextId)
    (hnone : r.nOut ≠ 0 → r.waiting = []) : Inv (r.flush id) := by
  unfold Runner.flush
  by_cases hout : r.nOut ≠ 0
  · rw [if_pos hout]
    exact h.wait (hnone hout) hid
  · rw [if_neg hout]
    exact { h with }

theorem Inv.land (h : Inv r) {i : ℕ} (hi : i ∈ r.flights)
    (hwindow : window < 2 ^ 64) : Inv (r.land i window delay) := by
  have hlength : (r.flights.erase i).length = r.flights.length - 1 := List.length_erase_of_mem hi
  have hpos : 0 < r.flights.length := List.length_pos_of_mem hi
  have hflights := h.flights
  have hsize := h.size
  have hmod : (r.nOut + (2 ^ 64 - 1)) % 2 ^ 64 = r.nOut - 1 := by omega
  cases hev : r.ev with
  | none =>
    simp only [Runner.land, hev, hmod]
    exact ⟨by simp [h.slot, hev], h.below, by simp only; omega, by simp only; omega⟩
  | some w =>
    have hwaiting : r.waiting = [w] := by rw [h.slot, hev]; rfl
    have hid : w.id < r.nextId := h.below w (by rw [hwaiting]; exact List.mem_singleton_self w)
    simp only [Runner.land, hev, hmod, hwaiting, List.erase_cons_head]
    have hbase : Inv { r with
        nOut := r.nOut - 1, flights := r.flights.erase i, ev := none, waiting := [],
        woken := r.woken ++ [w.id] } :=
      ⟨rfl, by simp, by simp only; omega, by simp only; omega⟩
    unfold Runner.resume
    cases w.kind with
    | takeoff => exact hbase.takeoff hid hwindow fun _ => rfl
    | flush => exact hbase.flush hid fun _ => rfl

variable {e : Event}

theorem Inv.kept (h : Inv r) (hok : Allowed r e) (hone : OneWaits r e) :
    ∃ r', step r e = some r' ∧ Inv r' := by
  have hnext : Inv { r with nextId := r.nextId + 1 } :=
    { h with below := fun w hw => Nat.lt_succ_of_lt (h.below w hw) }
  cases e with
  | queueForTakeoff window delay =>
    exact ⟨_, rfl, hnext.takeoff (Nat.lt_succ_self _) hok hone⟩
  | flush => exact ⟨_, rfl, hnext.flush (Nat.lt_succ_self _) hone⟩
  | mkev =>
    have hlt : r.flights.length < r.nOut := hok
    have hout : r.nOut ≠ 0 := by omega
    refine ⟨_, if_pos hout, h.slot, h.below, ?_, h.size⟩
    simp only [List.length_append, List.length_singleton]
    omega
  | land i window delay => exact ⟨_, rfl, h.land hok.1 hok.2⟩
  | delayOver id => exact ⟨_, rfl, h.slot, h.below, h.flights, h.size⟩

/-- A second call that waits takes the slot from the first one, whom no landing wakes any more. -/
theorem Inv.forgets (h : Inv r) {w : Waiter} (hid : w.id = r.nextId) (hsome : r.waiting ≠ []) :
    ¬ Remembered ({ r with nextId := r.nextId + 1 }.wait w) := by
  intro hall
  obtain ⟨x, hx⟩ := List.exists_mem_of_ne_nil _ hsome
  have hslot := remembered_iff.mp hall x (List.mem_append_left _ hx)
  have heq : w.id = x.id := Option.some.inj hslot
  have hlt := h.below x hx
  omega

theorem Inv.remembered_step_iff (h : Inv r) (hok : Allowed r e)
    (hstep : step r e = some r') : Remembered r' ↔ OneWaits r e := by
  constructor
  · intro hall
    by_contra hone
    cases e with
    | queueForTakeoff window delay =>
      obtain ⟨hfull, hsome⟩ := Classical.not_imp.mp hone
      cases hstep
      rw [Runner.takeoff, if_pos hfull] at hall
      exact h.forgets rfl hsome hall
    | flush =>
      obtain ⟨hout, hsome⟩ := Classical.not_imp.mp hone
      cases hstep
      rw [Runner.flush, if_pos hout] at hall
      exact h.forgets rfl hsome hall
    | mkev => exact hone trivial
    | land i window delay => exact hone trivial
    | delayOver id => exact hone trivial
  · intro hone
    obtain ⟨r'', hr'', hinv⟩ := h.kept hok hone
    cases hr''.symm.trans hstep
    exact hinv.remembered

theorem takeoff_within (r : Runner) (id window delay : ℕ) :
    (r.takeoff id window delay).taken = r.taken ∨ (r.takeoff id window delay).nOut ≤ window := by
  unfold Runner.takeoff
  by_cases hfull : window ≤ r.nOut
  · rw [if_pos hfull]
    exact .inl rfl
  · rw [if_neg hfull]
    have hmod : (r.nOut + 1) % 2 ^ 64 ≤ window := Nat.le_trans (Nat.mod_le _ _) (by omega)
    split_ifs
    · exact .inr hmod
    · exact .inr hmod

theorem flush_taken (r : Runner) (id : ℕ) : (r.flush id).taken = r.taken := by
  unfold Runner.flush
  split_ifs <;> rfl

theorem step_within (hstep : step r e = some r') (htaken : r'.taken ≠ r.taken) :
    ∃ window ∈ e.asks, r'.nOut ≤ window := by
  cases e with
  | queueForTakeoff window delay =>
    cases hstep
    exact ⟨window, rfl, (takeoff_within _ _ _ _).resolve_left htaken⟩
  | flush =>
    cases hstep
    exact absurd (flush_taken _ _) htaken
  | mkev =>
    simp only [step, Runner.mkev] at hstep
    split_ifs at hstep
    cases hstep
    exact absurd rfl htaken
  | land i window delay =>
    cases hstep
    refine ⟨window, rfl, ?_⟩
    cases hev : r.ev with
    | none =>
      simp only [Runner.land, hev] at htaken
      exact absurd rfl htaken
    | some w =>
      simp only [Runner.land, hev, Runner.resume] at htaken ⊢
      cases hkind : w.kind with
      | takeoff =>
        simp only [hkind] at htaken ⊢
        exact (takeoff_within _ _ _ _).resolve_left htaken
      | flush =>
        simp only [hkind, flush_taken] at htaken
        exact absurd rfl htaken
  | delayOver id =>
    cases hstep
    exact absurd rfl htaken

/-- While a call waits a flight is out. -/
def Out (r : Runner) : Prop := r.waiting ≠ [] → r.nOut ≠ 0

theorem Out.takeoff (hsize : r.nOut < 2 ^ 64)
    (hwindow : window < 2 ^ 64) (hpos : 0 < window) : Out (r.takeoff id window delay) := by
  unfold Runner.takeoff
  by_cases hfull : window ≤ r.nOut
  · rw [if_pos hfull]
    intro _
    simp only [Runner.wait]
    omega
  · rw [if_neg hfull]
    have hmod : (r.nOut + 1) % 2 ^ 64 = r.nOut + 1 := Nat.mod_eq_of_lt (by omega)
    simp only [hmod]
    split_ifs
    · exact fun _ => Nat.succ_ne_zero _
    · exact fun _ => Nat.succ_ne_zero _

theorem Out.flush (h : Out r) : Out (r.flush id) := by
  unfold Runner.flush
  by_cases hout : r.nOut ≠ 0
  · rw [if_pos hout]
    exact fun _ => hout
  · rw [if_neg hout]
    exact h

theorem Inv.out_step (h : Inv r) (hout : Out r) (hok : Allowed r e)
    (hpos : ∀ window ∈ e.asks, 0 < window) (hstep : step r e = some r') : Out r' := by
  cases e with
  | queueForTakeoff window delay =>
    cases hstep
    exact Out.takeoff (r := { r with nextId := r.nextId + 1 }) h.size hok (hpos window rfl)
  | flush =>
    cases hstep
    exact Out.flush (r := { r with nextId := r.nextId + 1 }) hout
  | mkev =>
    simp only [step, Runner.mkev] at hstep
    split_ifs at hstep
    cases hstep
    exact hout
  | land i window delay =>
    cases hstep
    cases hev : r.ev with
    | none =>
      intro hw
      simp [Runner.land, hev, h.slot] at hw
    | some w =>
      have hwaiting : r.waiting = [w] := by rw [h.slot, hev]; rfl
      simp only [Runner.land, hev, hwaiting, List.erase_cons_head]
      unfold Runner.resume
      cases w.kind with
      | takeoff =>
        exact Out.takeoff (Nat.mod_lt _ (Nat.two_pow_pos 64)) hok.2 (hpos window rfl)
      | flush => exact Out.flush fun hne => absurd rfl hne
  | delayOver id =>
    cases hstep
    exact hout

theorem Inv.init : Inv .init := ⟨rfl, by simp [Runner.init], by simp [Runner.init], by decide⟩

theorem Inv.run {es : List Event}
    (hrun : Run step (fun r e => Allowed r e ∧ OneWaits r e) .init es r) : Inv r := by
  refine hrun.invariant .init ?_
  rintro a e b ha ⟨hok, hone⟩ hstep
  obtain ⟨b', hb', hinv⟩ := ha.kept hok hone
  cases hb'.symm.trans hstep
  exact hinv

/-- In every run in which no call has to wait while another one waits, the next landing wakes
whoever waits, and as long as the controller never closes the window there is a flight to land; each
take-off is within the window; and a step forgets somebody if and only if it breaks that rule. -/
theorem pipeline3_run {es : List Event}
    (hrun : Run step (fun r e => Allowed r e ∧ OneWaits r e) .init es r) :
    Remembered r ∧
      ((∀ e ∈ es, ∀ window ∈ e.asks, 0 < window) → r.waiting ≠ [] → r.nOut ≠ 0) ∧
      ∀ e, Allowed r e → ∃ r', step r e = some r' ∧ (Remembered r' ↔ OneWaits r e) ∧
        (r'.taken ≠ r.taken → ∃ window ∈ e.asks, r'.nOut ≤ window) := by
  refine ⟨(Inv.run hrun).remembered, ?_, ?_⟩
  · induction hrun with
    | nil => exact fun _ hw => absurd rfl hw
    | snoc hbefore hc hs ih =>
        intro hpos
        have hold := ih fun e he => hpos e (List.mem_append_left _ he)
        exact (Inv.run hbefore).out_step hold hc.1
          (hpos _ (List.mem_append_right _ List.mem_cons_self)) hs
  · intro e hok
    have h := Inv.run hrun
    have hsome : ∃ r', step r e = some r' := by
      cases e with
      | mkev =>
          have hlt : r.flights.length < r.nOut := hok
          exact ⟨_, if_pos (by omega)⟩
      | queueForTakeoff window delay => exact ⟨_, rfl⟩
      | flush => exact ⟨_, rfl⟩
      | land i window delay => exact ⟨_, rfl⟩
      | delayOver id => exact ⟨_, rfl⟩
    obtain ⟨r', hr'⟩ := hsome
    exact ⟨r', hr', h.remembered_step_iff hok hr', step_within hr'⟩

/-- One flight is out and a second call waits for it, until it lands. -/
theorem pipeline3_run_wait :
    ∃ r : Runner, r.waiting = [⟨1, .takeoff⟩] ∧ Remembered r ∧ r.nOut ≠ 0 := by
  have hex : (([.queueForTakeoff 1 0, .mkev, .queueForTakeoff 1 0].foldlM
      (fun r e => if Allowed r e ∧ OneWaits r e then step r e else none) Runner.init).map
        (·.waiting)) = some [⟨1, .takeoff⟩] := by
    decide
  obtain ⟨r, hr, hwaiting⟩ := Option.map_eq_some_iff.mp hex
  obtain ⟨hall, hout, -⟩ := pipeline3_run (Run.of_checked hr)
  exact ⟨r, hwaiting, hall, hout (by decide) (by rw [hwaiting]; decide)⟩

/-- Two calls wait for the one flight that is out, and the first one of them is forgotten. -/
theorem pipeline3_forgets : ¬ ∀ es r, Run step Allowed .init es r → Remembered r := by
  intro h
  have hex : (([.queueForTakeoff 1 0, .mkev, .queueForTakeoff 1 0, .queueForTakeoff 1 0].foldlM
      (fun r e => if Allowed r e then step r e else none) Runner.init).map
        fun r => (r.waiting, (r.land 0 1 0).woken, r.woken)) =
      some ([⟨1, .takeoff⟩, ⟨2, .takeoff⟩], [2], []) := by
    decide
  obtain ⟨r, hr, hout⟩ := Option.map_eq_some_iff.mp hex
  simp only [Prod.mk.injEq] at hout
  obtain ⟨hwaiting, hwoken, hbefore⟩ := hout
  have hone := h _ r (Run.of_checked hr) ⟨1, .takeoff⟩ (by rw [hwaiting]; decide) 0 1 0
  rw [hwoken, hbefore] at hone
  cases hone

end Sfslite.Libtame.Pipeline3
