import Mathlib.Data.List.Basic

/-!
Runs of a partial step function under a condition on each step. The step
function answers `none` where an event cannot happen or where the program
stops, so a run is a list of events that all succeeded.
-/

namespace Sfslite.Lib

variable {σ ε : Type*}

/-- `Run step C s es s'`: taken in order from `s`, the events `es` all succeed,
each meets the condition `C` in the state it starts from, and `s'` is reached. -/
inductive Run (step : σ → ε → Option σ) (C : σ → ε → Prop) : σ → List ε → σ → Prop
  | nil (s : σ) : Run step C s [] s
  | snoc {s s' s'' : σ} {es : List ε} {e : ε} : Run step C s es s' → C s' e →
      step s' e = some s'' → Run step C s (es ++ [e]) s''

variable {step : σ → ε → Option σ} {C : σ → ε → Prop} {s s' : σ} {es : List ε}

variable {I : σ → Prop}

/-- The invariant rule: what holds at the start and is kept by every step that
meets the condition holds in every state reached. -/
theorem Run.invariant (hrun : Run step C s es s') (hinit : I s)
    (hstep : ∀ a e b, I a → C a e → step a e = some b → I b) : I s' := by
  induction hrun with
  | nil => exact hinit
  | snoc _ hc hs ih => exact hstep _ _ _ ih hc hs

/-- The invariant rule where every step that meets the condition can be made. -/
theorem Run.invariant_of_step (hrun : Run step C s es s') (hinit : I s)
    (hstep : ∀ a e, I a → C a e → ∃ b, step a e = some b ∧ I b) : I s' :=
  hrun.invariant hinit fun a e b ha hc hs => by
    obtain ⟨b', hs', hb'⟩ := hstep a e ha hc
    rwa [← Option.some.inj (hs'.symm.trans hs)]

theorem Run.cons {s₁ : σ} {e : ε} (hc : C s e)
    (hs : step s e = some s₁) (hrun : Run step C s₁ es s') : Run step C s (e :: es) s' := by
  induction hrun with
  | nil =>
    have hone : Run step C s ([] ++ [e]) s₁ := .snoc (.nil s) hc hs
    exact hone
  | snoc _ hc' hs' ih => exact .snoc ih hc' hs'

theorem Run.of_nil (hrun : Run step C s [] s') : s' = s := by
  generalize hl : ([] : List ε) = l at hrun
  cases hrun with
  | nil => rfl
  | snoc hpre hc hs => simp at hl

theorem Run.of_cons {e : ε} (hrun : Run step C s (e :: es) s') :
    ∃ s₁, C s e ∧ step s e = some s₁ ∧ Run step C s₁ es s' := by
  generalize hl : e :: es = l at hrun
  induction hrun generalizing es with
  | nil => cases hl
  | @snoc s₂ s₃ es' e' hpre hc hs ih =>
    cases es' with
    | nil =>
      cases hl
      obtain rfl := hpre.of_nil
      exact ⟨_, hc, hs, .nil _⟩
    | cons e₀ es'' =>
      obtain ⟨rfl, rfl⟩ := List.cons_eq_cons.mp hl
      obtain ⟨s₁, hc₁, hs₁, hrest⟩ := ih rfl
      exact ⟨s₁, hc₁, hs₁, .snoc hrest hc hs⟩

/-- The invariant rule where a step that fails ends in an error. -/
theorem foldlM_ok_invariant {φ : Type*} {f : σ → ε → Except φ σ}
    (hstep : ∀ a e b, I a → f a e = .ok b → I b) (hinit : I s)
    (h : es.foldlM f s = .ok s') : I s' := by
  induction es generalizing s with
  | nil =>
    cases h
    exact hinit
  | cons e es ih =>
    rw [List.foldlM_cons] at h
    cases hone : f s e with
    | error x =>
      rw [hone] at h
      cases h
    | ok s₁ =>
      rw [hone] at h
      exact ih (hstep s e s₁ hinit hone) h

theorem Run.of_foldlM (h : es.foldlM step s = some s') : Run step (fun _ _ => True) s es s' := by
  induction es generalizing s with
  | nil =>
    cases h
    exact .nil _
  | cons e es ih =>
    rw [List.foldlM_cons] at h
    obtain ⟨s₁, hs, hrest⟩ := Option.bind_eq_some_iff.mp h
    exact .cons trivial hs (ih hrest)

theorem Run.of_checked [∀ s e, Decidable (C s e)]
    (h : es.foldlM (fun s e => if C s e then step s e else none) s = some s') :
    Run step C s es s' := by
  induction es generalizing s with
  | nil =>
    cases h
    exact .nil _
  | cons e es ih =>
    rw [List.foldlM_cons] at h
    obtain ⟨s₁, hs, hrest⟩ := Option.bind_eq_some_iff.mp h
    split_ifs at hs with hc
    exact .cons hc hs (ih hrest)

end Sfslite.Lib
