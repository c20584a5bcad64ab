import Mathlib.Logic.Basic

/-!
# Runs of a machine

A machine is a step function that takes a state and an event to the next state, or to none when the event cannot happen. A run is
a list of events. Conditions on the steps of a run and properties of the states it goes through are stated here, with the rules
that derive the latter from the former.
-/

namespace Runs

variable {σ ε : Type} (step : σ → ε → Option σ)

/-- The state a run ends in. -/
def run : σ → List ε → Option σ
  | s, [] => some s
  | s, e :: es => (step s e).bind fun s' => run s' es

/-- Every step of the run meets a condition on the event and the state it finds. -/
def Along (P : σ → ε → Prop) : σ → List ε → Prop
  | _, [] => True
  | s, e :: es => P s e ∧ ∀ s', step s e = some s' → Along P s' es

/-- Every state of the run has a property. -/
def Throughout (Q : σ → Prop) : σ → List ε → Prop
  | s, [] => Q s
  | s, e :: es => Q s ∧ ∀ s', step s e = some s' → Throughout Q s' es

variable {step} {P : σ → ε → Prop} {Q : σ → Prop} {s s' : σ} {es : List ε}

theorem run_cons {e : ε} (h : run step s (e :: es) = some s') : ∃ t, step s e = some t ∧ run step t es = some s' :=
  Option.bind_eq_some_iff.mp h

theorem run_append (es fs : List ε) : run step s (es ++ fs) = (run step s es).bind fun t => run step t fs := by
  induction es generalizing s with
  | nil => rfl
  | cons e es ih => simp [run, ih, Option.bind_assoc]

theorem Along.cons {e : ε} {t : σ} (hP : P s e) (hstep : step s e = some t) (h : Along step P t es) : Along step P s (e :: es) := by
  refine ⟨hP, fun t' ht' => ?_⟩
  obtain rfl := Option.some.inj (hstep.symm.trans ht')
  exact h

theorem Throughout.head (h : Throughout step Q s es) : Q s := by
  cases es with
  | nil => exact h
  | cons e es => exact h.1

/-- What every step that meets the condition preserves holds throughout. -/
theorem throughout_of_along (hstep : ∀ s e s', Q s → P s e → step s e = some s' → Q s') (h : Q s) (hP : Along step P s es) :
    Throughout step Q s es := by
  induction es generalizing s with
  | nil => exact h
  | cons e es ih => exact ⟨h, fun t ht => ih (hstep s e t h hP.1 ht) (hP.2 t ht)⟩

/-- What every step preserves holds throughout. -/
theorem throughout_of_step (hstep : ∀ s e s', Q s → step s e = some s' → Q s') (h : Q s) : Throughout step Q s es := by
  induction es generalizing s with
  | nil => exact h
  | cons e es ih => exact ⟨h, fun t ht => ih (hstep s e t h ht)⟩

theorem Throughout.imp {Q' : σ → Prop} (himp : ∀ s, Q s → Q' s) (h : Throughout step Q s es) : Throughout step Q' s es := by
  induction es generalizing s with
  | nil => exact himp s h
  | cons e es ih => exact ⟨himp s h.1, fun t ht => ih (h.2 t ht)⟩

/-- What holds throughout a run holds in its last state. -/
theorem Throughout.last (h : Throughout step Q s es) (hrun : run step s es = some s') : Q s' := by
  induction es generalizing s with
  | nil =>
    obtain rfl : s = s' := Option.some.inj hrun
    exact h
  | cons e es ih =>
    obtain ⟨t, ht, hrest⟩ := run_cons hrun
    exact ih (h.2 t ht) hrest

/-- A condition that each step meets when the property holds after it is met along the run. -/
theorem along_of_throughout (hstep : ∀ s e, (∀ s', step s e = some s' → Q s') → P s e) (h : Throughout step Q s es) :
    Along step P s es := by
  induction es generalizing s with
  | nil => trivial
  | cons e es ih => exact ⟨hstep s e fun t ht => (h.2 t ht).head, fun t ht => ih (h.2 t ht)⟩

end Runs
