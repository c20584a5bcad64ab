/-!
# Runs that stop at an error

A step takes a state and an event to the next state or stops with an error. A run over a list of events stops at the first error.
-/

namespace ErrorRuns

variable {σ ε δ : Type} {step : σ → ε → Except δ σ} {s s' : σ} {es : List ε}

/-- The state a run ends in, or the error it stops with. -/
def runUntilError (step : σ → ε → Except δ σ) : σ → List ε → Except δ σ
  | s, [] => .ok s
  | s, e :: es =>
    match step s e with
    | .ok s' => runUntilError step s' es
    | .error err => .error err

/-- A run over events in two parts. -/
theorem runUntilError_append_eq_ok {es' : List ε} {u : σ} : runUntilError step s (es ++ es') = .ok u ↔
    ∃ t, runUntilError step s es = .ok t ∧ runUntilError step t es' = .ok u := by
  induction es generalizing s with
  | nil => simp [runUntilError]
  | cons e es ih =>
    rw [List.cons_append, runUntilError, runUntilError]
    cases step s e with
    | error err => simp
    | ok t => exact ih

theorem runUntilError_cons_eq_ok {e : ε} : runUntilError step s (e :: es) = .ok s' ↔
    ∃ t, step s e = .ok t ∧ runUntilError step t es = .ok s' := by
  rw [runUntilError]
  cases step s e with
  | error err => simp
  | ok t => simp

/-- A run stops with an error exactly if one of its events does, in the state that the events before it lead to. -/
theorem runUntilError_error_iff {err : δ} : runUntilError step s es = .error err ↔
    ∃ before e after t, es = before ++ e :: after ∧ runUntilError step s before = .ok t ∧ step t e = .error err := by
  induction es generalizing s with
  | nil => simp [runUntilError]
  | cons e es ih =>
    rw [runUntilError]
    constructor
    · intro h
      cases hstep : step s e with
      | error err' =>
        rw [hstep] at h
        cases h
        exact ⟨[], e, es, s, rfl, rfl, hstep⟩
      | ok t =>
        rw [hstep] at h
        obtain ⟨before, e', after, t', rfl, hbefore, he'⟩ := ih.mp h
        exact ⟨e :: before, e', after, t', rfl, runUntilError_cons_eq_ok.mpr ⟨t, hstep, hbefore⟩, he'⟩
    · rintro ⟨before, e', after, t', heq, hbefore, he'⟩
      cases before with
      | nil =>
        cases heq
        cases hbefore
        rw [he']
      | cons e'' before =>
        cases heq
        obtain ⟨t, hstep, hbefore⟩ := runUntilError_cons_eq_ok.mp hbefore
        rw [hstep]
        exact ih.mpr ⟨before, e', after, t', rfl, hbefore, he'⟩

/-- What every step extends holds of the events of a run and the state it ends in. -/
theorem ok_of_step {Q : List ε → σ → Prop} (hstep : ∀ es s e s', Q es s → step s e = .ok s' → Q (es ++ [e]) s') {done : List ε}
    (h : Q done s) (hrun : runUntilError step s es = .ok s') : Q (done ++ es) s' := by
  induction es generalizing s done with
  | nil =>
    cases hrun
    rwa [List.append_nil]
  | cons e es ih =>
    obtain ⟨t, hnext, hrun⟩ := runUntilError_cons_eq_ok.mp hrun
    have hrest := ih (hstep done s e t h hnext) hrun
    rwa [List.append_assoc] at hrest

end ErrorRuns
