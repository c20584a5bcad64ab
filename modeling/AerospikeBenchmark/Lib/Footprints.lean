import AerospikeBenchmark.Lib.ErrorRuns

/-!
# Events and the fields they write

A state has fields. When every event keeps the fields that it does not write, and what it leaves in a field depends on nothing but that
field, then an event more in a run makes a difference only in the fields that it writes.
-/

namespace Footprints

open ErrorRuns

variable {σ ε δ φ α : Type} {get : σ → φ → α} {writes : ε → φ → Prop} {step : σ → ε → Except δ σ} {s t s' t' : σ}
  {es es' : List ε} {e : ε} {f : φ}

/-- Every event keeps what it does not write, and does to a field what depends on this field only. -/
structure Fieldwise (get : σ → φ → α) (writes : ε → φ → Prop) (step : σ → ε → Except δ σ) : Prop where
  keeps : ∀ {s s' : σ} {e : ε} {f : φ}, step s e = .ok s' → ¬ writes e f → get s' f = get s f
  own : ∀ {s t s' t' : σ} {e : ε} {f : φ}, step s e = .ok s' → step t e = .ok t' → writes e f → get s f = get t f →
    get s' f = get t' f

/-- States that agree on a field agree on it after an event. -/
theorem Fieldwise.step_congr (h : Fieldwise get writes step) (hs : step s e = .ok s') (ht : step t e = .ok t')
    (hf : get s f = get t f) : get s' f = get t' f := by
  by_cases hwrites : writes e f
  · exact h.own hs ht hwrites hf
  · rw [h.keeps hs hwrites, h.keeps ht hwrites, hf]

/-- And after a run. -/
theorem Fieldwise.run_congr (h : Fieldwise get writes step) (hs : runUntilError step s es = .ok s')
    (ht : runUntilError step t es = .ok t') (hf : get s f = get t f) : get s' f = get t' f := by
  induction es generalizing s t with
  | nil =>
    cases hs
    cases ht
    exact hf
  | cons e es ih =>
    obtain ⟨u, hsu, hs⟩ := runUntilError_cons_eq_ok.mp hs
    obtain ⟨v, htv, ht⟩ := runUntilError_cons_eq_ok.mp ht
    exact ih hs ht (h.step_congr hsu htv hf)

/-- An event that is put into a run makes no difference in a field that it does not write. -/
theorem Fieldwise.insert (h : Fieldwise get writes step) (hrun : runUntilError step s (es ++ es') = .ok t)
    (hmore : runUntilError step s (es ++ e :: es') = .ok t') (hf : ¬ writes e f) : get t f = get t' f := by
  obtain ⟨u, hu, hrun⟩ := runUntilError_append_eq_ok.mp hrun
  obtain ⟨v, hv, hmore⟩ := runUntilError_append_eq_ok.mp hmore
  obtain rfl : u = v := Except.ok.inj (hu.symm.trans hv)
  obtain ⟨w, hw, hmore⟩ := runUntilError_cons_eq_ok.mp hmore
  exact h.run_congr hrun hmore (h.keeps hw hf).symm

/-- What every event that writes a field establishes of it stays. -/
theorem Fieldwise.holds_run (h : Fieldwise get writes step) {P : α → Prop}
    (hset : ∀ {s s' : σ} {e : ε}, step s e = .ok s' → writes e f → P (get s' f)) (hs : P (get s f))
    (hrun : runUntilError step s es = .ok t) : P (get t f) := by
  induction es generalizing s with
  | nil =>
    cases hrun
    exact hs
  | cons e es ih =>
    obtain ⟨u, hu, hrun⟩ := runUntilError_cons_eq_ok.mp hrun
    by_cases hwrites : writes e f
    · exact ih (hset hu hwrites) hrun
    · exact ih (h.keeps hu hwrites ▸ hs) hrun

/-- So it holds at the end of a run with such an event. -/
theorem Fieldwise.holds_of_mem (h : Fieldwise get writes step) {P : α → Prop}
    (hset : ∀ {s s' : σ} {e : ε}, step s e = .ok s' → writes e f → P (get s' f)) (hrun : runUntilError step s es = .ok t)
    (he : e ∈ es) (hf : writes e f) : P (get t f) := by
  obtain ⟨before, after, rfl⟩ := List.append_of_mem he
  obtain ⟨u, -, hrun⟩ := runUntilError_append_eq_ok.mp hrun
  obtain ⟨v, hv, hrun⟩ := runUntilError_cons_eq_ok.mp hrun
  exact h.holds_run hset (hset hv hf) hrun

end Footprints
