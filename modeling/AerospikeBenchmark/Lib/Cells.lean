/-!
# Cells that may not have been assigned

A cell of memory is `none` until it is assigned. A program that reads cells stops with the name of the first one that it reads before;
`ReadsAssigned` is the property that it does not stop.
-/

namespace Cells

variable {F α β : Type}

/-- Reads the cell with the given name. -/
def readCell (name : F) : Option α → Except F α
  | some v => .ok v
  | none => .error name

/-- Every cell was assigned when it was read. -/
def ReadsAssigned (x : Except F α) : Prop := ∃ v, x = .ok v

@[simp] theorem readCell_some (name : F) (v : α) : readCell name (some v) = .ok v := rfl

@[simp] theorem readCell_none (name : F) : readCell name (none : Option α) = .error name := rfl

theorem not_readsAssigned_of_error {x : Except F α} (name : F) (h : x = .error name) : ¬ ReadsAssigned x := by
  rintro ⟨v, hv⟩
  rw [h] at hv
  cases hv

theorem readsAssigned_bind {x : Except F α} {f : α → Except F β} :
    ReadsAssigned (x >>= f) ↔ ∃ a, x = .ok a ∧ ReadsAssigned (f a) := by
  cases x with
  | error name => simp [ReadsAssigned, bind, Except.bind]
  | ok a => simp [bind, Except.bind]

/-- One program for each element of a list, in sequence. -/
theorem readsAssigned_forM {f : α → Except F Unit} {l : List α} :
    ReadsAssigned (l.forM f) ↔ ∀ a ∈ l, ReadsAssigned (f a) := by
  induction l with
  | nil => simp [ReadsAssigned, pure, Except.pure]
  | cons a l ih =>
    rw [List.forM_eq_forM, List.forM_cons, readsAssigned_bind, List.forall_mem_cons, ← ih, List.forM_eq_forM]
    simp [ReadsAssigned]

end Cells
