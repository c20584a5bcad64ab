import Mathlib.Logic.Basic
import Mathlib.Order.Basic

/-!
# Fair schedules

A machine whose events belong to processes, under an infinite schedule of events. An event that cannot happen leaves the state as it
is: the scheduler has picked a blocked process. A schedule is weakly fair when no process is able to step from some time on and
never picked again.

`Progress` is the rule for what a fair schedule brings about. A rank never rises; as long as the goal is not reached some process is
helpful, which means that each of its events happens and lowers the rank; and a step of another process that does not lower the rank
leaves it helpful.
-/

namespace Fairness

variable {σ ε π : Type} (step : σ → ε → Option σ) (proc : ε → π)

/-- The states that a schedule goes through. -/
def states (s : σ) (sched : Nat → ε) : Nat → σ
  | 0 => s
  | n + 1 => (step (states s sched n) (sched n)).getD (states s sched n)

/-- Time and again each process is picked, or blocked. -/
def WeaklyFair (s : σ) (sched : Nat → ε) : Prop :=
  ∀ p n, ∃ m, n ≤ m ∧ (proc (sched m) = p ∨ ∀ e, proc e = p → step (states step s sched m) e = none)

/-- The conditions under which every weakly fair schedule reaches a goal. -/
structure Progress (Inv Goal : σ → Prop) (rank : σ → Nat) (Helpful : π → σ → Prop) : Prop where
  inv : ∀ s e s', Inv s → step s e = some s' → Inv s'
  helpful : ∀ s, Inv s → ¬Goal s → ∃ e, Helpful (proc e) s
  lowers : ∀ s e, Inv s → Helpful (proc e) s → ∃ s', step s e = some s' ∧ rank s' < rank s
  keeps : ∀ s e s' p, Inv s → Helpful p s → step s e = some s' → rank s' < rank s ∨ (rank s' = rank s ∧ Helpful p s')

variable {step proc} {Inv Goal : σ → Prop} {rank : σ → Nat} {Helpful : π → σ → Prop} {s : σ} {sched : Nat → ε}

/-- An invariant holds at all times of a schedule. -/
theorem inv_states (hstep : ∀ s e s', Inv s → step s e = some s' → Inv s') (hs : Inv s) (n : Nat) :
    Inv (states step s sched n) := by
  induction n with
  | zero => exact hs
  | succ n ih =>
    unfold states
    cases he : step (states step s sched n) (sched n) with
    | none => exact ih
    | some s' => exact hstep _ _ _ ih he

namespace Progress

variable (h : Progress step proc Inv Goal rank Helpful)

include h

/-- Up to any later time the rank falls, or the process stays helpful. -/
theorem falls_or_stays (hs : Inv s) {p : π} {n : Nat} (hp : Helpful p (states step s sched n)) (k : Nat) :
    (∃ m, n ≤ m ∧ rank (states step s sched m) < rank (states step s sched n)) ∨
      (rank (states step s sched (n + k)) = rank (states step s sched n) ∧ Helpful p (states step s sched (n + k))) := by
  induction k with
  | zero => exact Or.inr ⟨rfl, hp⟩
  | succ k ih =>
    rcases ih with hfall | ⟨hrank, hstay⟩
    · exact Or.inl hfall
    · cases he : step (states step s sched (n + k)) (sched (n + k)) with
      | none =>
        have hsame : states step s sched (n + (k + 1)) = states step s sched (n + k) := by
          rw [← Nat.add_assoc, states, he, Option.getD_none]
        rw [hsame]
        exact Or.inr ⟨hrank, hstay⟩
      | some s' =>
        have hnext : states step s sched (n + (k + 1)) = s' := by
          rw [← Nat.add_assoc, states, he, Option.getD_some]
        rcases h.keeps _ _ _ p (inv_states h.inv hs _) hstay he with hlt | ⟨heq, hp'⟩
        · exact Or.inl ⟨n + (k + 1), Nat.le_add_right n _, by rw [hnext]; omega⟩
        · rw [hnext]
          exact Or.inr ⟨heq.trans hrank, hp'⟩

/-- Before the goal is reached the rank falls again. -/
theorem falls (hs : Inv s) (hfair : WeaklyFair step proc s sched) {n : Nat} (hgoal : ¬Goal (states step s sched n)) :
    ∃ m, n ≤ m ∧ rank (states step s sched m) < rank (states step s sched n) := by
  obtain ⟨e, he⟩ := h.helpful _ (inv_states h.inv hs n) hgoal
  obtain ⟨m, hnm, hpick⟩ := hfair (proc e) n
  obtain ⟨k, rfl⟩ := Nat.exists_eq_add_of_le hnm
  rcases h.falls_or_stays hs he k with hfall | ⟨hrank, hstay⟩
  · exact hfall
  · rcases hpick with hpick | hblocked
    · rw [← hpick] at hstay
      obtain ⟨s', hs', hlt⟩ := h.lowers _ _ (inv_states h.inv hs _) hstay
      have hnext : states step s sched (n + k + 1) = s' := by
        rw [states, hs', Option.getD_some]
      exact ⟨n + k + 1, by omega, by rw [hnext]; omega⟩
    · obtain ⟨s', hs', -⟩ := h.lowers _ e (inv_states h.inv hs _) hstay
      rw [hblocked e rfl] at hs'
      exact absurd hs' (Option.some_ne_none s').symm

/-- A weakly fair schedule reaches the goal. -/
theorem eventually (hs : Inv s) (hfair : WeaklyFair step proc s sched) : ∃ n, Goal (states step s sched n) := by
  -- by induction on the rank: before the goal it falls again
  have hfrom : ∀ r n, rank (states step s sched n) = r → ∃ m, Goal (states step s sched m) := by
    intro r
    induction r using Nat.strongRecOn with
    | ind r ih =>
      intro n hn
      by_cases hgoal : Goal (states step s sched n)
      · exact ⟨n, hgoal⟩
      · obtain ⟨m, -, hlt⟩ := h.falls hs hfair hgoal
        exact ih _ (hn ▸ hlt) m rfl
  exact hfrom _ 0 rfl

end Progress

end Fairness
