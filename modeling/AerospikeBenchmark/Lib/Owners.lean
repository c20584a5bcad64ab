import Mathlib.Logic.Function.Basic

/-!
# Exclusive owners

A partial function from holders to what they own is exclusive when nothing has two owners. It stays so when a holder drops what it
owns, takes something nobody owns, or hands over to another holder what it owns itself.
-/

namespace Owners

variable {η ι : Type} {own : η → Option ι}

/-- Nothing has two owners. -/
def Exclusive (own : η → Option ι) : Prop := ∀ x y i, own x = some i → own y = some i → x = y

variable [DecidableEq η]

/-- The owners that are left when a holder has dropped what it owns. -/
theorem eq_some_of_drop {x y : η} {i : ι} (h : Function.update own x none y = some i) : y ≠ x ∧ own y = some i := by
  by_cases hy : y = x
  · rw [hy, Function.update_self] at h
    cases h
  · rw [Function.update_of_ne hy] at h
    exact ⟨hy, h⟩

theorem Exclusive.drop (h : Exclusive own) (x : η) : Exclusive (Function.update own x none) := by
  intro y z i hy hz
  exact h y z i (eq_some_of_drop hy).2 (eq_some_of_drop hz).2

/-- What is dropped has no owner any more. -/
theorem Exclusive.dropped (h : Exclusive own) {x : η} {i : ι} (hx : own x = some i) (y : η) :
    Function.update own x none y ≠ some i := by
  intro hy
  obtain ⟨hne, hy⟩ := eq_some_of_drop hy
  exact hne (h y x i hy hx)

/-- The owners after a holder has taken something: itself, and others as before. -/
theorem eq_some_of_take {x y : η} {i j : ι} (h : Function.update own x (some i) y = some j) : (y = x ∧ i = j) ∨ own y = some j := by
  by_cases hy : y = x
  · rw [hy, Function.update_self] at h
    exact .inl ⟨hy, Option.some.inj h⟩
  · rw [Function.update_of_ne hy] at h
    exact .inr h

theorem Exclusive.take (h : Exclusive own) {i : ι} (hi : ∀ y, own y ≠ some i) (x : η) : Exclusive (Function.update own x (some i)) := by
  intro y z j hy hz
  rcases eq_some_of_take hy with ⟨hyx, rfl⟩ | hy <;> rcases eq_some_of_take hz with ⟨hzx, hij⟩ | hz
  · rw [hyx, hzx]
  · exact absurd hz (hi z)
  · exact absurd (hij ▸ hy) (hi y)
  · exact h y z j hy hz

/-- Handing over is dropping after somebody else has taken; the two holders may be one, which then owns nothing. -/
theorem handOver_eq (own : η → Option ι) (x y : η) :
    Function.update (Function.update own y (own x)) x none =
      if y = x then Function.update own x none else Function.update (Function.update own x none) y (own x) := by
  by_cases hy : y = x
  · rw [if_pos hy, hy, Function.update_idem]
  · rw [if_neg hy, Function.update_comm hy]

theorem Exclusive.handOver (h : Exclusive own) {x : η} {i : ι} (hx : own x = some i) (y : η) :
    Exclusive (Function.update (Function.update own y (some i)) x none) := by
  rw [← hx, handOver_eq, hx]
  by_cases hy : y = x
  · rw [if_pos hy]
    exact h.drop x
  · rw [if_neg hy]
    exact (h.drop x).take (h.dropped hx) y

end Owners
