import Mathlib.Data.Fintype.Card
import Mathlib.Tactic.Linarith

/-!
# Cyclic barriers

A barrier for a fixed number of parties, in rounds: the last party to arrive opens it, which ends the round. A party that has
arrived remembers the round and may leave once the round is over. `Synced` relates the barrier to the parties: which of them wait
for which round, and how many rounds each has passed. From it follows what a barrier is for, that no party is a round ahead of
another (`Synced.passed_le`) and that a party which is not waiting holds all the others in its round.
-/

/-- A barrier: its number of parties, how many have arrived in the current round, and the rounds that are over. -/
structure Barrier where
  count : Nat
  arrived : Nat
  round : Nat
deriving DecidableEq, Repr

namespace Barrier

/-- A party arrives. The last one opens the barrier. -/
def arrive (b : Barrier) : Barrier :=
  if b.arrived + 1 = b.count then ⟨b.count, 0, b.round + 1⟩ else ⟨b.count, b.arrived + 1, b.round⟩

/-- A barrier that has not been reached by all parties stays so: the last arrival opens it. -/
theorem arrive_lt {b : Barrier} (h : b.arrived < b.count) : b.arrive.arrived < b.arrive.count := by
  unfold arrive
  split
  · exact Nat.zero_lt_of_lt h
  · simp only
    omega

theorem round_le_arrive (b : Barrier) : b.round ≤ b.arrive.round := by
  unfold arrive
  split
  · exact Nat.le_succ _
  · exact le_rfl

variable {ι : Type*} [Fintype ι] [DecidableEq ι]

/-- The parties and the barrier agree: a party that is not waiting has passed all rounds that are over; one that is waiting has
passed all rounds before the one it waits for, which is the current one or has just ended; and the parties waiting for the current
round are those counted as arrived. -/
structure Synced (b : Barrier) (waiting : ι → Option Nat) (passed : ι → Nat) : Prop where
  count_eq : b.count = Fintype.card ι
  free : ∀ p, waiting p = none → passed p = b.round
  held : ∀ p r, waiting p = some r → passed p = r ∧ (b.round = r ∨ b.round = r + 1)
  arrived_eq : b.arrived = (Finset.univ.filter fun p => waiting p = some b.round).card

namespace Synced

variable {b : Barrier} {waiting : ι → Option Nat} {passed : ι → Nat}

/-- When all but one party have arrived, all the others are waiting for the current round. -/
theorem others_waiting (h : Synced b waiting passed) {p : ι} (hp : waiting p ≠ some b.round) (hlast : b.arrived + 1 = b.count)
    {q : ι} (hq : q ≠ p) : waiting q = some b.round := by
  have hsub : (Finset.univ.filter fun x => waiting x = some b.round) ⊆ Finset.univ.erase p := by
    intro x hx
    simp only [Finset.mem_filter, Finset.mem_univ, true_and] at hx
    refine Finset.mem_erase.mpr ⟨?_, Finset.mem_univ x⟩
    rintro rfl
    exact hp hx
  have hcard : (Finset.univ.erase p).card ≤ (Finset.univ.filter fun x => waiting x = some b.round).card := by
    rw [Finset.card_erase_of_mem (Finset.mem_univ p), Finset.card_univ, ← h.arrived_eq, ← h.count_eq]
    omega
  have hmem : q ∈ Finset.univ.filter fun x => waiting x = some b.round := by
    rw [Finset.eq_of_subset_of_card_le hsub hcard]
    exact Finset.mem_erase.mpr ⟨hq, Finset.mem_univ q⟩
  exact (Finset.mem_filter.mp hmem).2

/-- Arriving keeps the parties and the barrier in agreement. -/
theorem arrive (h : Synced b waiting passed) {p : ι} (hp : waiting p = none) :
    Synced b.arrive (Function.update waiting p (some b.round)) passed := by
  have hpr : waiting p ≠ some b.round := by
    rw [hp]
    exact Option.some_ne_none _ |>.symm
  unfold Barrier.arrive
  split
  · -- the last arrival: every party waits for the round that has just ended
    rename_i hlast
    have hall : ∀ q, Function.update waiting p (some b.round) q = some b.round := by
      intro q
      by_cases hq : q = p
      · rw [hq, Function.update_self]
      · rw [Function.update_of_ne hq, h.others_waiting hpr hlast hq]
    refine ⟨h.count_eq, ?_, ?_, ?_⟩
    · intro q hq
      rw [hall q] at hq
      exact nomatch hq
    · intro q r hq
      obtain rfl : b.round = r := Option.some.inj ((hall q).symm.trans hq)
      refine ⟨?_, Or.inr rfl⟩
      by_cases hqp : q = p
      · rw [hqp]
        exact h.free p hp
      · exact (h.held q _ (h.others_waiting hpr hlast hqp)).1
    · simp [hall]
  · refine ⟨h.count_eq, ?_, ?_, ?_⟩
    · intro q hq
      by_cases hqp : q = p
      · rw [hqp, Function.update_self] at hq
        exact nomatch hq
      · rw [Function.update_of_ne hqp] at hq
        exact h.free q hq
    · intro q r hq
      by_cases hqp : q = p
      · rw [hqp, Function.update_self] at hq
        obtain rfl : b.round = r := Option.some.inj hq
        exact ⟨hqp ▸ h.free p hp, Or.inl rfl⟩
      · rw [Function.update_of_ne hqp] at hq
        exact h.held q r hq
    · have hins : (Finset.univ.filter fun q => Function.update waiting p (some b.round) q = some b.round) =
          insert p (Finset.univ.filter fun q => waiting q = some b.round) := by
        ext q
        by_cases hqp : q = p
        · simp [hqp]
        · simp [hqp]
      simp only [hins]
      rw [Finset.card_insert_of_notMem (by simp [hpr]), ← h.arrived_eq]

/-- Leaving a round that is over keeps the parties and the barrier in agreement. -/
theorem leave (h : Synced b waiting passed) {p : ι} {r : Nat} (hp : waiting p = some r) (hr : b.round ≠ r) :
    Synced b (Function.update waiting p none) (Function.update passed p (passed p + 1)) := by
  refine ⟨h.count_eq, ?_, ?_, ?_⟩
  · intro q hq
    by_cases hqp : q = p
    · obtain ⟨hpass, hround⟩ := h.held p r hp
      rw [hqp, Function.update_self]
      omega
    · rw [Function.update_of_ne hqp] at hq ⊢
      exact h.free q hq
  · intro q r' hq
    by_cases hqp : q = p
    · rw [hqp, Function.update_self] at hq
      exact nomatch hq
    · rw [Function.update_of_ne hqp] at hq ⊢
      exact h.held q r' hq
  · have hsame : (Finset.univ.filter fun q => Function.update waiting p none q = some b.round) =
        Finset.univ.filter fun q => waiting q = some b.round := by
      ext q
      by_cases hqp : q = p
      · simp [hqp, hp, Ne.symm hr]
      · simp [Function.update_of_ne hqp]
    rw [hsame, h.arrived_eq]

omit [DecidableEq ι] in
/-- No party has passed more rounds than are over, and every party has passed all of them but the last. -/
theorem passed_le (h : Synced b waiting passed) (p : ι) : passed p ≤ b.round ∧ b.round ≤ passed p + 1 := by
  cases hp : waiting p with
  | none =>
    have := h.free p hp
    omega
  | some r =>
    have := h.held p r hp
    omega

omit [DecidableEq ι] in
/-- As long as not all have arrived, some party is not waiting for the current round. -/
theorem exists_absent (h : Synced b waiting passed) (hlt : b.arrived < b.count) : ∃ p, waiting p ≠ some b.round := by
  by_contra hall
  have hmem : ∀ p, waiting p = some b.round := by
    intro p
    by_contra hp
    exact hall ⟨p, hp⟩
  have hcount := h.arrived_eq
  rw [Finset.filter_true_of_mem fun p _ => hmem p, Finset.card_univ, ← h.count_eq] at hcount
  omega

end Synced

end Barrier
