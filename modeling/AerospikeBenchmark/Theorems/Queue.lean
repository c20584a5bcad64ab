import AerospikeBenchmark.Lemmas.Queue

/-!
# The queue neither loses, duplicates nor reorders

For any interleaving of pushes and pops in which the items pushed, or being pushed, and not yet popped never outnumber the length
the queue was initialised with. The runs are not bounded, so the counters wrap any number of times.
-/

namespace AerospikeBenchmark

open Ring Runs

variable {α : Type}

/-- Every item reserved has been popped. -/
def QueueRun.Empty (s : QueueRun α) : Prop := s.popped.length = s.reserved.length

/-- The item at the head is reserved and its push has not stored it. -/
def QueueRun.HeadUnstored (s : QueueRun α) : Prop :=
  ∃ p ∈ s.pending, p.nth = s.popped.length ∧ s.reserved[s.popped.length]? = some p.item

/-- What is promised of a state of the queue and of the step that follows. -/
structure QueueSafe (s : QueueRun α) : Prop where
  /-- The items popped are the first ones reserved, in their order. -/
  fifo : s.popped <+: s.reserved
  /-- An item that has not been popped is still to be stored by its push, or it is in its slot. -/
  kept : ∀ (n : Nat) (item : α), s.popped.length ≤ n → s.reserved[n]? = some item →
    (∃ p ∈ s.pending, p.nth = n ∧ p.item = item) ∨ s.queue.items (slot s.queue.lenMask n) = some item
  /-- A pop returns the null pointer only if the queue is empty or the item at the head is not yet stored. -/
  null : ∀ e s', queueStep s e = some s' → s'.results = s.results ++ [none] → s.Empty ∨ s.HeadUnstored
  /-- A store goes to an empty slot that no other push has reserved. -/
  store : ∀ (i : Nat) (p : Push α), s.pending[i]? = some p → s.queue.items (s.queue.index p.pos) = none ∧
    ∀ (j : Nat) (p' : Push α), j ≠ i → s.pending[j]? = some p' → s.queue.index p'.pos ≠ s.queue.index p.pos

theorem QueueInv.null {qLen k : Nat} {s s' : QueueRun α} (h : QueueInv qLen k s) {e : QueueEvent α}
    (hstep : queueStep s e = some s') (hnull : s'.results = s.results ++ [none]) : s.Empty ∨ s.HeadUnstored := by
  obtain ⟨item, rfl, rfl⟩ | ⟨i, p, rfl, hp, rfl⟩ | ⟨rfl, -, rfl⟩ | ⟨rfl, hmid, rfl⟩ := queueStep_cases hstep
  · exact absurd (congrArg List.length hnull) (by simp [QueueRun.reserve])
  · exact absurd (congrArg List.length hnull) (by simp [QueueRun.store])
  · -- the counters are equal and too close to differ by a wrap
    unfold QueueRun.load at hnull
    split at hnull
    · exact absurd (congrArg List.length hnull) (by simp)
    · next heq =>
      have hshort := Nat.pow_le_pow_right (show 0 < 2 by decide) h.short
      have hle := h.popped_le
      have hwithin := h.within
      have hroom := h.room
      rw [not_ne_iff, h.head, h.pos] at heq
      exact .inl (counter_inj (by omega) (by omega) heq)
  · have hitem : s.queue.items (s.queue.index s.queue.head) = none := by
      simpa [QueueRun.exchange] using hnull
    rw [h.items_head hmid] at hitem
    split at hitem
    · next hmem =>
      obtain ⟨p, hp, hnth⟩ := List.mem_map.mp hmem
      exact .inr ⟨p, hp, hnth, hnth ▸ (h.pushes p hp).2.2⟩
    · exact absurd (List.getElem?_eq_none_iff.mp hitem) (Nat.not_le.mpr (h.popping hmid))

theorem QueueInv.safe {qLen k : Nat} {s : QueueRun α} (h : QueueInv qLen k s) : QueueSafe s where
  fifo := h.fifo
  kept n item hlow hitem := by
    have hlt := (List.getElem?_eq_some_iff.mp hitem).1
    have hslot := h.slots n hlow hlt
    split at hslot
    · next hmem =>
      obtain ⟨p, hp, rfl⟩ := List.mem_map.mp hmem
      exact .inl ⟨p, hp, rfl, Option.some.inj ((h.pushes p hp).2.2.symm.trans hitem)⟩
    · exact .inr (hslot.trans hitem)
  null _ _ hstep hnull := h.null hstep hnull
  store i p hp := by
    have hmem := List.mem_of_getElem? hp
    have hlt := h.nth_lt hmem
    have hlow := (h.pushes p hmem).1
    have hwithin := h.within
    refine ⟨?_, ?_⟩
    · rw [h.index_push hmem, h.slots p.nth hlow hlt, if_pos (List.mem_map_of_mem hmem)]
    · intro j p' hne hp'
      have hmem' := List.mem_of_getElem? hp'
      have hlt' := h.nth_lt hmem'
      rw [h.index_push hmem, h.index_push hmem']
      refine h.slot_ne (h.pushes p' hmem').1 (by omega) hlow (by omega) fun heq => hne ?_
      -- pushes with one number are one push
      refine (List.getElem?_inj (l := s.pending.map Push.nth) ?_ h.nodup).mp ?_
      · rw [List.length_map]
        exact (List.getElem?_eq_some_iff.mp hp').1
      · rw [List.getElem?_map, List.getElem?_map, hp, hp', Option.map_some, Option.map_some, heq]

/-- A reservation finds fewer items than the queue was initialised for. -/
def HasRoom (qLen : UInt32) (s : QueueRun α) : QueueEvent α → Prop
  | .reserve _ => s.reserved.length < s.popped.length + qLen.toNat
  | .store _ | .load | .exchange => True

/-- For every queue initialised with a length from 1 to below `2 ^ 31`, and every interleaving of the accesses of any number of
pushers with those of the popper in which at most that many items are pushed, or being pushed, and not yet popped: in every state
reached the items popped are the first ones reserved, in order; all others are kept; a pop returns the null pointer only if the
queue is empty or the item at the head is not yet stored; and no store goes to a slot that holds or is reserved for another item. -/
theorem queue_keeps_order (qLen : UInt32) (hlt : qLen.toNat < 2 ^ 31) (q : Queue α) (hinit : queueInit qLen = some q)
    (events : List (QueueEvent α)) (hroom : Along queueStep (HasRoom qLen) (QueueRun.init q) events) :
    Throughout queueStep QueueSafe (QueueRun.init q) events := by
  unfold queueInit at hinit
  split at hinit
  · cases hinit
  · next hpos =>
    obtain rfl := Option.some.inj hinit
    obtain ⟨k, hk, hlen, hmask⟩ := nextPow2_spec hpos hlt
    have hinv := QueueInv.init (α := α) (q := ⟨fun _ => none, nextPow2 qLen - 1, 0, 0⟩) hk hlen hmask (fun _ => rfl) rfl rfl
    refine (throughout_of_along ?_ hinv hroom).imp fun s h => h.safe
    intro s e s' h hP hstep
    refine queueInv_step s e s' h ?_ hstep
    rintro item rfl
    exact hP

/-- The queue for two items. -/
def pairQueue : Queue Nat := ⟨fun _ => none, 3, 0, 0⟩

/-- Two pushes of which the second stores first. -/
def crossedPushes : List (QueueEvent Nat) :=
  [.reserve 7, .reserve 8, .store 1, .load, .exchange, .store 0, .load, .exchange, .load, .exchange]

/-- The first pop finds the item at the head missing. -/
theorem queue_keeps_order_crossed :
    Throughout queueStep QueueSafe (QueueRun.init pairQueue) crossedPushes ∧
      (run queueStep (QueueRun.init pairQueue) crossedPushes).map QueueRun.results = some [none, some 7, some 8] := by
  refine ⟨queue_keeps_order 2 (by decide) pairQueue ?_ crossedPushes ?_, by decide +kernel⟩
  · rw [queueInit, if_neg (by decide), show nextPow2 2 - 1 = 3 by decide +kernel]
    rfl
  · refine .cons ?_ rfl <| .cons ?_ rfl <| .cons trivial rfl <| .cons trivial rfl <| .cons trivial rfl <| .cons trivial rfl <|
      .cons trivial rfl <| .cons trivial rfl <| .cons trivial rfl <| .cons trivial rfl trivial
    · exact (by decide : 0 < 2)
    · exact (by decide : 1 < 2)

end AerospikeBenchmark
