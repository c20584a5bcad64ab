import AerospikeBenchmark.Lib.Ring
import AerospikeBenchmark.Lib.Runs

/-!
# The queue

`queue_t`, a ring with one popper and any number of pushers, and the machine of its interleavings: every atomic access is a step.
A push reserves a position and then stores its item. A pop reads `pos` and then exchanges the slot at the head; `head` belongs to the
popper alone.
-/

namespace AerospikeBenchmark

/-- `queue_t`. An empty slot holds the null pointer. -/
structure Queue (α : Type) where
  items : UInt32 → Option α
  lenMask : UInt32
  pos : UInt32
  head : UInt32

/-- `__builtin_clz`, for a number that is not zero. -/
def clz32 (n : UInt32) : Nat := 31 - n.toNat.log2

/-- `next_pow2`. -/
def nextPow2 (n : UInt32) : UInt32 := UInt32.ofNat (0x80000000 >>> (clz32 n - 1))

/-- `queue_init`. -/
def queueInit {α : Type} (qLen : UInt32) : Option (Queue α) :=
  if qLen = 0 then none else some ⟨fun _ => none, nextPow2 qLen - 1, 0, 0⟩

/-- The slot of a counter. -/
def Queue.index {α : Type} (q : Queue α) (counter : UInt32) : UInt32 := counter &&& q.lenMask

/-! ## The machine -/

/-- A push that has reserved its position and not yet stored its item. The number of the reservation is not known to the code. -/
structure Push (α : Type) where
  nth : Nat
  pos : UInt32
  item : α
deriving DecidableEq, Repr

/-- The queue with the pushes in progress and whether the popper stands between its two accesses. What has been reserved and what
the pops have returned is kept beside it. -/
structure QueueRun (α : Type) where
  queue : Queue α
  pending : List (Push α)
  popping : Bool
  reserved : List α
  results : List (Option α)

/-- The state after `queue_init`. -/
def QueueRun.init {α : Type} (q : Queue α) : QueueRun α := ⟨q, [], false, [], []⟩

/-- The items that pops have returned. -/
def QueueRun.popped {α : Type} (s : QueueRun α) : List α := s.results.filterMap id

variable {α : Type}

/-- `atomic_fetch_add(&q->pos, 1)` of a push. -/
def QueueRun.reserve (s : QueueRun α) (item : α) : QueueRun α :=
  { s with
    queue := { s.queue with pos := s.queue.pos + 1 }
    pending := s.pending ++ [⟨s.reserved.length, s.queue.pos, item⟩]
    reserved := s.reserved ++ [item] }

/-- The store of a push, the `i`-th of those in progress. -/
def QueueRun.store (s : QueueRun α) (i : Nat) (p : Push α) : QueueRun α :=
  { s with
    queue := { s.queue with items := Function.update s.queue.items (s.queue.index p.pos) (some p.item) }
    pending := s.pending.eraseIdx i }

/-- A pop that finds `head` and `pos` equal returns the null pointer. -/
def QueueRun.load (s : QueueRun α) : QueueRun α :=
  if s.queue.head ≠ s.queue.pos then { s with popping := true } else { s with results := s.results ++ [none] }

/-- `atomic_exchange` of a pop, with the update of `head` and the return. -/
def QueueRun.exchange (s : QueueRun α) : QueueRun α :=
  let item := s.queue.items (s.queue.index s.queue.head)
  { s with
    queue := { s.queue with
      items := Function.update s.queue.items (s.queue.index s.queue.head) none
      head := s.queue.head + if item.isSome then 1 else 0 }
    popping := false
    results := s.results ++ [item] }

/-- The accesses to the queue. -/
inductive QueueEvent (α : Type) where
  | reserve (item : α)
  | store (i : Nat)
  | load
  | exchange
deriving DecidableEq, Repr

/-- A step. -/
def queueStep (s : QueueRun α) : QueueEvent α → Option (QueueRun α)
  | .reserve item => some (s.reserve item)
  | .store i => s.pending[i]?.map (s.store i)
  | .load => if s.popping then none else some s.load
  | .exchange => if s.popping then some s.exchange else none

/-- What a step does. -/
theorem queueStep_cases {s s' : QueueRun α} {e : QueueEvent α} (h : queueStep s e = some s') :
    (∃ item, e = .reserve item ∧ s' = s.reserve item) ∨
    (∃ i p, e = .store i ∧ s.pending[i]? = some p ∧ s' = s.store i p) ∨
    (e = .load ∧ s.popping = false ∧ s' = s.load) ∨
    (e = .exchange ∧ s.popping = true ∧ s' = s.exchange) := by
  cases e with
  | reserve item => exact .inl ⟨item, rfl, (Option.some.inj h).symm⟩
  | store i =>
    obtain ⟨p, hp, rfl⟩ := Option.map_eq_some_iff.mp h
    exact .inr (.inl ⟨i, p, rfl, hp, rfl⟩)
  | load =>
    simp only [queueStep] at h
    split at h
    · cases h
    · next hidle => exact .inr (.inr (.inl ⟨rfl, Bool.of_not_eq_true hidle, (Option.some.inj h).symm⟩))
  | exchange =>
    simp only [queueStep] at h
    split at h
    · next hmid => exact .inr (.inr (.inr ⟨rfl, hmid, (Option.some.inj h).symm⟩))
    · cases h

end AerospikeBenchmark
