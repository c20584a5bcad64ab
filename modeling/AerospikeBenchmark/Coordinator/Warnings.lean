import AerospikeBenchmark.Transaction.Linear

/-!
# The coordinator's warnings about the keys of a stage

Before it starts a linear stage, `coordinator_worker` compares the number of keys with the batch size and the number of workers, and
warns when more records than keys will be written or deleted.
-/

namespace AerospikeBenchmark

/-- What a linear stage does with its records. -/
inductive LinearOp where
  | write
  | delete
deriving DecidableEq, Repr

def LinearOp.batchOption : LinearOp → String
  | .write => "--batch-write-size"
  | .delete => "--batch-delete-size"

def LinearOp.participle : LinearOp → String
  | .write => "written"
  | .delete => "deleted"

/-- The warnings about the number of keys. -/
inductive KeyWarning where
  | batchNotDivisor (op : LinearOp)
  | productTooLarge (op : LinearOp)
  | productNotDivisor (op : LinearOp)
deriving DecidableEq, Repr

def KeyWarning.op : KeyWarning → LinearOp
  | .batchNotDivisor op | .productTooLarge op | .productNotDivisor op => op

/-- The reason that a warning gives. -/
def KeyWarning.cause : KeyWarning → String
  | .batchNotDivisor op => "--keys is not divisible by " ++ op.batchOption
  | .productTooLarge op => op.batchOption ++ " * --threads is greater than --keys"
  | .productNotDivisor op => "--keys is not divisible by (" ++ op.batchOption ++ " * --threads)"

/-- The text passed to `blog_warn`. -/
def KeyWarning.text (w : KeyWarning) : String :=
  w.cause ++ " so more than --keys records will be " ++ w.op.participle ++ "\n"

/-- The warnings for a stage of one kind, or no value when a division by zero stops the process: the product of the batch size and
the number of workers is one of 32-bit numbers. -/
def linearWarnings (op : LinearOp) (async : Bool) (batchSize workerThreads nkeys : Nat) : Option (List KeyWarning) :=
  if async then
    if batchSize = 0 then none
    else some (if nkeys % batchSize ≠ 0 then [.batchNotDivisor op] else [])
  else
    let product := batchSize * workerThreads % 2 ^ 32
    if product = 0 then none
    else some ((if product > nkeys then [.productTooLarge op] else []) ++
      if nkeys % product ≠ 0 then [.productNotDivisor op] else [])

/-- What `coordinator_worker` prints about the keys of a stage before it starts it. -/
def coordinatorWarnings (s : Stage) (workerThreads : Nat) : Option (List KeyWarning) :=
  let nkeys := (s.keyEnd + 2 ^ 64 - s.keyStart) % 2 ^ 64
  match s.workload.type with
  | .i => linearWarnings .write s.async s.batchWriteSize workerThreads nkeys
  | .d => linearWarnings .delete s.async s.batchDeleteSize workerThreads nkeys
  | .ru | .rr | .ruf | .rud => some []

/-! ## When a warning is printed -/

/-- The number of threads that work on a linear stage: an asynchronous one is the work of one thread. -/
def Stage.issuers (s : Stage) (T : Nat) : Nat := if s.async then 1 else T

/-- The divisor that the number of keys is compared with. -/
def Stage.warningDivisor (s : Stage) (T : Nat) : Nat :=
  if s.async then s.linearBatchSize else s.linearBatchSize * T % 2 ^ 32

/-- A warning is printed exactly when the divisor does not divide the number of keys: a product above that number does not divide
it either. -/
theorem linearWarnings_ne_nil {op : LinearOp} {async : Bool} {b T nkeys : Nat} (hkeys : 0 < nkeys) {ws : List KeyWarning}
    (h : linearWarnings op async b T nkeys = some ws) :
    ws ≠ [] ↔ ¬ (if async then b else b * T % 2 ^ 32) ∣ nkeys := by
  unfold linearWarnings at h
  cases async with
  | true =>
    simp only [if_true] at h ⊢
    split_ifs at h with hzero hmod
    · cases h
      rw [Nat.dvd_iff_mod_eq_zero]
      simpa using hmod
    · cases h
      rw [Nat.dvd_iff_mod_eq_zero]
      simpa using hmod
  | false =>
    simp only [Bool.false_eq_true, if_false] at h ⊢
    generalize b * T % 2 ^ 32 = product at h ⊢
    split_ifs at h with hzero hlarge hmod hmod
    all_goals cases h
    · simpa [Nat.dvd_iff_mod_eq_zero] using hmod
    · have hdvd : product ∣ nkeys := Nat.dvd_of_mod_eq_zero (not_not.mp hmod)
      exact absurd (Nat.le_of_dvd hkeys hdvd) (by omega)
    · simpa [Nat.dvd_iff_mod_eq_zero] using hmod
    · simpa [Nat.dvd_iff_mod_eq_zero] using hmod

theorem linearWarnings_isSome (op : LinearOp) (async : Bool) (b T nkeys : Nat) :
    (∃ ws, linearWarnings op async b T nkeys = some ws) ↔ (if async then b else b * T % 2 ^ 32) ≠ 0 := by
  unfold linearWarnings
  cases async with
  | true => by_cases hb : b = 0 <;> simp [hb]
  | false =>
    generalize b * T % 2 ^ 32 = product
    by_cases hp : product = 0 <;> simp [hp]

end AerospikeBenchmark
