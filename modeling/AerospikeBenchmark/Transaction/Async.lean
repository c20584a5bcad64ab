import AerospikeBenchmark.Lib.Runs
import AerospikeBenchmark.Transaction.Operations

/-!
# Asynchronous stages

`do_async_workload` as a machine. Its items (`struct async_data_s`) are taken from a queue for one operation each and put back by
the listener when the operation completes, with the tag their last operation left. A call that fails at once runs its listener
directly, which is a completion like any other. Keys and event loops are left out.
-/

namespace AerospikeBenchmark

open CText

/-- `struct async_data_s`: the tag, which is unset at first, and the time of the call. -/
structure AsyncData where
  op : Option OpTag
  startTime : Nat
deriving DecidableEq, Repr

/-! ## Issuing an operation -/

/-- `random_read_async`. -/
def randomReadAsync (now : Nat) (_ : AsyncData) : AsyncData := ⟨some .readOp, now⟩

/-- `random_write_async` and the body of `linear_writes_async`. -/
def randomWriteAsync (now : Nat) (_ : AsyncData) : AsyncData := ⟨some .writeOp, now⟩

/-- `random_udf_async`. -/
def randomUdfAsync (now : Nat) (_ : AsyncData) : AsyncData := ⟨some .udfOp, now⟩

/-- The body of `linear_deletes_async`. -/
def linearDeleteAsync (now : Nat) (_ : AsyncData) : AsyncData := ⟨some .deleteOp, now⟩

/-- `random_delete_async`: only the branch for a single record sets the tag. -/
def randomDeleteAsync (s : Stage) (now : Nat) (a : AsyncData) : AsyncData :=
  if s.batchDeleteSize ≤ 1 then ⟨some .writeOp, now⟩ else { a with startTime := now }

/-- The item after an operation of a stage has been issued with it. -/
def issueAsync (s : Stage) : OpKind → Nat → AsyncData → AsyncData
  | .read => randomReadAsync
  | .write => randomWriteAsync
  | .delete => if s.workload.type = .d then linearDeleteAsync else randomDeleteAsync s
  | .udf => randomUdfAsync

/-! ## The machine -/

/-- A completed operation: what was issued, the tag the listener saw, the status and the latency. -/
structure Completion where
  kind : OpKind
  op : Option OpTag
  status : AsStatus
  dtUs : Nat
deriving DecidableEq, Repr

/-- The result to account for a completed operation. -/
def Completion.result (c : Completion) : OpResult := ⟨c.kind.opClass, c.status, c.dtUs⟩

/-- The state of an asynchronous stage with `n` items: the items, the queue, the operation each item is out for, and the
operations completed so far. -/
structure AsyncState (n : Nat) where
  items : Fin n → AsyncData
  queue : List (Fin n)
  inFlight : Fin n → Option OpKind
  cdata : CData
  completed : List Completion

/-- The state when the stage begins: all items are queued. Their memory is not cleared, so that any tags can be found in it. -/
def AsyncState.init {n : Nat} (items : Fin n → AsyncData) (cd : CData) : AsyncState n :=
  ⟨items, List.finRange n, fun _ => none, cd, []⟩

/-- What can happen next. -/
inductive AsyncEvent (n : Nat) where
  /-- The issuing thread takes the next item and performs a round, drawing a word. -/
  | issue (word now : Nat)
  /-- The operation of an item completes. -/
  | complete (i : Fin n) (status : AsStatus) (now : Nat)
deriving DecidableEq, Repr

/-- The item of the next operation goes out. -/
def AsyncState.issue {n : Nat} (s : Stage) (st : AsyncState n) (i : Fin n) (rest : List (Fin n)) (k : OpKind) (now : Nat) :
    AsyncState n :=
  { st with
    items := Function.update st.items i (issueAsync s k now (st.items i))
    queue := rest
    inFlight := Function.update st.inFlight i (some k) }

/-- The listener runs for an item, accounts for the operation under the item's tag and puts the item back. -/
def AsyncState.complete {n : Nat} (st : AsyncState n) (i : Fin n) (k : OpKind) (status : AsStatus) (now : Nat) : AsyncState n :=
  let dtUs := (now + 2 ^ 64 - (st.items i).startTime) % 2 ^ 64
  { st with
    queue := st.queue ++ [i]
    inFlight := Function.update st.inFlight i none
    cdata := asyncListener (st.items i).op status.err dtUs st.cdata
    completed := st.completed ++ [⟨k, (st.items i).op, status, dtUs⟩] }

/-- A step of the stage. -/
def asyncStep {n : Nat} (cast : FpNum → Nat) (s : Stage) (st : AsyncState n) : AsyncEvent n → Option (AsyncState n)
  | .issue word now =>
    match st.queue with
    | [] => none
    | i :: rest => some (st.issue s i rest (s.workload.choose cast (randomFp word)) now)
  | .complete i status now =>
    match st.inFlight i with
    | none => none
    | some k => some (st.complete i k status now)

/-- What a step does. -/
theorem asyncStep_cases {n : Nat} {cast : FpNum → Nat} {s : Stage} {st st' : AsyncState n} {e : AsyncEvent n}
    (h : asyncStep cast s st e = some st') :
    (∃ word now i rest, e = .issue word now ∧ st.queue = i :: rest ∧
      st' = st.issue s i rest (s.workload.choose cast (randomFp word)) now) ∨
    (∃ i status now k, e = .complete i status now ∧ st.inFlight i = some k ∧ st' = st.complete i k status now) := by
  cases e with
  | issue word now =>
    cases hq : st.queue with
    | nil => simp [asyncStep, hq] at h
    | cons i rest =>
      simp only [asyncStep, hq, Option.some.injEq] at h
      exact .inl ⟨word, now, i, rest, rfl, rfl, h.symm⟩
  | complete i status now =>
    cases hf : st.inFlight i with
    | none => simp [asyncStep, hf] at h
    | some k =>
      simp only [asyncStep, hf, Option.some.injEq] at h
      exact .inr ⟨i, status, now, k, rfl, hf, h.symm⟩

end AerospikeBenchmark
