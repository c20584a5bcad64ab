import AerospikeBenchmark.Transaction.Linear
import AerospikeBenchmark.Transaction.Operations
import AerospikeBenchmark.Transaction.Queue

/-!
# The items of an asynchronous stage

`do_async_workload` as far as it moves its items: the issuing thread with every access it makes to the queue, and the listeners of the
operations in flight, which run on other threads. Of the client library it is assumed that a call that returns OK runs its listener
once, at any later time, and that one that fails never does; the thread then runs the listener itself.
-/

namespace AerospikeBenchmark

open CText

/-- The asynchronous calls: `_write_record_async` and the others. -/
inductive AsyncCall where
  | writeRecord
  | batchWriteRecord
  | readRecord
  | batchReadRecord
  | applyUdf
deriving DecidableEq, Repr

/-- The call that performs an operation. -/
def asyncCall (s : Stage) : OpKind → AsyncCall
  | .read => if s.batchReadSize ≤ 1 then .readRecord else .batchReadRecord
  | .write => if s.batchWriteSize ≤ 1 then .writeRecord else .batchWriteRecord
  | .delete => if s.batchDeleteSize ≤ 1 then .writeRecord else .batchWriteRecord
  | .udf => .applyUdf

/-- Where the issuing thread stands. The linear loops carry `key_val`. -/
inductive IssuePhase (n : Nat) where
  /-- The first loop is about to push an item. -/
  | fill (i : Fin n)
  /-- The first loop has reserved the position of an item. -/
  | filling (i : Fin n)
  /-- At the test of the loop of the workload. -/
  | test (key : Nat)
  /-- In `queue_pop_wait`. -/
  | popWait (key : Nat)
  /-- With an item, before the call. -/
  | issue (key : Nat) (item : Fin n)
  /-- The call has failed and the listener is about to push the item. -/
  | failed (key : Nat) (item : Fin n)
  /-- That listener has reserved the position. -/
  | returning (key : Nat) (item : Fin n)
  /-- In the last loop, with the items popped there. -/
  | drain (popped : List (Fin n))
  /-- The queue and the items have been freed. -/
  | freed (popped : List (Fin n))
deriving DecidableEq, Repr

/-- The item whose push the issuing thread is in the middle of. -/
def IssuePhase.pushing {n : Nat} : IssuePhase n → Option (Fin n)
  | .filling i => some i
  | .returning _ item => some item
  | .fill _ | .test _ | .popWait _ | .issue _ _ | .failed _ _ | .drain _ | .freed _ => none

/-- The queue, the issuing thread and the operations in flight, each with its item. -/
structure ItemPool (n : Nat) where
  queue : QueueRun (Fin n)
  phase : IssuePhase n
  inFlight : List (AsyncCall × Fin n)

/-- `for (i = 0; i < n_adatas; i++)` at its test. -/
def nextFill (n : Nat) (s : Stage) (i : Nat) : IssuePhase n := if h : i < n then .fill ⟨i, h⟩ else .test s.keyStart

/-- The state after `queue_init`. -/
def ItemPool.init (n : Nat) (s : Stage) (q : Queue (Fin n)) : ItemPool n := ⟨QueueRun.init q, nextFill n s 0, []⟩

/-- `key_val` after a round. -/
def Stage.nextKey (s : Stage) (key : Nat) : Nat :=
  if s.workload.type.isInfinite then key else (linearBody s.linearBatchSize key).2

/-- The test of the loop of the workload: the random ones look at `do_work` only. -/
def Stage.goesOn (s : Stage) (doWork : Bool) (key : Nat) : Bool := doWork && (s.workload.type.isInfinite || key < s.keyEnd)

/-! ## Steps -/

/-- What can happen next. -/
inductive ItemEvent where
  /-- The issuing thread reserves a position. -/
  | push
  /-- The issuing thread stores; the argument names its push among those in progress. -/
  | store (i : Nat)
  /-- The issuing thread tests whether to go on. -/
  | test (doWork : Bool)
  /-- The first access of a pop. -/
  | load
  /-- The second access of a pop. -/
  | exchange
  /-- The issuing thread calls the client library, which draws a word and returns OK or an error. -/
  | call (word : Nat) (ok : Bool)
  /-- The listener of an operation in flight reserves a position. -/
  | listener (i : Nat)
  /-- The listener of an operation stores. -/
  | listenerStore (i : Nat)
  /-- The issuing thread frees the queue and the items. -/
  | free
deriving DecidableEq, Repr

/-- Whether the issuing thread is popping: in `queue_pop_wait`, or in the last loop with items to come. -/
def IssuePhase.pops {n : Nat} : IssuePhase n → Bool
  | .popWait _ => true
  | .drain popped => popped.length < n
  | .fill _ | .filling _ | .test _ | .issue _ _ | .failed _ _ | .returning _ _ | .freed _ => false

/-- The phase after a pop has returned. `queue_pop_wait` pops again when there was nothing. -/
def IssuePhase.popReturn {n : Nat} (phase : IssuePhase n) (result : Option (Fin n)) : IssuePhase n :=
  match phase, result with
  | .popWait key, some item => .issue key item
  | .drain popped, some item => .drain (popped ++ [item])
  | phase, _ => phase

variable {n : Nat}

/-- The first access of `queue_push` on the issuing thread. -/
def ItemPool.push (st : ItemPool n) : Option (ItemPool n) :=
  match st.phase with
  | .fill i => some { st with queue := st.queue.reserve i, phase := .filling i }
  | .failed key item => some { st with queue := st.queue.reserve item, phase := .returning key item }
  | _ => none

/-- The phase after the issuing thread has stored an item. -/
def IssuePhase.stored (s : Stage) : IssuePhase n → IssuePhase n
  | .filling i => nextFill n s (i + 1)
  | .returning key _ => .test (s.nextKey key)
  | phase => phase

/-- The second access of `queue_push` on the issuing thread. -/
def ItemPool.store (s : Stage) (st : ItemPool n) (i : Nat) : Option (ItemPool n) :=
  match st.queue.pending[i]? with
  | none => none
  | some p =>
    if st.phase.pushing = some p.item then some { st with queue := st.queue.store i p, phase := st.phase.stored s } else none

/-- The second access of `queue_push` on the thread of a listener. -/
def ItemPool.listenerStore (st : ItemPool n) (i : Nat) : Option (ItemPool n) :=
  match st.queue.pending[i]? with
  | none => none
  | some p => if st.phase.pushing = some p.item then none else some { st with queue := st.queue.store i p }

/-- The call with an item. -/
def ItemPool.call (s : Stage) (st : ItemPool n) (kind : OpKind) (ok : Bool) : Option (ItemPool n) :=
  match st.phase with
  | .issue key item =>
    some (if ok then { st with phase := .test (s.nextKey key), inFlight := st.inFlight ++ [(asyncCall s kind, item)] }
      else { st with phase := .failed key item })
  | _ => none

/-- A step of the stage. -/
def itemStep (cast : FpNum → Nat) (s : Stage) (st : ItemPool n) : ItemEvent → Option (ItemPool n)
  | .push => st.push
  | .store i => st.store s i
  | .test doWork =>
    match st.phase with
    | .test key => some { st with phase := if s.goesOn doWork key then .popWait key else .drain [] }
    | _ => none
  | .load => if st.phase.pops && !st.queue.popping then some { st with queue := st.queue.load } else none
  | .exchange =>
    if st.phase.pops && st.queue.popping then
      let result := st.queue.queue.items (st.queue.queue.index st.queue.queue.head)
      some { st with queue := st.queue.exchange, phase := st.phase.popReturn result }
    else none
  | .call word ok => st.call s (s.workload.choose cast (randomFp word)) ok
  | .listener i =>
    st.inFlight[i]?.map fun op => { st with queue := st.queue.reserve op.2, inFlight := st.inFlight.eraseIdx i }
  | .listenerStore i => st.listenerStore i
  | .free =>
    match st.phase with
    | .drain popped => if popped.length < n then none else some { st with phase := .freed popped }
    | _ => none

end AerospikeBenchmark
