import AerospikeBenchmark.Coordinator.Model

/-!
# A worker that cannot be created

`_run` when `pthread_create` fails for one of the workers. The main thread, which would have become the coordinator, tells the threads
it has created to exit and joins them one after the other, from the last worker to the first and then the output worker. The threads
that exist run as in `Coordinator.Model`, from the moment they are created.
-/

namespace AerospikeBenchmark

/-- Where the main thread is in `_run`, with the index `i` it has come to. -/
inductive MainPc (T : Nat) where
  /-- `pthread_create(&threads[i], ...)` -/
  | create (i : Nat)
  /-- `tdatas[i]->finished = true` -/
  | setFinished (i : Fin (T + 1))
  /-- `tdatas[i]->do_work = false` -/
  | clearDoWork (i : Fin (T + 1))
  /-- `pthread_join(threads[i], NULL)` -/
  | join (i : Fin (T + 1))
  | done
deriving DecidableEq, Repr

/-- A run in which not all workers are created: the threads, how many of the workers exist, and the main thread. -/
structure FailedRun (T : Nat) where
  threads : ProtocolState T
  created : Nat
  main : MainPc T

/-- The state when the output worker has been created. -/
def FailedRun.init (T : Nat) : FailedRun T := ⟨.init T, 0, .create 0⟩

/-- `i--` on a `uint32_t`, and back to the output worker when that leaves the threads. -/
def previousThread (T i : Nat) : Fin (T + 1) :=
  if h : (i + 2 ^ 32 - 1) % 2 ^ 32 < T + 1 then ⟨(i + 2 ^ 32 - 1) % 2 ^ 32, h⟩ else Fin.last T

/-- Whether thread `i` has returned. -/
def ProtocolState.exited {T : Nat} (s : ProtocolState T) (i : Fin (T + 1)) : Bool :=
  if h : i.val < T then (s.worker ⟨i, h⟩).pc = .exit else s.output.pc = .exit

namespace FailedRun

variable {T : Nat}

/-- The main thread writes to the shared memory and goes on. -/
def write (s : FailedRun T) (m : Shared T) (p : MainPc T) : FailedRun T := ⟨{ s.threads with shared := m }, s.created, p⟩

/-- One step of the main thread; `pthread_create` fails for worker `j`. -/
def mainStep (j : Nat) (s : FailedRun T) : Option (FailedRun T) :=
  let m := s.threads.shared
  match s.main with
  | .create i =>
    if i = j then some { s with main := .setFinished (previousThread T i) }
    else some { s with created := i + 1, main := .create (i + 1) }
  | .setFinished i => some (s.write { m with finished := Function.update m.finished i true } (.clearDoWork i))
  | .clearDoWork i => some (s.write { m with doWork := Function.update m.doWork i false } (.join i))
  | .join i =>
    if s.threads.exited i then some { s with main := if i = Fin.last T then .done else .setFinished (previousThread T i) }
    else none
  | .done => none

/-- One step of the chosen thread. A worker takes steps once it is created; the coordinator is the main thread. -/
def step (c : RunConfig) (j : Nat) (s : FailedRun T) : Choice T → Option (FailedRun T)
  | .worker w => if w.val < s.created then (s.threads.next c (.worker w)).map fun t => { s with threads := t } else none
  | .output timeUp => (s.threads.next c (.output timeUp)).map fun t => { s with threads := t }
  | .coord => s.mainStep j

end FailedRun

end AerospikeBenchmark
