import AerospikeBenchmark.Lib.Barrier
import AerospikeBenchmark.Transaction.Linear

/-!
# The stage protocol

The coordinator, the transaction workers and the output worker as processes over shared memory: the counter of unfinished threads,
the flags and the stage index of each thread, and the barrier. A process takes one step at a time: a call of
`thr_coordinator_complete`, an arrival at the barrier, a return from it, or one read or write of the shared fields. Reads whose
result is not used (the sleeps of a worker between two transactions) and the transactions themselves are not steps of the model.

Besides its program counter each process keeps a history the program does not have: how often it went through its main loop, how
often it declared itself complete and, for a worker, the stages whose work it began.
-/

namespace AerospikeBenchmark

/-- What a run is started with: the stages, at least one of them. -/
structure RunConfig where
  stages : List Stage
  nonempty : stages ≠ []

/-- The shared memory of a run with `T` workers. The flags of thread `i < T` are those of worker `i`, the last ones those of the
output worker. -/
structure Shared (T : Nat) where
  unfinishedThreads : Int
  doWork : Fin (T + 1) → Bool
  finished : Fin (T + 1) → Bool
  stageIdx : Fin (T + 1) → Nat
  barrier : Barrier

/-- `thr_coordinator_complete`. -/
def Shared.complete {T : Nat} (m : Shared T) : Shared T := { m with unfinishedThreads := m.unfinishedThreads - 1 }

/-- A call of `pthread_barrier_wait`, up to the point where the caller is blocked. -/
def Shared.arrive {T : Nat} (m : Shared T) : Shared T := { m with barrier := m.barrier.arrive }

/-! ## Transaction workers -/

/-- Where a worker is. The work on stage `j` carries `j`. -/
inductive WorkerPc where
  /-- `while (!tdata->finished)` -/
  | top
  /-- `stage_idx = tdata->stage_idx` -/
  | readStage
  /-- The loop of a linear routine. -/
  | linear (j key endKey : Nat)
  /-- `thr_coordinator_complete` at the end of a linear routine, or of the threads that an asynchronous stage does not use. -/
  | completeLast (j : Nat)
  /-- `thr_coordinator_complete` at the start of a random routine. -/
  | completeFirst (j : Nat)
  /-- The loop of a random routine. -/
  | random (j : Nat)
  /-- Waiting for the asynchronous calls to finish. -/
  | drain (j : Nat)
  /-- `if (tdata->finished)` after the work. -/
  | check (j : Nat)
  | arrive1
  | wait1 (round : Nat)
  | arrive2
  | wait2 (round : Nat)
  | exit
  /-- A stage past the end of the list was read. -/
  | fault
deriving DecidableEq, Repr

/-- A worker with its history. -/
structure Worker where
  pc : WorkerPc
  iter : Nat
  completions : Nat
  log : List Nat

/-- The start of the work on stage `j` by worker `w` of `T`: `do_async_workload` or `do_sync_workload`. -/
def beginStage (T : Nat) (st : Stage) (w j : Nat) : WorkerPc :=
  if st.async ∧ w ≠ 0 then .completeLast j
  else
    match st.workload.type with
    | .i | .d =>
      if st.async then .linear j st.keyStart st.keyEnd
      else .linear j (calculateSubrange st.keyStart st.keyEnd w T).1 (calculateSubrange st.keyStart st.keyEnd w T).2
    | .ru | .rr | .ruf | .rud => .completeFirst j

/-- The end of the work on stage `j`: the issuing thread of an asynchronous stage waits for its calls. -/
def endStage (c : RunConfig) (w j : Nat) : WorkerPc :=
  if (c.stages[j]?.any fun st => st.async) ∧ w = 0 then .drain j else .check j

/-- One step of `transaction_worker`, nothing while it is blocked. -/
def workerStep (c : RunConfig) {T : Nat} (w : Fin T) (m : Shared T) (x : Worker) : Option (Shared T × Worker) :=
  match x.pc with
  | .top => some (m, { x with pc := if m.finished w.castSucc then .exit else .readStage })
  | .readStage =>
    match c.stages[m.stageIdx w.castSucc]? with
    | none => some (m, { x with pc := .fault })
    | some st => some (m, { x with pc := beginStage T st w (m.stageIdx w.castSucc), log := x.log ++ [m.stageIdx w.castSucc] })
  | .linear j key endKey =>
    if m.doWork w.castSucc ∧ key < endKey then
      let b := (c.stages[j]?.map Stage.linearBatchSize).getD 1
      some (m, { x with pc := .linear j (linearBody b key).2 endKey })
    else some (m, { x with pc := .completeLast j })
  | .completeLast j => some (m.complete, { x with pc := endStage c w j, completions := x.completions + 1 })
  | .completeFirst j => some (m.complete, { x with pc := .random j, completions := x.completions + 1 })
  | .random j => some (m, { x with pc := if m.doWork w.castSucc then .random j else endStage c w j })
  | .drain j => some (m, { x with pc := .check j })
  | .check _ => some (m, { x with pc := if m.finished w.castSucc then .exit else .arrive1 })
  | .arrive1 => some (m.arrive, { x with pc := .wait1 m.barrier.round })
  | .wait1 r => if m.barrier.round = r then none else some (m, { x with pc := .arrive2 })
  | .arrive2 => some (m.arrive, { x with pc := .wait2 m.barrier.round })
  | .wait2 r => if m.barrier.round = r then none else some (m, { x with pc := .top, iter := x.iter + 1 })
  | .exit | .fault => none

/-! ## The output worker -/

/-- Where the output worker is. -/
inductive OutputPc where
  /-- `thr_coordinator_complete` -/
  | complete
  /-- In `thr_coordinator_sleep`. -/
  | sleep
  /-- `while (!tdata->finished)`, with the status of the last sleep. -/
  | top (interrupted : Bool)
  | arrive1
  | wait1 (round : Nat)
  | arrive2
  | wait2 (round : Nat)
  /-- `if (!tdata->finished)` after the barrier. -/
  | check
  | exit
deriving DecidableEq, Repr

/-- The output worker with its history. -/
structure Output where
  pc : OutputPc
  iter : Nat
  completions : Nat

/-- One step of `periodic_output_worker`. `timeUp` tells whether the time of a sleep is over. -/
def outputStep {T : Nat} (timeUp : Bool) (m : Shared T) (x : Output) : Option (Shared T × Output) :=
  match x.pc with
  | .complete => some (m.complete, { x with pc := .sleep, completions := x.completions + 1 })
  | .sleep =>
    if m.unfinishedThreads = 0 then some (m, { x with pc := .top true })
    else if timeUp then some (m, { x with pc := .top false })
    else none
  | .top interrupted =>
    some (m, { x with pc := if m.finished (Fin.last T) then .exit else if interrupted then .arrive1 else .sleep })
  | .arrive1 => some (m.arrive, { x with pc := .wait1 m.barrier.round })
  | .wait1 r => if m.barrier.round = r then none else some (m, { x with pc := .arrive2 })
  | .arrive2 => some (m.arrive, { x with pc := .wait2 m.barrier.round })
  | .wait2 r => if m.barrier.round = r then none else some (m, { x with pc := .check, iter := x.iter + 1 })
  | .check => some (m, { x with pc := if m.finished (Fin.last T) then .exit else .complete })
  | .exit => none

/-! ## The coordinator -/

/-- Where the coordinator is. A loop over the threads carries the index it has come to. -/
inductive CoordPc where
  /-- `_sleep_for(stage->duration)` -/
  | sleep
  /-- The decrement of `_finish_req_duration`. -/
  | finish
  /-- The wait loop of `_finish_req_duration`. -/
  | waiting
  /-- `_halt_threads` -/
  | halt (i : Nat)
  | arrive1
  | wait1 (round : Nat)
  /-- `stage_idx++` -/
  | advance
  /-- `tdatas[t_idx]->stage_idx = stage_idx` -/
  | setStage (i : Nat)
  /-- `coord->unfinished_threads = n_threads + 1` -/
  | reset
  /-- `_release_threads` -/
  | release (i : Nat)
  | arrive2
  | wait2 (round : Nat)
  /-- `_terminate_threads` -/
  | terminate (i : Nat)
  | arriveEnd
  | waitEnd (round : Nat)
  | exit
deriving DecidableEq, Repr

/-- The coordinator with its history. -/
structure Coord where
  pc : CoordPc
  stageIdx : Nat
  iter : Nat
  completions : Nat

/-- `for (i = 0; i < n_threads; i++)`: at index `i` the body and the next index, past the end what follows the loop. -/
def overThreads {T : Nat} {α : Type} (i : Nat) (body : Fin (T + 1) → α) (next : α) : α :=
  if h : i < T + 1 then body ⟨i, h⟩ else next

/-- One step of `coordinator_worker`, nothing while it is blocked. -/
def coordStep (c : RunConfig) {T : Nat} (m : Shared T) (x : Coord) : Option (Shared T × Coord) :=
  match x.pc with
  | .sleep => some (m, { x with pc := .finish })
  | .finish => some (m.complete, { x with
      pc := if m.complete.unfinishedThreads = 0 then .halt 0 else .waiting, completions := x.completions + 1 })
  | .waiting => if m.unfinishedThreads = 0 then some (m, { x with pc := .halt 0 }) else none
  | .halt i => some (overThreads i
      (fun j => ({ m with doWork := Function.update m.doWork j false }, { x with pc := .halt (i + 1) }))
      (m, { x with pc := .arrive1 }))
  | .arrive1 => some (m.arrive, { x with pc := .wait1 m.barrier.round })
  | .wait1 r => if m.barrier.round = r then none else some (m, { x with pc := .advance })
  | .advance => some (m, { x with
      pc := if x.stageIdx + 1 = c.stages.length then .terminate 0 else .setStage 0, stageIdx := x.stageIdx + 1 })
  | .setStage i => some (overThreads i
      (fun j => ({ m with stageIdx := Function.update m.stageIdx j x.stageIdx }, { x with pc := .setStage (i + 1) }))
      (m, { x with pc := .reset }))
  | .reset => some ({ m with unfinishedThreads := (T + 1 : Nat) + 1 }, { x with pc := .release 0 })
  | .release i => some (overThreads i
      (fun j => ({ m with doWork := Function.update m.doWork j true }, { x with pc := .release (i + 1) }))
      (m, { x with pc := .arrive2 }))
  | .arrive2 => some (m.arrive, { x with pc := .wait2 m.barrier.round })
  | .wait2 r => if m.barrier.round = r then none else some (m, { x with pc := .sleep, iter := x.iter + 1 })
  | .terminate i => some (overThreads i
      (fun j => ({ m with finished := Function.update m.finished j true }, { x with pc := .terminate (i + 1) }))
      (m, { x with pc := .arriveEnd }))
  | .arriveEnd => some (m.arrive, { x with pc := .waitEnd m.barrier.round })
  | .waitEnd r => if m.barrier.round = r then none else some (m, { x with pc := .exit })
  | .exit => none

/-! ## The system -/

/-- All processes and the memory they share. -/
structure ProtocolState (T : Nat) where
  shared : Shared T
  worker : Fin T → Worker
  output : Output
  coord : Coord

/-- The state after `thr_coordinator_init`, when the threads have been created. -/
def ProtocolState.init (T : Nat) : ProtocolState T where
  shared := ⟨(T + 1 : Nat) + 1, fun _ => true, fun _ => false, fun _ => 0, ⟨(T + 1) + 1, 0, 0⟩⟩
  worker _ := ⟨.top, 0, 0, []⟩
  output := ⟨.complete, 0, 0⟩
  coord := ⟨.sleep, 0, 0, 0⟩

/-- One step of one of the processes. -/
inductive ProtocolStep (c : RunConfig) {T : Nat} (s : ProtocolState T) : ProtocolState T → Prop where
  | worker (w : Fin T) (m : Shared T) (x : Worker) (h : workerStep c w s.shared (s.worker w) = some (m, x)) :
      ProtocolStep c s { s with shared := m, worker := Function.update s.worker w x }
  | output (timeUp : Bool) (m : Shared T) (x : Output) (h : outputStep timeUp s.shared s.output = some (m, x)) :
      ProtocolStep c s { s with shared := m, output := x }
  | coord (m : Shared T) (x : Coord) (h : coordStep c s.shared s.coord = some (m, x)) :
      ProtocolStep c s { s with shared := m, coord := x }

/-- Which process takes the next step. -/
inductive Choice (T : Nat) where
  | worker (w : Fin T)
  | output (timeUp : Bool)
  | coord
deriving DecidableEq, Repr

/-- The step of the chosen process, nothing when it is blocked. -/
def ProtocolState.next (c : RunConfig) {T : Nat} (s : ProtocolState T) : Choice T → Option (ProtocolState T)
  | .worker w => (workerStep c w s.shared (s.worker w)).map fun r =>
      { s with shared := r.1, worker := Function.update s.worker w r.2 }
  | .output timeUp => (outputStep timeUp s.shared s.output).map fun r => { s with shared := r.1, output := r.2 }
  | .coord => (coordStep c s.shared s.coord).map fun r => { s with shared := r.1, coord := r.2 }

/-- The state a schedule leads to. -/
def ProtocolState.run (c : RunConfig) {T : Nat} (s : ProtocolState T) : List (Choice T) → Option (ProtocolState T)
  | [] => some s
  | ch :: chs => (s.next c ch).bind fun s' => s'.run c chs

/-- A state some interleaving leads to. -/
def Reachable (c : RunConfig) {T : Nat} (s : ProtocolState T) : Prop :=
  Relation.ReflTransGen (ProtocolStep c) (ProtocolState.init T) s

theorem ProtocolState.next_step {c : RunConfig} {T : Nat} {s s' : ProtocolState T} {ch : Choice T} (h : s.next c ch = some s') :
    ProtocolStep c s s' := by
  cases ch with
  | worker w =>
    obtain ⟨r, hr, rfl⟩ := Option.map_eq_some_iff.mp h
    exact .worker w r.1 r.2 hr
  | output timeUp =>
    obtain ⟨r, hr, rfl⟩ := Option.map_eq_some_iff.mp h
    exact .output timeUp r.1 r.2 hr
  | coord =>
    obtain ⟨r, hr, rfl⟩ := Option.map_eq_some_iff.mp h
    exact .coord r.1 r.2 hr

/-- Every schedule leads to reachable states. -/
theorem Reachable.run {c : RunConfig} {T : Nat} {s s' : ProtocolState T} (hs : Reachable c s) (chs : List (Choice T))
    (h : s.run c chs = some s') : Reachable c s' := by
  induction chs generalizing s with
  | nil => exact Option.some.inj h ▸ hs
  | cons ch chs ih =>
    obtain ⟨t, ht, hrun⟩ := Option.bind_eq_some_iff.mp h
    exact ih (hs.tail (ProtocolState.next_step ht)) hrun

end AerospikeBenchmark
