import AerospikeBenchmark.Coordinator.Model
import AerospikeBenchmark.Transaction.Accounting

/-!
# The stage protocol with its work

The stage protocol again, now with what the threads do between its steps: the workers call the database, the results are counted,
the output worker takes the counters one by one whenever it wakes up, and the coordinator clears them between two stages.

A call is under way until it is answered. A worker waits for the answer of a synchronous call; the answers of asynchronous calls are
counted by the listener, on a thread of the event loop, and the issuing worker waits for all of them at the end of the stage. The
answers come in any order, with any status.

Beside the state of the program there is again a history: the calls made with their keys, the counter each answer was counted under,
what the output worker took, and what the coordinator cleared.
-/

namespace AerospikeBenchmark

/-! ## Counters -/

/-- The ten counters. -/
inductive CounterId where
  | write
  | writeTimeout
  | writeError
  | readHit
  | readMiss
  | readTimeout
  | readError
  | udf
  | udfTimeout
  | udfError
deriving DecidableEq, Repr

/-- The order in which `periodic_output_worker` takes the counters. -/
def CounterId.order : List CounterId :=
  [.write, .writeTimeout, .writeError, .readHit, .readMiss, .readTimeout, .readError, .udf, .udfTimeout, .udfError]

namespace Counters

/-- The value of a counter. -/
def get (n : Counters) : CounterId → UInt64
  | .write => n.writeCount
  | .writeTimeout => n.writeTimeoutCount
  | .writeError => n.writeErrorCount
  | .readHit => n.readHitCount
  | .readMiss => n.readMissCount
  | .readTimeout => n.readTimeoutCount
  | .readError => n.readErrorCount
  | .udf => n.udfCount
  | .udfTimeout => n.udfTimeoutCount
  | .udfError => n.udfErrorCount

/-- A counter is written. -/
def set (n : Counters) (k : CounterId) (v : UInt64) : Counters :=
  match k with
  | .write => { n with writeCount := v }
  | .writeTimeout => { n with writeTimeoutCount := v }
  | .writeError => { n with writeErrorCount := v }
  | .readHit => { n with readHitCount := v }
  | .readMiss => { n with readMissCount := v }
  | .readTimeout => { n with readTimeoutCount := v }
  | .readError => { n with readErrorCount := v }
  | .udf => { n with udfCount := v }
  | .udfTimeout => { n with udfTimeoutCount := v }
  | .udfError => { n with udfErrorCount := v }

@[simp] theorem get_zero (k : CounterId) : ({} : Counters).get k = 0 := by
  cases k <;> rfl

theorem get_set (n : Counters) (k l : CounterId) (v : UInt64) : (n.set k v).get l = if l = k then v else n.get l := by
  cases k <;> cases l <;> rfl

end Counters

/-! ## Calls -/

/-- The synchronous routines. -/
inductive SyncKind where
  | write
  | batchWrite
  | read
  | batchRead
  | udf
deriving DecidableEq, Repr

/-- A call: by which synchronous routine, or asynchronous with which tag on its item. -/
inductive CallKind where
  | sync (kind : SyncKind)
  | async (op : Option OpTag)
deriving DecidableEq, Repr

namespace CallKind

/-- Whether the caller waits for the answer. -/
def isSync : CallKind → Bool
  | .sync _ => true
  | .async _ => false

/-- What the routine or the listener does with the answer. -/
def account : CallKind → AsStatus → Nat → CData → CData
  | .sync .write, status => writeRecordSync status
  | .sync .batchWrite, status => batchWriteRecordSync status
  | .sync .read, status => readRecordSync status
  | .sync .batchRead, status => batchReadRecordSync status
  | .sync .udf, status => applyUdfSync status
  | .async op, status => asyncListener op status.err

/-- The class a call is counted under. -/
def opClass : CallKind → OpClass
  | .sync .write | .sync .batchWrite => .write
  | .sync .read | .sync .batchRead => .read
  | .sync .udf => .udf
  | .async op => tagClass op

end CallKind

/-- The counter of the successes of a class. -/
def OpClass.success : OpClass → CounterId
  | .read => .readHit
  | .write => .write
  | .udf => .udf

/-- The counter of the timeouts of a class. -/
def OpClass.timeout : OpClass → CounterId
  | .read => .readTimeout
  | .write => .writeTimeout
  | .udf => .udfTimeout

/-- The counter of the other errors of a class. -/
def OpClass.error : OpClass → CounterId
  | .read => .readError
  | .write => .writeError
  | .udf => .udfError

/-- The counter under which an answer is counted. A record that does not exist is a miss for a read of a single record, and no
failure for a function called on it; elsewhere it is an error. -/
def CallKind.counter (kind : CallKind) (status : AsStatus) : CounterId :=
  match status with
  | .ok => kind.opClass.success
  | .errTimeout => kind.opClass.timeout
  | .errRecordNotFound =>
    if kind = .sync .read then .readMiss else if kind = .sync .udf then .udf else kind.opClass.error
  | .errNoMoreConnections | .other _ => kind.opClass.error

/-- A call made by a worker for a stage, with its keys when the routine is linear. -/
structure Call (T : Nat) where
  worker : Fin T
  stage : Nat
  keys : List Nat

/-- A call that has not been answered. -/
structure UnderWay (T : Nat) where
  worker : Fin T
  stage : Nat
  kind : CallKind

/-- What the output worker took from a counter, and for which stage. -/
structure Taken where
  stage : Nat
  counter : CounterId
  value : UInt64

/-- What the dice decide about the next call of a random routine. -/
structure RandomCall where
  kind : SyncKind
  op : Option OpTag

/-- The call of a linear routine: batches and single records are written by different routines, asynchronous calls are tagged. -/
def Stage.linearKind (st : Stage) : CallKind :=
  if st.async then .async (some (if st.workload.type = .d then .deleteOp else .writeOp))
  else if st.linearBatchSize ≤ 1 then .sync .write else .sync .batchWrite

/-- The call of a random routine. -/
def Stage.randomKind (st : Stage) (r : RandomCall) : CallKind := if st.async then .async r.op else .sync r.kind

/-- The call that a worker makes with its next step: the stage, the keys when they are in order, and the kind of the call. -/
def madeCall (c : RunConfig) {T : Nat} (w : Fin T) (m : Shared T) (x : Worker) (r : RandomCall) :
    Option (Nat × List Nat × CallKind) :=
  match x.pc with
  | .linear j key endKey =>
    if m.doWork w.castSucc ∧ key < endKey then
      c.stages[j]?.map fun st => (j, (linearBody st.linearBatchSize key).1, st.linearKind)
    else none
  | .random j => if m.doWork w.castSucc then c.stages[j]?.map fun st => (j, [], st.randomKind r) else none
  | _ => none

/-! ## The system -/

/-- The state of the protocol with the calls under way and the counters; `taking` are the counters that the output worker has still
to take. -/
structure WorkState (T : Nat) where
  base : ProtocolState T
  underWay : List (UnderWay T)
  cdata : CData
  taking : List CounterId
  calls : List (Call T)
  accounted : List (Nat × CounterId)
  taken : List Taken
  cleared : List Counters

/-- The start of a run. -/
def WorkState.init (T : Nat) (setup : LatencySetup) : WorkState T where
  base := .init T
  underWay := []
  cdata := ⟨setup, {}, []⟩
  taking := []
  calls := []
  accounted := []
  taken := []
  cleared := []

namespace WorkState

variable {T : Nat}

/-- The worker waits for an answer: of its own synchronous call, or at the end of an asynchronous stage of any. -/
def busy (s : WorkState T) (w : Fin T) : Bool :=
  s.underWay.any (fun u => u.worker == w && u.kind.isSync) ||
    (match (s.base.worker w).pc with
    | .drain _ => s.underWay.any fun u => !u.kind.isSync
    | _ => false)

/-- A step of a worker in the protocol. -/
def setWorker (s : WorkState T) (w : Fin T) (m : Shared T) (x : Worker) : WorkState T :=
  { s with base := { s.base with shared := m, worker := Function.update s.base.worker w x } }

/-- The counters are written. -/
def setCounters (s : WorkState T) (n : Counters) : WorkState T := { s with cdata := { s.cdata with counters := n } }

/-- A call is made. -/
def makeCall (s : WorkState T) (w : Fin T) (call : Nat × List Nat × CallKind) : WorkState T :=
  { s with calls := s.calls ++ [⟨w, call.1, call.2.1⟩], underWay := s.underWay ++ [⟨w, call.1, call.2.2⟩] }

/-- The `i`-th call under way is answered. -/
def answer (s : WorkState T) (i : Nat) (u : UnderWay T) (status : AsStatus) (dtUs : Nat) : WorkState T :=
  { s with
    cdata := u.kind.account status dtUs s.cdata
    underWay := s.underWay.eraseIdx i
    accounted := s.accounted ++ [(u.stage, u.kind.counter status)] }

/-- `atomic_exchange` of a counter with zero. -/
def take (s : WorkState T) (k : CounterId) (ks : List CounterId) : WorkState T :=
  { s.setCounters (s.cdata.counters.set k 0) with
    taking := ks
    taken := s.taken ++ [⟨s.base.shared.stageIdx (Fin.last T), k, s.cdata.counters.get k⟩] }

/-- A step of the output worker in the protocol. In the body of its loop it has the counters to take. -/
def setOutput (s : WorkState T) (m : Shared T) (x : Output) : WorkState T :=
  { s with
    base := { s.base with shared := m, output := x }
    taking := match s.base.output.pc with
      | .top _ => if m.finished (Fin.last T) then [] else CounterId.order
      | _ => [] }

/-- A step of the coordinator in the protocol. -/
def setCoord (s : WorkState T) (m : Shared T) (x : Coord) : WorkState T :=
  { s with base := { s.base with shared := m, coord := x } }

/-- `clear_cdata_counts`, behind the increment of `stage_idx`. The other threads are halted then. -/
def clear (s : WorkState T) : WorkState T := { s.setCounters {} with cleared := s.cleared ++ [s.cdata.counters] }

end WorkState

/-- One step of one of the processes, or an answer. -/
inductive WorkStep (c : RunConfig) {T : Nat} (s : WorkState T) : WorkState T → Prop where
  | worker (w : Fin T) (r : RandomCall) (m : Shared T) (x : Worker) (hfree : s.busy w = false)
      (h : workerStep c w s.base.shared (s.base.worker w) = some (m, x))
      (hno : madeCall c w s.base.shared (s.base.worker w) r = none) : WorkStep c s (s.setWorker w m x)
  | call (w : Fin T) (r : RandomCall) (m : Shared T) (x : Worker) (call : Nat × List Nat × CallKind) (hfree : s.busy w = false)
      (h : workerStep c w s.base.shared (s.base.worker w) = some (m, x))
      (hcall : madeCall c w s.base.shared (s.base.worker w) r = some call) : WorkStep c s ((s.setWorker w m x).makeCall w call)
  | answer (i : Nat) (u : UnderWay T) (status : AsStatus) (dtUs : Nat) (hu : s.underWay[i]? = some u) :
      WorkStep c s (s.answer i u status dtUs)
  | take (k : CounterId) (ks : List CounterId) (h : s.taking = k :: ks) : WorkStep c s (s.take k ks)
  | output (timeUp : Bool) (m : Shared T) (x : Output) (hfree : s.taking = [])
      (h : outputStep timeUp s.base.shared s.base.output = some (m, x)) : WorkStep c s (s.setOutput m x)
  | coord (m : Shared T) (x : Coord) (h : coordStep c s.base.shared s.base.coord = some (m, x))
      (hpc : s.base.coord.pc ≠ .advance) : WorkStep c s (s.setCoord m x)
  | clear (m : Shared T) (x : Coord) (h : coordStep c s.base.shared s.base.coord = some (m, x))
      (hpc : s.base.coord.pc = .advance) : WorkStep c s (s.setCoord m x).clear

/-- A state some interleaving leads to. -/
def WorkReachable (c : RunConfig) {T : Nat} (setup : LatencySetup) (s : WorkState T) : Prop :=
  Relation.ReflTransGen (WorkStep c) (.init T setup) s

/-- The work does not disturb the protocol: a step is a step of the protocol, or leaves its state as it is. -/
theorem WorkStep.base {c : RunConfig} {T : Nat} {s s' : WorkState T} (h : WorkStep c s s') :
    s'.base = s.base ∨ ProtocolStep c s.base s'.base := by
  cases h with
  | worker w r m x hfree h hno => exact Or.inr (.worker w m x h)
  | call w r m x call hfree h hcall => exact Or.inr (.worker w m x h)
  | answer i u status dtUs hu => exact Or.inl rfl
  | take k ks h => exact Or.inl rfl
  | output timeUp m x hfree h => exact Or.inr (.output timeUp m x h)
  | coord m x h hpc => exact Or.inr (.coord m x h)
  | clear m x h hpc => exact Or.inr (.coord m x h)

/-- What is known of the states of the protocol is known here. -/
theorem WorkReachable.base {c : RunConfig} {T : Nat} {setup : LatencySetup} {s : WorkState T} (h : WorkReachable c setup s) :
    Reachable c s.base := by
  induction h with
  | refl => exact .refl
  | tail _ hstep ih =>
    rcases hstep.base with heq | hbase
    · rw [heq]
      exact ih
    · exact ih.tail hbase

/-! ## Schedules -/

/-- Which process takes the next step, or which call is answered. -/
inductive WorkChoice (T : Nat) where
  | worker (w : Fin T) (r : RandomCall)
  | answer (i : Nat) (status : AsStatus) (dtUs : Nat)
  | output (timeUp : Bool)
  | coord

/-- The chosen step, nothing when it cannot be taken. -/
def WorkState.next (c : RunConfig) {T : Nat} (s : WorkState T) : WorkChoice T → Option (WorkState T)
  | .worker w r =>
    if s.busy w then none
    else
      (workerStep c w s.base.shared (s.base.worker w)).map fun b =>
        match madeCall c w s.base.shared (s.base.worker w) r with
        | none => s.setWorker w b.1 b.2
        | some call => (s.setWorker w b.1 b.2).makeCall w call
  | .answer i status dtUs => s.underWay[i]?.map fun u => s.answer i u status dtUs
  | .output timeUp =>
    match s.taking with
    | k :: ks => some (s.take k ks)
    | [] => (outputStep timeUp s.base.shared s.base.output).map fun b => s.setOutput b.1 b.2
  | .coord =>
    (coordStep c s.base.shared s.base.coord).map fun b =>
      if s.base.coord.pc = .advance then (s.setCoord b.1 b.2).clear else s.setCoord b.1 b.2

/-- The state a schedule leads to. -/
def WorkState.run (c : RunConfig) {T : Nat} (s : WorkState T) : List (WorkChoice T) → Option (WorkState T)
  | [] => some s
  | ch :: chs => (s.next c ch).bind fun s' => s'.run c chs

theorem WorkState.next_step {c : RunConfig} {T : Nat} {s s' : WorkState T} {ch : WorkChoice T} (h : s.next c ch = some s') :
    WorkStep c s s' := by
  cases ch with
  | worker w r =>
    simp only [WorkState.next, Option.ite_none_left_eq_some, Bool.not_eq_true] at h
    obtain ⟨hfree, h⟩ := h
    obtain ⟨b, hb, rfl⟩ := Option.map_eq_some_iff.mp h
    cases hcall : madeCall c w s.base.shared (s.base.worker w) r with
    | none => exact .worker w r b.1 b.2 hfree hb hcall
    | some call => exact .call w r b.1 b.2 call hfree hb hcall
  | answer i status dtUs =>
    obtain ⟨u, hu, rfl⟩ := Option.map_eq_some_iff.mp h
    exact .answer i u status dtUs hu
  | output timeUp =>
    cases htaking : s.taking with
    | cons k ks =>
      simp only [WorkState.next, htaking, Option.some.injEq] at h
      exact h ▸ .take k ks htaking
    | nil =>
      simp only [WorkState.next, htaking] at h
      obtain ⟨b, hb, rfl⟩ := Option.map_eq_some_iff.mp h
      exact .output timeUp b.1 b.2 htaking hb
  | coord =>
    obtain ⟨b, hb, rfl⟩ := Option.map_eq_some_iff.mp h
    split
    · rename_i hpc
      exact .clear b.1 b.2 hb hpc
    · rename_i hpc
      exact .coord b.1 b.2 hb hpc

/-- Every schedule leads to reachable states. -/
theorem WorkReachable.run {c : RunConfig} {T : Nat} {setup : LatencySetup} {s s' : WorkState T} (hs : WorkReachable c setup s)
    (chs : List (WorkChoice T)) (h : s.run c chs = some s') : WorkReachable c setup s' := by
  induction chs generalizing s with
  | nil => exact Option.some.inj h ▸ hs
  | cons ch chs ih =>
    obtain ⟨t, ht, hrun⟩ := Option.bind_eq_some_iff.mp h
    exact ih (hs.tail (WorkState.next_step ht)) hrun

end AerospikeBenchmark
