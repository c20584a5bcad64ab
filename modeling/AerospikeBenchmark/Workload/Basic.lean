import AerospikeBenchmark.Lib.FpNum
import AerospikeBenchmark.ObjectSpec.Basic

/-!
# Workloads and stages

`workload_t` and `stage_t`, and the predicates of `workload.h` on them. Percentages are single-precision floats.
-/

namespace AerospikeBenchmark

open CText

/-- `workload_type_t`. -/
inductive WorkloadType where
  /-- Insert every key. -/
  | i
  /-- Random reads and updates. -/
  | ru
  /-- Random reads and replaces. -/
  | rr
  /-- Delete the bins of every key. -/
  | d
  /-- Random reads, updates and UDF calls. -/
  | ruf
  /-- Random reads, updates and deletes. -/
  | rud
deriving DecidableEq, Repr

/-- `workload_t`. -/
structure Workload where
  type : WorkloadType
  readPct : FpNum
  writePct : FpNum
  readAllPct : FpNum
  writeAllPct : FpNum
deriving DecidableEq, Repr

/-- `stage_t`, less its description. -/
structure Stage where
  duration : Nat
  tps : Nat
  ttl : Nat
  keyStart : Nat
  keyEnd : Nat
  pause : Nat
  batchSize : Nat
  batchReadSize : Nat
  batchWriteSize : Nat
  batchDeleteSize : Nat
  async : Bool
  random : Bool
  workload : Workload
  objSpec : ObjSpec
  readBins : Option (List Text)
  writeBins : Option (List Nat)
  udfPackageName : Text
  udfFnName : Text
  udfFnArgs : ObjSpec
deriving DecidableEq, Repr

/-- `workload_is_random` and `workload_is_infinite`: the workload has no fixed amount of work to do. -/
def WorkloadType.isInfinite : WorkloadType → Bool
  | .ru | .rr | .ruf | .rud => true
  | .i | .d => false

/-- `workload_contains_reads`. -/
def Workload.containsReads (w : Workload) : Bool := w.type.isInfinite && !w.readPct.eq (.num 0)

/-- `workload_contains_writes`. -/
def Workload.containsWrites (w : Workload) : Bool :=
  (w.type != .ru || !w.readPct.eq (.num 100)) && (w.type != .rr || !w.readPct.eq (.num 100)) &&
    (w.type != .ruf || !w.writePct.eq (.num 0)) && (w.type != .rud || !w.writePct.eq (.num 0))

/-- `workload_contains_deletes`. -/
def Workload.containsDeletes (w : Workload) : Bool := w.type == .d || w.type == .rud

/-- `workload_contains_udfs`. -/
def Workload.containsUdfs (w : Workload) : Bool := w.type == .ruf

/-- `stages_contain_reads`. -/
def stagesContainReads (stages : List Stage) : Bool := stages.any fun s => s.workload.containsReads

/-- `stages_contain_writes`. -/
def stagesContainWrites (stages : List Stage) : Bool := stages.any fun s => s.workload.containsWrites

/-- `stages_contain_udfs`. -/
def stagesContainUdfs (stages : List Stage) : Bool := stages.any fun s => s.workload.containsUdfs

/-- A stage with the defaults of the command line, of the given workload and keys. -/
def Stage.ofWorkload (w : Workload) (keyStart keyEnd : Nat) : Stage where
  duration := if w.type.isInfinite then 10 else 0
  tps := 0
  ttl := 0
  keyStart := keyStart
  keyEnd := keyEnd
  pause := 0
  batchSize := 1
  batchReadSize := 1
  batchWriteSize := 1
  batchDeleteSize := 1
  async := false
  random := false
  workload := w
  objSpec := ⟨[.scalar 1 (.int 3)], 1⟩
  readBins := none
  writeBins := none
  udfPackageName := []
  udfFnName := []
  udfFnArgs := ⟨[], 0⟩

end AerospikeBenchmark
