import AerospikeBenchmark.Transaction.Operations

/-!
# The objects of a stage

The records and the argument list that `init_stage` keeps in the `tdata_t` of a worker for the length of a stage. What is done to
them is given as the sequence of events of `init_stage`, of the operations and of `terminate_stage`.
-/

namespace AerospikeBenchmark

open CText

/-- The objects a worker keeps for a stage. -/
inductive StageObject where
  | fixedFullRecord
  | fixedPartialRecord
  | fixedDeleteRecord
  | fixedUdfFnArgs
deriving DecidableEq, Repr

/-- What is done to an object. -/
inductive ObjectEvent where
  | init (object : StageObject)
  | use (object : StageObject)
  | destroy (object : StageObject)
deriving DecidableEq, Repr

/-! ## init_stage and terminate_stage -/

/-- An event behind a test. -/
def eventIf (test : Bool) (event : ObjectEvent) : List ObjectEvent := if test then [event] else []

/-- The events of `init_stage` on the records for writes. -/
def initWriteRecords (w : Workload) : List ObjectEvent :=
  if w.containsWrites then
    eventIf (!w.writeAllPct.eq (.num 0)) (.init .fixedFullRecord) ++ eventIf (!w.writeAllPct.eq (.num 100)) (.init .fixedPartialRecord)
  else []

/-- The events of `init_stage` on the record of nil bins. A bin-delete stage of both kinds of deletes initialises it twice. -/
def initDeleteRecords (w : Workload) : List ObjectEvent :=
  if w.containsDeletes then
    eventIf (w.type != .d || !w.writeAllPct.eq (.num 0)) (.init .fixedDeleteRecord) ++
      eventIf (w.type == .d && !w.writeAllPct.eq (.num 100)) (.init .fixedDeleteRecord)
  else []

/-- The events of `init_stage`. -/
def initStage (s : Stage) : List ObjectEvent :=
  if !s.random then
    initWriteRecords s.workload ++ eventIf s.workload.containsUdfs (.init .fixedUdfFnArgs) ++ initDeleteRecords s.workload
  else initDeleteRecords s.workload

/-- The events of `terminate_stage`. -/
def terminateStage (s : Stage) : List ObjectEvent :=
  let w := s.workload
  if !s.random then
    eventIf (!w.writeAllPct.eq (.num 0)) (.destroy .fixedFullRecord) ++
      eventIf (!w.writeAllPct.eq (.num 100)) (.destroy .fixedPartialRecord) ++
      eventIf w.containsUdfs (.destroy .fixedUdfFnArgs) ++ eventIf w.containsDeletes (.destroy .fixedDeleteRecord)
  else eventIf w.containsDeletes (.destroy .fixedDeleteRecord)

/-! ## Operations -/

/-- `_gen_record`, with the word its die is made of: an object of the stage, or none for a record of its own. -/
def genRecord (cast : FpNum → Nat) (s : Stage) (word : Nat) : Option StageObject :=
  if randomFp word < pctToFp cast s.workload.writeAllPct then if s.random then none else some .fixedFullRecord
  else if s.random then none else some .fixedPartialRecord

/-- `_gen_nil_record`. -/
def genNilRecord : Option StageObject := some .fixedDeleteRecord

/-- A call with a record. -/
def useRecord (rec : Option StageObject) : List ObjectEvent := rec.toList.map .use

/-- `_destroy_record`. -/
def destroyRecord (s : Stage) (rec : Option StageObject) : List ObjectEvent := if s.random then rec.toList.map .destroy else []

/-- One record of a write: it is generated, sent and destroyed. In a batch the bins are taken from it before it is destroyed. -/
def writeEvents (cast : FpNum → Nat) (s : Stage) (word : Nat) : List ObjectEvent :=
  useRecord (genRecord cast s word) ++ destroyRecord s (genRecord cast s word)

/-- A delete. `random_delete` does not destroy the record; the others do, when they delete a single record. -/
def deleteEvents (s : Stage) : List ObjectEvent :=
  if s.batchDeleteSize ≤ 1 then
    useRecord genNilRecord ++ if s.workload.type == .rud && !s.async then [] else destroyRecord s genNilRecord
  else (List.range s.batchDeleteSize).flatMap fun _ => useRecord genNilRecord

/-- A UDF call: the arguments are generated anew in a random stage. -/
def udfEvents (s : Stage) : List ObjectEvent := if s.random then [] else [.use .fixedUdfFnArgs]

/-- The words an operation draws for its dice: the one that chooses its kind, and one for each record it generates. -/
structure OperationWords where
  kind : Nat
  records : Nat → Nat

/-- The events of an operation. -/
def operationEvents (cast : FpNum → Nat) (s : Stage) (words : OperationWords) : List ObjectEvent :=
  match s.workload.choose cast (randomFp words.kind) with
  | .read => []
  | .write =>
    if s.batchWriteSize ≤ 1 then writeEvents cast s (words.records 0)
    else (List.range s.batchWriteSize).flatMap fun i => writeEvents cast s (words.records i)
  | .delete => deleteEvents s
  | .udf => udfEvents s

/-- The events of a stage in which a worker performs a sequence of operations. -/
def stageEvents (cast : FpNum → Nat) (s : Stage) (ops : List OperationWords) : List ObjectEvent :=
  initStage s ++ ops.flatMap (operationEvents cast s) ++ terminateStage s

end AerospikeBenchmark
