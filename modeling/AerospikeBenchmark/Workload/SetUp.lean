import AerospikeBenchmark.Lib.Cells
import AerospikeBenchmark.Workload.Parse

/-!
# Setting up stages in memory that is not cleared

`stages_set_defaults_and_parse` allocates its stages without clearing them, goes on after an error and frees everything at the end if
there was one. Here it runs on stages whose fields are unassigned at first; a run that reads such a field stops with its name.
-/

namespace AerospikeBenchmark

open CText Cells

/-- The fields of `workload_t`. -/
inductive WorkloadField where
  | type | readPct | writePct | readAllPct | writeAllPct
deriving DecidableEq, Repr

/-- The fields of `obj_spec_t`. -/
inductive SpecField where
  | binSpecs | nBinSpecs | valid
deriving DecidableEq, Repr

/-- The fields of `stage_t` that are read while stages are set up or freed; the description is left out, as in `Stage`. -/
inductive StageField where
  | keyStart | keyEnd | batchSize | random | readBins | writeBins
  | workload (field : WorkloadField)
  | objSpec (field : SpecField)
  | udfFnArgs (field : SpecField)
deriving DecidableEq, Repr

/-- `workload_t` before all of it has been assigned. -/
structure RawWorkload where
  type : Option WorkloadType := none
  readPct : Option FpNum := none
  writePct : Option FpNum := none
  readAllPct : Option FpNum := none
  writeAllPct : Option FpNum := none

/-- `obj_spec_t` before all of it has been assigned. -/
structure RawSpec where
  binSpecs : Option (List BinSpec) := none
  nBinSpecs : Option Nat := none
  valid : Option Bool := none

/-- An array of bins and its length; the pointer may be null. -/
structure RawBins (α : Type) where
  bins : Option (Option (List α)) := none
  count : Option Nat := none

/-- `stage_t` before all of it has been assigned. -/
structure RawStage where
  duration : Option Nat := none
  tps : Option Nat := none
  ttl : Option Nat := none
  keyStart : Option Nat := none
  keyEnd : Option Nat := none
  pause : Option Nat := none
  batchSize : Option Nat := none
  batchReadSize : Option Nat := none
  batchWriteSize : Option Nat := none
  batchDeleteSize : Option Nat := none
  async : Option Bool := none
  random : Option Bool := none
  workload : RawWorkload := {}
  objSpec : RawSpec := {}
  readBins : RawBins (Option Text) := {}
  writeBins : RawBins Nat := {}
  udfPackageName : Option Text := none
  udfFnName : Option Text := none
  udfFnArgs : RawSpec := {}

/-! ## Workloads -/

/-- `workload_contains_reads`. -/
def RawWorkload.containsReads (w : RawWorkload) : Except StageField Bool := do
  let type ← readCell (.workload .type) w.type
  if type.isInfinite then return !(← readCell (.workload .readPct) w.readPct).eq (.num 0) else return false

/-- `workload_contains_writes`. -/
def RawWorkload.containsWrites (w : RawWorkload) : Except StageField Bool := do
  match ← readCell (.workload .type) w.type with
  | .ru | .rr => return !(← readCell (.workload .readPct) w.readPct).eq (.num 100)
  | .ruf | .rud => return !(← readCell (.workload .writePct) w.writePct).eq (.num 0)
  | .i | .d => return true

/-- `workload_contains_udfs`. -/
def RawWorkload.containsUdfs (w : RawWorkload) : Except StageField Bool := do
  return (← readCell (.workload .type) w.type) == .ruf

/-- What `parse_workload_type` assigns when it accepts a workload string: not all percentages for every type. -/
def RawWorkload.store (w : RawWorkload) (parsed : Workload) : RawWorkload :=
  match parsed.type with
  | .i | .d => { w with type := parsed.type, writeAllPct := parsed.writeAllPct }
  | .ru | .rr => { w with
      type := parsed.type, readPct := parsed.readPct, readAllPct := parsed.readAllPct, writeAllPct := parsed.writeAllPct }
  | .ruf | .rud => ⟨parsed.type, parsed.readPct, parsed.writePct, parsed.readAllPct, parsed.writeAllPct⟩

/-- The values that `parse_workload_type` assigns; it reads nothing of the workload that it writes to. -/
def parsedWorkload (str : Text) : Except ConfigError Workload := parseWorkloadType ⟨.i, .num 0, .num 0, .num 0, .num 0⟩ str

/-! ## Object specs -/

/-- `obj_spec_parse`: what it assigns, and the spec if it succeeds. If it fails, only `valid` is assigned. -/
def RawSpec.parse (R : AsRandom) (o : RawSpec) (str : Text) : RawSpec × Option ObjSpec :=
  match objSpecParse R str with
  | .ok parsed => (⟨parsed.binSpecs, parsed.nBinSpecs, some true⟩, some parsed)
  | .error _ => ({ o with valid := some false }, none)

/-- The reads of `obj_spec_free`. -/
def RawSpec.free (name : SpecField → StageField) (o : RawSpec) : Except StageField Unit := do
  if ← readCell (name .valid) o.valid then
    let _ ← readCell (name .nBinSpecs) o.nBinSpecs
    let _ ← readCell (name .binSpecs) o.binSpecs
    return ()
  else return ()

/-! ## Stages -/

/-- A stage that is being set up: its fields so far, whether `ret` is not 0, and the spec that `prev_obj_spec` points to. -/
structure StageSetUp where
  stage : RawStage
  failed : Bool
  prev : ObjSpec

namespace StageSetUp

/-- The fields that are copied from the definition, and the keys. -/
def setKeys (args : StageArgs) (d : StageDef) (u : StageSetUp) : Except StageField StageSetUp := do
  let stage := { u.stage with
    tps := d.tps, pause := d.pause, async := d.async, random := d.random, ttl := d.ttl
    keyStart := some (if d.keyStart = unset64 then args.startKey else d.keyStart) }
  let keyStart ← readCell .keyStart stage.keyStart
  let stage := { stage with keyEnd := some (if d.keyEnd = unset64 then (keyStart + args.keys) % 2 ^ 64 else d.keyEnd) }
  let keyEnd ← readCell .keyEnd stage.keyEnd
  return { u with stage := stage, failed := u.failed || decide (keyEnd ≤ keyStart) }

/-- The batch sizes, and the check of the index. -/
def setBatchSizes (i : Nat) (d : StageDef) (u : StageSetUp) : Except StageField StageSetUp := do
  let stage := { u.stage with batchSize := some (max d.batchSize 1) }
  let batchSize ← readCell .batchSize stage.batchSize
  let batchOr (n : Nat) := if n = 0 then batchSize else n
  let stage := { stage with
    batchReadSize := batchOr d.batchReadSize, batchWriteSize := batchOr d.batchWriteSize
    batchDeleteSize := batchOr d.batchDeleteSize }
  return { u with stage := stage, failed := u.failed || decide (d.stageIdx ≠ i + 1) }

/-- The call of `parse_workload_type`, which assigns nothing if it fails. -/
def setWorkload (d : StageDef) (u : StageSetUp) : StageSetUp :=
  match parsedWorkload d.workloadStr with
  | .ok parsed => { u with stage := { u.stage with workload := u.stage.workload.store parsed } }
  | .error _ => { u with failed := true }

/-- A delete workload without random records. -/
def checkRandom (u : StageSetUp) : Except StageField StageSetUp := do
  if (← readCell (.workload .type) u.stage.workload.type) = .d then
    let random ← readCell .random u.stage.random
    return { u with failed := u.failed || random }
  else return u

/-- The default of `read_all_pct`. -/
def setReadAllPct (d : StageDef) (u : StageSetUp) : Except StageField StageSetUp := do
  let w := u.stage.workload
  if ← w.containsReads then
    if (← readCell (.workload .readAllPct) w.readAllPct).eq unsetPct then
      return { u with stage := { u.stage with workload := { w with readAllPct := defaultAllPct d.readBinsStr } } }
    else return u
  else return u

/-- The default of `write_all_pct`. -/
def setWriteAllPct (d : StageDef) (u : StageSetUp) : Except StageField StageSetUp := do
  let w := u.stage.workload
  if ← w.containsWrites then
    if (← readCell (.workload .writeAllPct) w.writeAllPct).eq unsetPct then
      return { u with stage := { u.stage with workload := { w with writeAllPct := defaultAllPct d.writeBinsStr } } }
    else return u
  else return u

/-- The duration. -/
def setDuration (d : StageDef) (u : StageSetUp) : Except StageField StageSetUp := do
  if d.duration = unset64 then
    let type ← readCell (.workload .type) u.stage.workload.type
    return { u with stage := { u.stage with duration := some (if type.isInfinite then 10 else 0) } }
  else return { u with stage := { u.stage with duration := d.duration } }

/-- The object spec: a shallow copy of the one before, or the stage's own, which is parsed only if there was no error so far. -/
def setObjSpec (R : AsRandom) (d : StageDef) (u : StageSetUp) : StageSetUp :=
  match d.objSpecStr with
  | none => { u with stage := { u.stage with objSpec := ⟨u.prev.binSpecs, u.prev.nBinSpecs, some false⟩ } }
  | some str =>
    if u.failed then { u with stage := { u.stage with objSpec := { u.stage.objSpec with valid := some false } } }
    else
      let (objSpec, parsed) := u.stage.objSpec.parse R str
      { u with stage := { u.stage with objSpec := objSpec }, failed := parsed.isNone, prev := parsed.getD u.prev }

/-- The selection for the reads or the writes: the one given, or bin 1 if not all operations are on all bins. -/
def binsStr (given : Option Text) (contains : Except StageField Bool) (allPct : Except StageField FpNum) :
    Except StageField (Option Text) :=
  match given with
  | some str => .ok (some str)
  | none => do
    if ← contains then
      if (← allPct).lt (.num 100) then return some ['1'] else return none
    else return none

/-- The array for a selection, and whether it is in order. A selection without operations that use it assigns nothing. -/
def selectBins {α : Type} (given : Option Text) (contains : Except StageField Bool) (allPct : Except StageField FpNum)
    (nBins : Except StageField Nat) (parse : Nat → Text → Except ConfigError (BinList α)) (old : RawBins α) :
    Except StageField (RawBins α × Bool) := do
  match ← binsStr given contains allPct with
  | none => return (⟨some none, some 0⟩, true)
  | some str =>
    if ← contains then
      match parse (← nBins) str with
      | .ok list => return (⟨some (some list.entries), some list.count⟩, true)
      | .error _ => return (⟨some none, old.count⟩, false)
    else return (old, false)

/-- The read bins. -/
def setReadBins (args : StageArgs) (d : StageDef) (u : StageSetUp) : Except StageField StageSetUp := do
  let w := u.stage.workload
  let (readBins, ok) ← selectBins d.readBinsStr w.containsReads (readCell (.workload .readAllPct) w.readAllPct)
    (readCell (.objSpec .nBinSpecs) u.stage.objSpec.nBinSpecs) (parseBinsStr args.binName) u.stage.readBins
  return { u with stage := { u.stage with readBins := readBins }, failed := u.failed || !ok }

/-- The write bins. -/
def setWriteBins (d : StageDef) (u : StageSetUp) : Except StageField StageSetUp := do
  let w := u.stage.workload
  let (writeBins, ok) ← selectBins d.writeBinsStr w.containsWrites (readCell (.workload .writeAllPct) w.writeAllPct)
    (readCell (.objSpec .nBinSpecs) u.stage.objSpec.nBinSpecs) parseBinsInt u.stage.writeBins
  return { u with stage := { u.stage with writeBins := writeBins }, failed := u.failed || !ok }

/-- The UDF. Its arguments are cleared if a name is missing, and parsed only if there was no error so far. -/
def setUdf (R : AsRandom) (d : StageDef) (u : StageSetUp) : Except StageField StageSetUp := do
  if ← u.stage.workload.containsUdfs then
    match d.udfFnName, d.udfPackageName with
    | none, _ | _, none => return { u with stage := { u.stage with udfFnArgs := ⟨some [], some 0, some false⟩ }, failed := true }
    | some fn, some package =>
      if u.failed then return u
      else
        let (udfFnArgs, parsed) := u.stage.udfFnArgs.parse R (d.udfFnArgs.getD [])
        return { u with
          stage := { u.stage with
            udfPackageName := package.take udfNameSize, udfFnName := fn.take udfNameSize, udfFnArgs := udfFnArgs }
          failed := parsed.isNone }
  else if d.udfPackageName = none ∧ d.udfFnName = none ∧ d.udfFnArgs = none then return u
  else return { u with failed := true }

end StageSetUp

/-- The body of the loop of `stages_set_defaults_and_parse` for stage `i`, in memory that is not cleared. -/
def setUpStage (R : AsRandom) (args : StageArgs) (i : Nat) (failed : Bool) (prev : ObjSpec) (d : StageDef) :
    Except StageField StageSetUp := do
  let u ← StageSetUp.setKeys args d ⟨{}, failed, prev⟩
  let u ← u.setBatchSizes i d
  let u ← (u.setWorkload d).checkRandom
  let u ← u.setReadAllPct d
  let u ← u.setWriteAllPct d
  let u ← u.setDuration d
  let u ← (u.setObjSpec R d).setReadBins args d
  let u ← u.setWriteBins d
  u.setUdf R d

/-- The loop over the stage definitions from stage `i` on: the stages, and whether there was an error. -/
def setUpStages (R : AsRandom) (args : StageArgs) :
    (i : Nat) → (failed : Bool) → (prev : ObjSpec) → List StageDef → Except StageField (List RawStage × Bool)
  | _, failed, _, [] => .ok ([], failed)
  | i, failed, prev, d :: ds => do
    let u ← setUpStage R args i failed prev d
    let (stages, failed) ← setUpStages R args (i + 1) u.failed u.prev ds
    return (u.stage :: stages, failed)

/-- The reads of `free_workload_config` for one stage. -/
def RawStage.free (s : RawStage) : Except StageField Unit := do
  s.objSpec.free .objSpec
  let _ ← readCell .readBins s.readBins.bins
  let _ ← readCell .writeBins s.writeBins.bins
  if ← s.workload.containsUdfs then s.udfFnArgs.free .udfFnArgs else return ()

/-- The reads of `free_workload_config`. -/
def freeWorkloadConfig (stages : List RawStage) : Except StageField Unit := stages.forM RawStage.free

/-- `stages_set_defaults_and_parse` on memory that is not cleared: what it returns, or the first field that it reads unassigned. -/
def setDefaultsAndParse (R : AsRandom) (args : StageArgs) (defs : List StageDef) : Except StageField Int := do
  let (stages, failed) ← setUpStages R args 0 false args.objSpec defs
  if failed then
    freeWorkloadConfig stages
    return -1
  else return 0

end AerospikeBenchmark
