import AerospikeBenchmark.Args.Init
import AerospikeBenchmark.Workload.BinNames
import AerospikeBenchmark.Workload.SetUp

/-!
# The end of the program

What becomes of `args.stages` in `_load_defaults_post` and `run_benchmark`, and `_free_args`. `args` is a local variable of
`benchmark_init` that is not cleared: its fields are unassigned at first, and a run stops at the first field that is read unassigned.
-/

namespace AerospikeBenchmark

open CText Cells

/-- The fields of `stages_t`. -/
inductive StagesField where
  | stages | nStages | valid
deriving DecidableEq, Repr

/-- The fields of `args_t` that `_free_args` reads. -/
inductive ArgsCell where
  | objSpec (field : SpecField)
  | workloadStagesFile
  | stages (field : StagesField)
  | hdrOutput | histogramOutput | binName | latencyPercentiles | tlsName | hosts
deriving DecidableEq, Repr

/-- `stages_t` before all of it has been assigned. The pointer is the number of the array that it points to. -/
structure RawStages where
  stages : Option Nat := none
  nStages : Option Nat := none
  valid : Option Bool := none

/-- `args_t` before all of it has been assigned, as far as `_free_args` reads it. -/
structure RawArgs where
  objSpec : RawSpec := {}
  workloadStagesFile : Option (Option Text) := none
  stages : RawStages := {}
  hdrOutput : Option (Option Text) := none
  histogramOutput : Option (Option Text) := none
  binName : Option Text := none
  latencyPercentiles : Option (List FpNum) := none
  tlsName : Option (Option Text) := none
  hosts : Option Text := none

/-- The values that `_load_defaults` and `set_args` assign; neither assigns `stages`. -/
def RawArgs.store (raw : RawArgs) (args : Args) : RawArgs :=
  { raw with
    objSpec := ⟨some args.objSpec.binSpecs, some args.objSpec.nBinSpecs, some args.objSpecValid⟩
    workloadStagesFile := some args.workloadStagesFile
    hdrOutput := some args.hdrOutput
    histogramOutput := some args.histogramOutput
    binName := some args.binName
    latencyPercentiles := some args.latencyPercentiles
    tlsName := some args.tlsName
    hosts := some args.hosts }

/-! ## The array of stages -/

/-- What happens to an array of stages. -/
inductive StagesEvent where
  | allocated (array : Nat)
  | used (array : Nat)
  | released (array : Nat)
deriving DecidableEq, Repr

/-- A reader of the stages, such as `stages_contain_async`, which does not look at the flag. -/
def RawStages.use (s : RawStages) : Except ArgsCell (List StagesEvent) := do
  let _ ← readCell (.stages .nStages) s.nStages
  let array ← readCell (.stages .stages) s.stages
  return [.used array]

/-- `free_workload_config`. What it reads of each stage is in `RawStage.free`; the flag is left as it is. -/
def RawStages.free (s : RawStages) : Except ArgsCell (List StagesEvent) := do
  if ← readCell (.stages .valid) s.valid then
    let _ ← readCell (.stages .nStages) s.nStages
    let array ← readCell (.stages .stages) s.stages
    return [.used array, .released array]
  else return []

/-- `stages_move`: the record of the new owner, and of the old one. -/
def stagesMove (src : RawStages) : RawStages × RawStages := ({ src with valid := some true }, { src with valid := some false })

/-- What `stages_set_defaults_and_parse` does to the record, for an array that is allocated under the number `array`. -/
def setUpRecord (array nStages : Nat) (failed : Bool) : RawStages × List StagesEvent :=
  let filled := [.allocated array, .used array]
  if failed then (⟨some array, some nStages, some false⟩, filled ++ [.used array, .released array])
  else (⟨some array, some nStages, some true⟩, filled)

/-- What `_load_defaults_post` does to `args.stages`. Without a file the flag is set in the end, also after an error. -/
def postStages (R : AsRandom) (env : CmdEnv) (mem : Nat → Stage) (array : Nat) (args : Args) (stages : RawStages) :
    RawStages × List StagesEvent :=
  match args.workloadStagesFile with
  | some file =>
    match env.cyamlLoadFile file with
    | some defs => setUpRecord array defs.length (setUpStagesFor R mem args defs).toOption.isNone
    | none => ({ stages with valid := some false }, [])
  | none =>
    let s := args.getOrInitStage
    let defs := [s.toStageDef (s.workloadStr.getD ['R', 'U'])]
    let (stages, events) := setUpRecord array defs.length (setUpStagesFor R mem args defs).toOption.isNone
    ({ stages with valid := some true }, events)

/-! ## The run -/

/-- What `run_benchmark` gets from the functions that it calls. -/
structure RunResults where
  /-- The result of `connect_to_server`. -/
  connect : Int
  /-- `is_single_bin`. -/
  singleBin : Bool
  /-- The result of `initialize_histograms`. -/
  histograms : Int
  /-- The result of `_run`. -/
  run : Int

/-- `obj_spec_bin_name_compatible`. -/
def binNameCompatible (o : ObjSpec) (binName : Text) : Bool := binNameTooLarge binName.length o.nBinSpecs == some false

/-- The labels of the clean-up of `run_benchmark`. -/
inductive CleanUpLabel where
  | cleanup1 | cleanup2 | cleanup3
deriving DecidableEq, Repr

/-- `run_benchmark` up to its clean-up: the result, and the label it goes to. -/
def runUpToCleanUp (r : RunResults) (args : Args) (stages : List Stage) : Int × CleanUpLabel :=
  if r.connect ≠ 0 then (r.connect, .cleanup1)
  else if r.histograms ≠ 0 then (-1, .cleanup2)
  else
    let binName := if r.singleBin then [] else args.binName
    -- too many bins for a namespace with a single bin: the names are not checked, and the run goes on
    let tooManyBins := r.singleBin ∧ 1 < args.objSpec.nBinSpecs
    if ¬ tooManyBins ∧ ¬ stages.all fun stage => binNameCompatible stage.objSpec binName then (-1, .cleanup3)
    else (r.run, .cleanup3)

/-- `run_benchmark`: its result, and what it does to `args.stages`. -/
def runBenchmark (r : RunResults) (args : Args) (stages : List Stage) (record : RawStages) :
    Except ArgsCell (Int × RawStages × List StagesEvent) := do
  let (data, record) := stagesMove record
  -- `connect_to_server` and the clean-up look at the stages through the record they were moved from
  let connecting ← record.use
  let (ret, label) := runUpToCleanUp r args stages
  let running ← if label = .cleanup1 then pure [] else do
    let started ← data.use
    let closing ← record.use
    pure (started ++ closing)
  let freeing ← data.free
  return (ret, record, connecting ++ running ++ freeing)

/-- `print_args` and `run_benchmark`. -/
def printAndRun (r : RunResults) (args : Args) (stages : List Stage) (record : RawStages) :
    Except ArgsCell (Int × RawStages × List StagesEvent) := do
  let printing ← record.use
  let (ret, record, running) ← runBenchmark r args stages record
  return (ret, record, printing ++ running)

/-! ## The clean-up -/

/-- The reads of `obj_spec_free` for the object spec of the arguments. -/
def RawArgs.freeObjSpec (args : RawArgs) : Except ArgsCell Unit := do
  if ← readCell (.objSpec .valid) args.objSpec.valid then
    let _ ← readCell (.objSpec .nBinSpecs) args.objSpec.nBinSpecs
    let _ ← readCell (.objSpec .binSpecs) args.objSpec.binSpecs
    return ()
  else return ()

/-- `_free_args`. -/
def freeArgs (args : RawArgs) : Except ArgsCell (List StagesEvent) := do
  args.freeObjSpec
  let file ← readCell .workloadStagesFile args.workloadStagesFile
  let events ← if file ≠ none then args.stages.free else pure []
  let _ ← readCell .hdrOutput args.hdrOutput
  let _ ← readCell .histogramOutput args.histogramOutput
  let _ ← readCell .binName args.binName
  let _ ← readCell .latencyPercentiles args.latencyPercentiles
  let _ ← readCell .tlsName args.tlsName
  let _ ← readCell .hosts args.hosts
  return events

/-- A run of `benchmark_init`: what happened to the array of stages, and the result or the first field that was read unassigned. -/
structure InitRun where
  events : List StagesEvent
  result : Except ArgsCell Int

/-- The end of `benchmark_init`. -/
def RawArgs.endRun (args : RawArgs) (ret : Int) (events : List StagesEvent) : InitRun :=
  match freeArgs args with
  | .ok more => ⟨events ++ more, .ok ret⟩
  | .error cell => ⟨events, .error cell⟩

/-- `benchmark_init` on an `args` that is not initialised. -/
def benchmarkRun (R : AsRandom) (env : CmdEnv) (results : Args → List Stage → RunResults) (mem : Nat → Stage) (array : Nat)
    (options : List CmdOption) : InitRun :=
  let raw := ({} : RawArgs).store (loadDefaults env)
  match setArgs R env (loadDefaults env) options with
  | .error s => (raw.store s.args).endRun (resetRet s.reason.ret) []
  | .ok args =>
    let (record, events) := postStages R env mem array args raw.stages
    let raw := { raw.store args with stages := record }
    match loadDefaultsPost R env mem args with
    | .error e => raw.endRun (resetRet e.ret) events
    | .ok stages =>
      match printAndRun (results args stages) args stages record with
      | .error cell => ⟨events, .error cell⟩
      | .ok (ret, record, more) => { raw with stages := record }.endRun ret (events ++ more)

end AerospikeBenchmark
