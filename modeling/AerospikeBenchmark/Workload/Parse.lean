import AerospikeBenchmark.ObjectSpec.Parse
import AerospikeBenchmark.Workload.Basic

/-!
# Stage definitions and their normal form

`parse_workload_type` and `stages_set_defaults_and_parse`: from the stage definitions of the command line or the configuration file
to the stages that run. The source goes on after an error, printing one message for each; the outcome is a failure from the first
one on, and that first error is the one returned here. The stages are allocated without being cleared: what is not assigned keeps
what the memory held, which is a parameter.
-/

namespace AerospikeBenchmark

open CText

/-- Why a stage definition is rejected, with what its message names. -/
inductive ConfigError where
  | expectedNumber (pctStr : Text)
  | pctOutOfRange (pct : FpNum)
  | expectedComma (pctStr : Text)
  | pctCount (type : WorkloadType) (found : Nat)
  | pctTotal (readPct writePct : FpNum)
  | unknownWorkload (str : Text)
  | keyRange (keyStart keyEnd : Nat)
  | stageIndex (stage idx : Nat)
  | randomDelete (stage : Nat)
  | objSpec (failure : ParseFailure)
  | binNotPositive (element : Nat)
  | binZero
  | noSuchBin (binNum nBins : Nat)
  | binOrder (binNum prevBinNum : Nat)
  | readBinsWithoutReads (stage : Nat)
  | writeBinsWithoutWrites (stage : Nat)
  | noUdfFunction
  | noUdfPackage
  | udfWithoutUdfs
  | outOfFuel
deriving DecidableEq, Repr

/-- An error unless a condition holds. -/
def check (p : Prop) [Decidable p] (e : ConfigError) : Except ConfigError Unit := if p then .ok () else .error e

/-! ## Workload strings -/

/-- `WORKLOAD_UNSET_PCT`. -/
def unsetPct : FpNum := .num (-1)

/-- `_parse_workload_distr`: the percentages of a list separated by commas. -/
def parseWorkloadDistr (pctStr : Text) : (fuel : Nat) → (str : Text) → Except ConfigError (List FpNum)
  | 0, _ => .error .outOfFuel
  | fuel + 1, str =>
    if str = [] then .ok []
    else
      match strtod str with
      | none => .error (.expectedNumber pctStr)
      | some r =>
        let pct := binary32.convert (binary64.decode r.value)
        if pct.lt (.num 0) || (FpNum.num 100).lt pct then .error (.pctOutOfRange pct)
        else if peek r.rest = ',' then (parseWorkloadDistr pctStr fuel r.rest.tail).map (pct :: ·)
        else if r.rest = [] then .ok [pct]
        else .error (.expectedComma pctStr)

/-- The percentages that follow a workload name, or none when the name stands alone. -/
def percentagesAfter (str rest : Text) : Except ConfigError (Option (List FpNum)) :=
  if rest = [] then .ok none
  else if peek rest = ',' then (parseWorkloadDistr rest.tail rest.length rest.tail).map some
  else .error (.unknownWorkload str)

/-- The branches of `parse_workload_type` for RUF and RUD. -/
def parseThreeWay (type : WorkloadType) (str : Text) : Except ConfigError Workload := do
  match ← percentagesAfter str (str.drop 3) with
  | none => return ⟨type, .num 40, .num 40, unsetPct, unsetPct⟩
  | some (r :: wr :: more) =>
    check (more.length ≤ 2) (.pctCount type (more.length + 2))
    check (!(binary32.add r wr).ge (.num 100)) (.pctTotal r wr)
    return ⟨type, r, wr, more.getD 0 unsetPct, more.getD 1 unsetPct⟩
  | some pcts => .error (.pctCount type pcts.length)

/-- The branch of `parse_workload_type` for RU and RR; it leaves the write percentage as it is. -/
def parseTwoWay (type : WorkloadType) (w : Workload) (str : Text) : Except ConfigError Workload := do
  match ← percentagesAfter str (str.drop 2) with
  | none => return ⟨type, .num 50, w.writePct, unsetPct, unsetPct⟩
  | some (r :: more) =>
    check (more.length ≤ 2) (.pctCount type (more.length + 1))
    return ⟨type, r, w.writePct, more.getD 0 unsetPct, more.getD 1 unsetPct⟩
  | some [] => .error (.pctCount type 0)

/-- `parse_workload_type`, writing to a workload. -/
def parseWorkloadType (w : Workload) (str : Text) : Except ConfigError Workload :=
  if str = ['I'] then .ok { w with type := .i, writeAllPct := unsetPct }
  else if str.take 3 = ['R', 'U', 'F'] then parseThreeWay .ruf str
  else if str.take 3 = ['R', 'U', 'D'] then parseThreeWay .rud str
  else if str.take 2 = ['R', 'U'] then parseTwoWay .ru w str
  else if str.take 2 = ['R', 'R'] then parseTwoWay .rr w str
  else if str = ['D', 'B'] then .ok { w with type := .d, writeAllPct := unsetPct }
  else .error (.unknownWorkload str)

/-! ## Bin selections -/

/-- `sizeof(as_bin_name)` in the client library. -/
def binNameSize : Nat := 16

/-- `gen_bin_name`: the first bin has the base name, the others a number after it; cut to the buffer. The number is printed as a
signed 32-bit one. -/
def genBinName (binName : Text) (binIdx : Nat) : Text :=
  if binIdx = 0 then binName.take (binNameSize - 1)
  else
    let n : Nat := (binIdx + 1) % 2 ^ 32
    let shown : Int := if n < 2 ^ 31 then (n : Int) else (n : Int) - 2 ^ 32
    (binName ++ '_' :: (toString shown).toList).take (binNameSize - 1)

/-- The loop of `_parse_bins_selection`: the indices of the bins whose numbers a list gives; `seen` are the bins read so far. -/
def parseBinsLoop (nBins : Nat) : (fuel seen prev : Nat) → (str : Text) → Except ConfigError (List Nat)
  | 0, _, _, _ => .error .outOfFuel
  | fuel + 1, seen, prev, str =>
    if str = [] then .ok []
    else
      match strtoul 10 str with
      | none => .error (.binNotPositive (seen + 1))
      | some r =>
        if r.rest ≠ [] ∧ peek r.rest ≠ ',' then .error (.binNotPositive (seen + 1))
        else if r.value = 0 then .error .binZero
        else if nBins < r.value then .error (.noSuchBin r.value nBins)
        else if r.value ≤ prev then .error (.binOrder r.value prev)
        else (parseBinsLoop nBins fuel (seen + 1) r.value r.rest.tail).map ((r.value - 1) :: ·)

/-- The bins that `_parse_bins_selection` selects. -/
def parseBinsSelection (nBins : Nat) (str : Text) : Except ConfigError (List Nat) := parseBinsLoop nBins (str.length + 1) 0 0 str

/-- What `_parse_bins_selection` returns: an array with a zero behind the selection, and its length without the zero. -/
structure BinList (α : Type) where
  entries : List α
  count : Nat
deriving DecidableEq, Repr

/-- The loop of `_parse_bins_selection` on the vector that it fills; `elem` is the element for a bin number in the mode of the
call. -/
def fillBins {α : Type} (elem : Nat → α) (nBins : Nat) : (fuel : Nat) → (bins : List α) → (prev : Nat) → (str : Text) →
    Except ConfigError (List α)
  | 0, _, _, _ => .error .outOfFuel
  | fuel + 1, bins, prev, str =>
    if str = [] then .ok bins
    else
      match strtoul 10 str with
      | none => .error (.binNotPositive (bins.length + 1))
      | some r =>
        if r.rest ≠ [] ∧ peek r.rest ≠ ',' then .error (.binNotPositive (bins.length + 1))
        else if r.value = 0 then .error .binZero
        else if nBins < r.value then .error (.noSuchBin r.value nBins)
        else if r.value ≤ prev then .error (.binOrder r.value prev)
        else fillBins elem nBins fuel (bins ++ [elem r.value]) r.value r.rest.tail

/-- `_parse_bins_selection` in a mode whose elements are zero as `zero`. -/
def parseBinList {α : Type} (elem : Nat → α) (zero : α) (nBins : Nat) (str : Text) : Except ConfigError (BinList α) :=
  (fillBins elem nBins (str.length + 1) [] 0 str).map fun bins => ⟨bins ++ [zero], (bins ++ [zero]).length - 1⟩

/-- The mode `PARSE_BINS_INT`: the indices of the bins. -/
def parseBinsInt (nBins : Nat) (str : Text) : Except ConfigError (BinList Nat) :=
  parseBinList (fun binNum => (binNum - 1) % 2 ^ 32) 0 nBins str

/-- The mode `PARSE_BINS_STR`: the names of the bins, or the null pointer. -/
def parseBinsStr (binName : Text) (nBins : Nat) (str : Text) : Except ConfigError (BinList (Option Text)) :=
  parseBinList (fun binNum => some (genBinName binName ((binNum - 1) % 2 ^ 32))) none nBins str

/-- The selection that applies to the reads or the writes of a workload: the one given, bin 1 when not all operations use all bins,
or none. A selection without such operations is an error. -/
def stageBins (given : Option Text) (contains : Bool) (allPct : FpNum) (nBins : Nat) (e : ConfigError) :
    Except ConfigError (Option (List Nat)) :=
  match given with
  | some str => do
    check contains e
    (parseBinsSelection nBins str).map some
  | none => if contains && allPct.lt (.num 100) then (parseBinsSelection nBins ['1']).map some else .ok none

/-! ## Stage definitions -/

/-- `stage_def_t`, less its description. A number that was not given is `2^64 - 1` for the keys and the duration. -/
structure StageDef where
  duration : Nat
  tps : Nat
  ttl : Nat
  keyStart : Nat
  keyEnd : Nat
  pause : Nat
  batchSize : Nat
  batchReadSize : Nat
  batchWriteSize : Nat
  batchDeleteSize : Nat
  async : Bool
  random : Bool
  stageIdx : Nat
  workloadStr : Text
  objSpecStr : Option Text
  readBinsStr : Option Text
  writeBinsStr : Option Text
  udfPackageName : Option Text
  udfFnName : Option Text
  udfFnArgs : Option Text
deriving DecidableEq, Repr

/-- What stages take from `args_t`. -/
structure StageArgs where
  startKey : Nat
  keys : Nat
  binName : Text
  objSpec : ObjSpec
deriving DecidableEq, Repr

/-- A 64-bit field that was not given. -/
def unset64 : Nat := 2 ^ 64 - 1

/-- The definition of a first stage that gives a workload and nothing else. -/
def StageDef.ofWorkload (workloadStr : Text) : StageDef where
  duration := unset64
  tps := 0
  ttl := 0
  keyStart := unset64
  keyEnd := unset64
  pause := 0
  batchSize := 0
  batchReadSize := 0
  batchWriteSize := 0
  batchDeleteSize := 0
  async := false
  random := false
  stageIdx := 1
  workloadStr := workloadStr
  objSpecStr := none
  readBinsStr := none
  writeBinsStr := none
  udfPackageName := none
  udfFnName := none
  udfFnArgs := none

/-- The defaults of the command line: keys 1 to 1000000 and one integer bin. -/
def StageArgs.defaults : StageArgs := ⟨1, 1000000, ['t', 'e', 's', 't', 'b', 'i', 'n'], ⟨[.scalar 1 (.int 3)], 1⟩⟩

/-- The first key of a stage. -/
def StageDef.startKey (d : StageDef) (args : StageArgs) : Nat := if d.keyStart = unset64 then args.startKey else d.keyStart

/-- The end of the keys of a stage. -/
def StageDef.endKey (d : StageDef) (args : StageArgs) : Nat :=
  if d.keyEnd = unset64 then (d.startKey args + args.keys) % 2 ^ 64 else d.keyEnd

/-- The share of the operations on all bins when the workload string does not give it. -/
def defaultAllPct (binsStr : Option Text) : FpNum := if binsStr = none then .num 100 else .num 0

/-- The defaults of `read_all_pct`. -/
def Workload.setReadAllPct (w : Workload) (binsStr : Option Text) : Workload :=
  if w.containsReads && w.readAllPct.eq unsetPct then { w with readAllPct := defaultAllPct binsStr } else w

/-- The defaults of `write_all_pct`. -/
def Workload.setWriteAllPct (w : Workload) (binsStr : Option Text) : Workload :=
  if w.containsWrites && w.writeAllPct.eq unsetPct then { w with writeAllPct := defaultAllPct binsStr } else w

/-- `obj_spec_parse` on a spec that a stage gives. -/
def parseStageSpec (R : AsRandom) (str : Text) : Except ConfigError ObjSpec :=
  match objSpecParse R str with
  | .ok o => .ok o
  | .error e => .error (.objSpec e)

/-- The spec of a stage: its own, or that of the stage before. -/
def stageSpec (R : AsRandom) (prev : ObjSpec) : Option Text → Except ConfigError ObjSpec
  | none => .ok prev
  | some str => parseStageSpec R str

/-- The size of the buffers for a UDF's package and function in the client library. -/
def udfNameSize : Nat := 256

/-- The UDF fields of a stage: package, function and arguments. Other workloads leave them as they are. -/
def stageUdf (R : AsRandom) (mem : Stage) (d : StageDef) (w : Workload) : Except ConfigError (Text × Text × ObjSpec) :=
  if w.containsUdfs then
    match d.udfFnName, d.udfPackageName with
    | none, _ => .error .noUdfFunction
    | _, none => .error .noUdfPackage
    | some fn, some package =>
      (parseStageSpec R (d.udfFnArgs.getD [])).map fun args => (package.take udfNameSize, fn.take udfNameSize, args)
  else if d.udfPackageName = none ∧ d.udfFnName = none ∧ d.udfFnArgs = none then
    .ok (mem.udfPackageName, mem.udfFnName, mem.udfFnArgs)
  else .error .udfWithoutUdfs

/-- The body of the loop of `stages_set_defaults_and_parse` for stage `i`, allocated at memory that held `mem`; `prev` is the spec
to inherit. -/
def parseStage (R : AsRandom) (args : StageArgs) (mem : Stage) (i : Nat) (prev : ObjSpec) (d : StageDef) :
    Except ConfigError Stage := do
  check (d.startKey args < d.endKey args) (.keyRange (d.startKey args) (d.endKey args))
  check (d.stageIdx = i + 1) (.stageIndex (i + 1) d.stageIdx)
  let parsed ← parseWorkloadType mem.workload d.workloadStr
  check (¬ (parsed.type = .d ∧ d.random = true)) (.randomDelete (i + 1))
  let w := (parsed.setReadAllPct d.readBinsStr).setWriteAllPct d.writeBinsStr
  let spec ← stageSpec R prev d.objSpecStr
  let readBins ← stageBins d.readBinsStr w.containsReads w.readAllPct spec.nBinSpecs (.readBinsWithoutReads (i + 1))
  let writeBins ← stageBins d.writeBinsStr w.containsWrites w.writeAllPct spec.nBinSpecs (.writeBinsWithoutWrites (i + 1))
  let udf ← stageUdf R mem d w
  let batchSize := max d.batchSize 1
  let batchOr (n : Nat) := if n = 0 then batchSize else n
  return {
    duration := if d.duration = unset64 then (if w.type.isInfinite then 10 else 0) else d.duration
    tps := d.tps
    ttl := d.ttl
    keyStart := d.startKey args
    keyEnd := d.endKey args
    pause := d.pause
    batchSize := batchSize
    batchReadSize := batchOr d.batchReadSize
    batchWriteSize := batchOr d.batchWriteSize
    batchDeleteSize := batchOr d.batchDeleteSize
    async := d.async
    random := d.random
    workload := w
    objSpec := spec
    readBins := readBins.map (·.map (genBinName args.binName))
    writeBins := writeBins
    udfPackageName := udf.1
    udfFnName := udf.2.1
    udfFnArgs := udf.2.2 }

/-- The loop over the stage definitions from stage `i` on. -/
def parseStages (R : AsRandom) (args : StageArgs) (mem : Nat → Stage) :
    (i : Nat) → (prev : ObjSpec) → List StageDef → Except ConfigError (List Stage)
  | _, _, [] => .ok []
  | i, prev, d :: ds => do
    let s ← parseStage R args (mem i) i prev d
    let rest ← parseStages R args mem (i + 1) s.objSpec ds
    return s :: rest

/-- `stages_set_defaults_and_parse`: the stages that run, for stages allocated at memory that held `mem`. -/
def stagesSetDefaultsAndParse (R : AsRandom) (args : StageArgs) (mem : Nat → Stage) (defs : List StageDef) :
    Except ConfigError (List Stage) :=
  parseStages R args mem 0 args.objSpec defs

end AerospikeBenchmark
