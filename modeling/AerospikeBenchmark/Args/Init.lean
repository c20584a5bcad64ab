import AerospikeBenchmark.Args.SetArgs

/-!
# The start of the program

`_load_defaults_post`, which sets the stages up, and `benchmark_init`, whose result is the exit status.
-/

namespace AerospikeBenchmark

open CText

/-- Why `_load_defaults_post` fails. -/
inductive PostError where
  /-- `cyaml_load_file` fails. -/
  | stagesFile (file : Text)
  | stages (e : ConfigError)

/-- What `_load_defaults_post` returns then. -/
def PostError.ret : PostError → Int
  | .stagesFile _ | .stages _ => -1

/-- `stages_set_defaults_and_parse` for these arguments. -/
def setUpStagesFor (R : AsRandom) (mem : Nat → Stage) (args : Args) (defs : List StageDef) : Except PostError (List Stage) :=
  match stagesSetDefaultsAndParse R args.stageArgs mem defs with
  | .ok stages => .ok stages
  | .error e => .error (.stages e)

/-- `_load_defaults_post`: the stages of the file, or the one of the command line. -/
def loadDefaultsPost (R : AsRandom) (env : CmdEnv) (mem : Nat → Stage) (args : Args) : Except PostError (List Stage) :=
  match args.workloadStagesFile with
  | some file =>
    match env.cyamlLoadFile file with
    | some defs => setUpStagesFor R mem args defs
    | none => .error (.stagesFile file)
  | none =>
    let s := args.getOrInitStage
    setUpStagesFor R mem args [s.toStageDef (s.workloadStr.getD ['R', 'U'])]

/-- What `benchmark_init` makes of a result other than 0 from before the run. -/
def resetRet (ret : Int) : Int := if ret = -1 then 0 else ret

/-- `benchmark_init`, for stages allocated at memory that held `mem`. -/
def benchmarkInit (R : AsRandom) (env : CmdEnv) (mem : Nat → Stage) (options : List CmdOption) : Int :=
  match setArgs R env (loadDefaults env) options with
  | .error s => resetRet s.reason.ret
  | .ok args =>
    match loadDefaultsPost R env mem args with
    | .error e => resetRet e.ret
    | .ok stages => env.runBenchmark args stages

end AerospikeBenchmark
