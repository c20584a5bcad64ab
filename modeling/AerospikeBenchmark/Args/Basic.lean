import AerospikeBenchmark.Workload.Parse

/-!
# Arguments

`args_t` without the stages that are parsed last, its default values, and what setting them up takes from outside: the constants and
functions of the client library, the terminal, environment variables and files.
-/

namespace AerospikeBenchmark

open CText

/-- `as_policy_key`. -/
inductive KeyPolicy where
  | digest | send
deriving DecidableEq, Repr

/-- `as_policy_replica`. -/
inductive ReplicaPolicy where
  | master | any | sequence | preferRack
deriving DecidableEq, Repr

/-- `as_policy_read_mode_ap`. -/
inductive ReadModeAp where
  | one | all
deriving DecidableEq, Repr

/-- `as_policy_read_mode_sc`. -/
inductive ReadModeSc where
  | session | linearize | allowReplica | allowUnavailable
deriving DecidableEq, Repr

/-- `as_policy_commit_level`. -/
inductive CommitLevel where
  | all | master
deriving DecidableEq, Repr

/-- `as_auth_mode`. -/
inductive AuthMode where
  | internal | external | externalInsecure | pki
deriving DecidableEq, Repr

/-- The fields of `as_config_tls` that options set. -/
structure TlsConfig where
  enable : Bool := false
  cafile : Option Text := none
  capath : Option Text := none
  protocols : Option Text := none
  cipherSuite : Option Text := none
  crlCheck : Bool := false
  crlCheckAll : Bool := false
  certBlacklist : Option Text := none
  logSessionInfo : Bool := false
  keyfile : Option Text := none
  keyfilePw : Option Text := none
  certfile : Option Text := none
  forLoginOnly : Bool := false

/-- The fields of the one stage definition of the command line that options set, as `get_or_init_stage` leaves them. -/
structure CmdStage where
  duration : Nat := unset64
  tps : Nat := 0
  ttl : Nat := 0
  batchSize : Nat := 0
  batchReadSize : Nat := 0
  batchWriteSize : Nat := 0
  batchDeleteSize : Nat := 0
  async : Bool := false
  random : Bool := false
  workloadStr : Option Text := none
  readBinsStr : Option Text := none
  writeBinsStr : Option Text := none
  udfPackageName : Option Text := none
  udfFnName : Option Text := none
  udfFnArgs : Option Text := none

/-- The stage definition, with its workload: the other fields are those of a first stage that gives nothing else. -/
def CmdStage.toStageDef (s : CmdStage) (workloadStr : Text) : StageDef :=
  { StageDef.ofWorkload workloadStr with
    duration := s.duration
    tps := s.tps
    ttl := s.ttl
    batchSize := s.batchSize
    batchReadSize := s.batchReadSize
    batchWriteSize := s.batchWriteSize
    batchDeleteSize := s.batchDeleteSize
    async := s.async
    random := s.random
    readBinsStr := s.readBinsStr
    writeBinsStr := s.writeBinsStr
    udfPackageName := s.udfPackageName
    udfFnName := s.udfFnName
    udfFnArgs := s.udfFnArgs }

/-- `args_t` without `stages`. Of `stage_defs` there is the one definition that `get_or_init_stage` creates, or none. -/
structure Args where
  hosts : Text
  port : Int
  useServicesAlternate : Bool
  maxErrorRate : Int
  tenderInterval : Int
  errorRateWindow : Int
  maxSocketIdle : Int
  user : Option Text
  password : Text
  nameSpace : Text
  set : Text
  binName : Text
  startKey : Nat
  keys : Nat
  stageDef : Option CmdStage
  workloadStagesFile : Option Text
  objSpec : ObjSpec
  objSpecValid : Bool
  transactionWorkerThreads : Int
  enableCompression : Bool
  compressionRatio : FpNum
  connTimeoutMs : Int
  readSocketTimeout : Int
  writeSocketTimeout : Int
  readTotalTimeout : Int
  writeTotalTimeout : Int
  maxRetries : Int
  sleepBetweenRetries : Int
  debug : Bool
  latency : Bool
  latencyPercentiles : List FpNum
  latencyHistogram : Bool
  histogramOutput : Option Text
  histogramPeriod : Int
  hdrOutput : Option Text
  useShm : Bool
  key : KeyPolicy
  replica : ReplicaPolicy
  rackId : Int
  readModeAp : ReadModeAp
  readModeSc : ReadModeSc
  writeCommitLevel : CommitLevel
  minConnsPerNode : Int
  maxConnsPerNode : Int
  connPoolsPerNode : Int
  asyncMinConnsPerNode : Int
  asyncMaxConnsPerNode : Int
  durableDeletes : Bool
  asyncMaxCommands : Int
  eventLoopCapacity : Int
  tls : TlsConfig
  tlsName : Option Text
  authMode : AuthMode

/-- What the set-up takes from outside. -/
structure CmdEnv where
  /-- `AS_POLICY_SOCKET_TIMEOUT_DEFAULT`. -/
  socketTimeoutDefault : Int
  /-- `AS_POLICY_TOTAL_TIMEOUT_DEFAULT`. -/
  totalTimeoutDefault : Int
  /-- `as_auth_mode_from_string`. -/
  authModeFromString : Text → Option AuthMode
  /-- The password that `as_password_acquire` stores, for its argument. -/
  passwordAcquire : Option Text → Text
  /-- The answer to the prompt for the password of the key file. -/
  getpass : Text
  getenv : Text → Option Text
  /-- The first line of a file as `fgets` stores it: none if the file cannot be opened, and none in it if `fgets` fails. -/
  firstLine : Text → Option (Option Text)
  /-- `cyaml_load_file` for the stage definitions of a file. -/
  cyamlLoadFile : Text → Option (List StageDef)
  /-- The result of `run_benchmark`. -/
  runBenchmark : Args → List Stage → Int

/-- `_load_defaults`. -/
def loadDefaults (env : CmdEnv) : Args where
  hosts := ['1', '2', '7', '.', '0', '.', '0', '.', '1']
  port := 3000
  useServicesAlternate := false
  maxErrorRate := 0
  tenderInterval := 1000
  errorRateWindow := 1
  maxSocketIdle := 55
  user := none
  password := []
  nameSpace := ['t', 'e', 's', 't']
  set := ['t', 'e', 's', 't', 's', 'e', 't']
  binName := ['t', 'e', 's', 't', 'b', 'i', 'n']
  startKey := 1
  keys := 1000000
  stageDef := none
  workloadStagesFile := none
  -- what the object spec "I" is parsed to
  objSpec := ⟨[.scalar 1 (.int 3)], 1⟩
  objSpecValid := true
  transactionWorkerThreads := 16
  enableCompression := false
  compressionRatio := .num 1
  connTimeoutMs := 1000
  readSocketTimeout := env.socketTimeoutDefault
  writeSocketTimeout := env.socketTimeoutDefault
  readTotalTimeout := env.totalTimeoutDefault
  writeTotalTimeout := env.totalTimeoutDefault
  maxRetries := 1
  sleepBetweenRetries := 0
  debug := false
  latency := false
  latencyPercentiles := [.num 50, .num 90, .num 99, binary64.ofRat (999 / 10), binary64.ofRat (9999 / 100)]
  latencyHistogram := false
  histogramOutput := none
  histogramPeriod := 1
  hdrOutput := none
  useShm := false
  key := .digest
  replica := .sequence
  rackId := -1
  readModeAp := .one
  readModeSc := .session
  writeCommitLevel := .all
  minConnsPerNode := 0
  maxConnsPerNode := 300
  connPoolsPerNode := 1
  asyncMinConnsPerNode := 0
  asyncMaxConnsPerNode := 300
  durableDeletes := false
  asyncMaxCommands := 50
  eventLoopCapacity := 1
  tls := {}
  tlsName := none
  authMode := .internal

/-- What the stages take from the arguments. -/
def Args.stageArgs (args : Args) : StageArgs := ⟨args.startKey, args.keys, args.binName, args.objSpec⟩

/-- `get_or_init_stage`. -/
def Args.getOrInitStage (args : Args) : CmdStage := args.stageDef.getD {}

/-! ## Numbers in arguments -/

/-- The value of `strtol` to base 10, or 0 if there is no number. -/
def strtolValue (s : Text) : Int := ((strtol 10 s).map (·.value)).getD 0

/-- The value of `strtoull` to base 10, or 0 if there is no number. -/
def strtoullValue (s : Text) : Nat := ((strtoul 10 s).map (·.value)).getD 0

/-- `atoi`: the long number cut to 32 bits. -/
def atoi (s : Text) : Int := (strtolValue s).bmod (2 ^ 32)

/-- An integer stored to an unsigned field of so many bits. -/
def toUnsigned (bits : Nat) (n : Int) : Nat := (n % 2 ^ bits).toNat

/-- `atof`. -/
def atof (s : Text) : FpNum := ((strtod s).map fun r => binary64.decode r.value).getD (.num 0)

/-- The loop over the list of percentiles, whose elements stand between commas: it is cleared if one of them is not a number. -/
def percentilesLoop : (elements : List Text) → (perc : List FpNum) → List FpNum
  | [], perc => perc
  | tmp :: rest, perc =>
    match strtod tmp with
    | none => []
    | some r => if r.rest = [] then percentilesLoop rest (perc ++ [binary64.decode r.value]) else []

/-- The percentiles of an argument. -/
def parsePercentiles (arg : Text) : List FpNum := percentilesLoop (arg.splitOn ',') []

end AerospikeBenchmark
