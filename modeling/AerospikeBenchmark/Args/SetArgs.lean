import AerospikeBenchmark.Args.Basic
import AerospikeBenchmark.Lib.ErrorRuns

/-!
# The command line

`set_args` with `validate_args`. A command line is what `getopt_long_only` returns for it, call after call. The deprecated names of
options in camel case return the same options, with a warning; messages are left out.
-/

namespace AerospikeBenchmark

open CText ErrorRuns

/-! ## Options -/

/-- The options of a stage. -/
inductive StageOption where
  | udfPackageName (optarg : Text)
  | udfFunctionName (optarg : Text)
  | udfFunctionValues (optarg : Text)
  | random
  | expirationTime (optarg : Text)
  | duration (optarg : Text)
  | workload (optarg : Text)
  | readBins (optarg : Text)
  | writeBins (optarg : Text)
  | throughput (optarg : Text)
  | batchSize (optarg : Text)
  | batchReadSize (optarg : Text)
  | batchWriteSize (optarg : Text)
  | batchDeleteSize (optarg : Text)
  | async

/-- The options that only store their argument. For the two with an optional argument, `next` is the next word of the command line. -/
inductive PlainOption where
  | hosts (optarg : Text)
  | port (optarg : Text)
  | user (optarg : Text)
  | password (optarg next : Option Text)
  | connectTimeout (optarg : Text)
  | servicesAlternate
  | maxErrorRate (optarg : Text)
  | tenderInterval (optarg : Text)
  | errorRateWindow (optarg : Text)
  | maxSocketIdle (optarg : Text)
  | nameSpace (optarg : Text)
  | set (optarg : Text)
  | bin (optarg : Text)
  | startKey (optarg : Text)
  | keys (optarg : Text)
  | threads (optarg : Text)
  | compress
  | compressionRatio (optarg : Text)
  | socketTimeout (optarg : Text)
  | readSocketTimeout (optarg : Text)
  | writeSocketTimeout (optarg : Text)
  | timeout (optarg : Text)
  | readTimeout (optarg : Text)
  | writeTimeout (optarg : Text)
  | maxRetries (optarg : Text)
  | sleepBetweenRetries (optarg : Text)
  | debug
  | latency
  | percentiles (optarg : Text)
  | outputFile (optarg : Text)
  | outputPeriod (optarg : Text)
  | hdrHist (optarg : Text)
  | shared
  | rackId (optarg : Text)
  | minConnsPerNode (optarg : Text)
  | maxConnsPerNode (optarg : Text)
  | connPoolsPerNode (optarg : Text)
  | asyncMinConnsPerNode (optarg : Text)
  | asyncMaxConnsPerNode (optarg : Text)
  | durableDelete
  | asyncMaxCommands (optarg : Text)
  | eventLoops (optarg : Text)
  | sendKey
  | tlsEnable
  | tlsName (optarg : Text)
  | tlsCafile (optarg : Text)
  | tlsCapath (optarg : Text)
  | tlsProtocols (optarg : Text)
  | tlsCipherSuite (optarg : Text)
  | tlsCrlCheck
  | tlsCrlCheckAll
  | tlsCertBlacklist (optarg : Text)
  | tlsLogSessionInfo
  | tlsKeyfile (optarg : Text)
  | tlsKeyfilePassword (optarg next : Option Text)
  | tlsCertfile (optarg : Text)
  | tlsLoginOnly

/-- What a call of `getopt_long_only` returns; `unknown` is the question mark, for what is not an option or lacks its argument. -/
inductive CmdOption where
  /-- The options -V and, deprecated, -v. -/
  | version (deprecated : Bool)
  | help
  | plain (o : PlainOption)
  | stage (o : StageOption)
  | objectSpec (optarg : Text)
  | workloadStages (optarg : Text)
  | replica (optarg : Text)
  | readModeAp (optarg : Text)
  | readModeSc (optarg : Text)
  | commitLevel (optarg : Text)
  | auth (optarg : Text)
  | unknown

/-! ## Errors -/

/-- Why the password of the key file cannot be read. -/
inductive PasswordError where
  | missingVariable (var : Text)
  | emptyVariable (var : Text)
  | missingFile (path : Text)
  | unreadableFile (path : Text)
  | longLine (path : Text)
  | emptyFile (path : Text)

/-- What `validate_args` finds wrong, with what its message names. -/
inductive ArgsError where
  | maxErrorRate (n : Int)
  | tenderInterval (n : Int)
  | errorRateWindow (n : Int)
  | maxSocketIdle (n : Int)
  | startKey (n : Nat)
  | keys (n : Nat)
  | threads (n : Int)
  | compressionRatio
  | connectTimeout (n : Int)
  | readSocketTimeout (n : Int)
  | writeSocketTimeout (n : Int)
  | readTotalTimeout (n : Int)
  | writeTotalTimeout (n : Int)
  | noPercentiles
  | percentile (p : FpNum)
  | percentileOrder (l r : FpNum)
  | histogramPeriod (n : Int)
  | minConnsPerNode (n : Int)
  | maxConnsPerNode (n : Int)
  | rackIdWithoutPreferRack
  | preferRackWithoutRackId
  | connPoolsPerNode (n : Int)
  | asyncMinConnsPerNode (n : Int)
  | asyncMaxConnsPerNode (n : Int)
  | asyncMaxCommands (n : Int)
  | eventLoops (n : Int)

/-- Why `set_args` stops. -/
inductive StopReason where
  | version
  | help
  /-- A workload stages file and an option of a stage. -/
  | stageWithFile (o : StageOption)
  | fileWithStage
  | udfPackageTooLong (name : Text)
  | udfFunctionTooLong (name : Text)
  | notDecimal (str : Text)
  | objSpec (failure : ParseFailure)
  | replica
  | readModeAp
  | readModeSc
  | commitLevel
  | authMode (str : Text)
  | unknown
  | keyfilePassword (e : PasswordError)
  | invalid (e : ArgsError)

/-- What `set_args` returns when it stops; for an object spec it is what `obj_spec_parse` returns. -/
def StopReason.ret : StopReason → Int
  | .version | .help | .stageWithFile _ | .fileWithStage | .udfPackageTooLong _ | .udfFunctionTooLong _ | .notDecimal _ | .objSpec _ => -1
  | .replica | .readModeAp | .readModeSc | .commitLevel | .authMode _ | .unknown | .keyfilePassword _ | .invalid _ => 1

/-- A stop, with the arguments as they are then. -/
structure Stopped where
  reason : StopReason
  args : Args

/-! ## Setting arguments -/

/-- The next word of the command line where it is taken for the argument of an option. -/
def wordAfter (next : Option Text) : Option Text :=
  next.filter fun word => word ≠ [] ∧ peek word ≠ '-'

/-- `AS_PASSWORD_SIZE` in the client library. -/
def passwordSize : Nat := 64

/-- The password: the next word if the option has no argument, cut to the buffer. -/
def passwordFrom (env : CmdEnv) (optarg next : Option Text) : Text :=
  match optarg, wordAfter next with
  | none, some word => word.take (passwordSize - 1)
  | _, _ => env.passwordAcquire optarg

/-- The cases of the options that only store their argument. -/
def PlainOption.store (env : CmdEnv) (args : Args) : PlainOption → Args
  | .hosts optarg => { args with hosts := optarg }
  | .port optarg => { args with port := atoi optarg }
  | .user optarg => { args with user := some optarg }
  | .password optarg next => { args with password := passwordFrom env optarg next }
  | .connectTimeout optarg => { args with connTimeoutMs := atoi optarg }
  | .servicesAlternate => { args with useServicesAlternate := true }
  | .maxErrorRate optarg => { args with maxErrorRate := atoi optarg }
  | .tenderInterval optarg => { args with tenderInterval := atoi optarg }
  | .errorRateWindow optarg => { args with errorRateWindow := atoi optarg }
  | .maxSocketIdle optarg => { args with maxSocketIdle := atoi optarg }
  | .nameSpace optarg => { args with nameSpace := optarg }
  | .set optarg => { args with set := optarg }
  | .bin optarg => { args with binName := optarg }
  | .startKey optarg => { args with startKey := strtoullValue optarg }
  | .keys optarg => { args with keys := strtoullValue optarg }
  | .threads optarg => { args with transactionWorkerThreads := atoi optarg }
  | .compress => { args with enableCompression := true }
  | .compressionRatio optarg => { args with compressionRatio := binary32.convert (atof optarg) }
  | .socketTimeout optarg => { args with readSocketTimeout := atoi optarg, writeSocketTimeout := atoi optarg }
  | .readSocketTimeout optarg => { args with readSocketTimeout := atoi optarg }
  | .writeSocketTimeout optarg => { args with writeSocketTimeout := atoi optarg }
  | .timeout optarg => { args with readTotalTimeout := atoi optarg, writeTotalTimeout := atoi optarg }
  | .readTimeout optarg => { args with readTotalTimeout := atoi optarg }
  | .writeTimeout optarg => { args with writeTotalTimeout := atoi optarg }
  | .maxRetries optarg => { args with maxRetries := atoi optarg }
  -- there is no break between this case and the next
  | .sleepBetweenRetries optarg => { args with sleepBetweenRetries := atoi optarg, debug := true }
  | .debug => { args with debug := true }
  | .latency => { args with latency := true }
  | .percentiles optarg => { args with latencyPercentiles := parsePercentiles optarg }
  | .outputFile optarg =>
    { args with
      latencyHistogram := true
      histogramOutput := if optarg = ['s', 't', 'd', 'o', 'u', 't'] then args.histogramOutput else some optarg }
  | .outputPeriod optarg => { args with histogramPeriod := atoi optarg }
  | .hdrHist optarg => { args with hdrOutput := some optarg }
  | .shared => { args with useShm := true }
  | .rackId optarg => { args with rackId := atoi optarg }
  | .minConnsPerNode optarg => { args with minConnsPerNode := atoi optarg }
  | .maxConnsPerNode optarg => { args with maxConnsPerNode := atoi optarg }
  | .connPoolsPerNode optarg => { args with connPoolsPerNode := atoi optarg }
  | .asyncMinConnsPerNode optarg => { args with asyncMinConnsPerNode := atoi optarg }
  | .asyncMaxConnsPerNode optarg => { args with asyncMaxConnsPerNode := atoi optarg }
  | .durableDelete => { args with durableDeletes := true }
  | .asyncMaxCommands optarg => { args with asyncMaxCommands := atoi optarg }
  | .eventLoops optarg => { args with eventLoopCapacity := atoi optarg }
  | .sendKey => { args with key := .send }
  | .tlsEnable => { args with tls := { args.tls with enable := true } }
  | .tlsName optarg => { args with tlsName := some optarg }
  | .tlsCafile optarg => { args with tls := { args.tls with cafile := some optarg } }
  | .tlsCapath optarg => { args with tls := { args.tls with capath := some optarg } }
  | .tlsProtocols optarg => { args with tls := { args.tls with protocols := some optarg } }
  | .tlsCipherSuite optarg => { args with tls := { args.tls with cipherSuite := some optarg } }
  | .tlsCrlCheck => { args with tls := { args.tls with crlCheck := true } }
  | .tlsCrlCheckAll => { args with tls := { args.tls with crlCheckAll := true } }
  | .tlsCertBlacklist optarg => { args with tls := { args.tls with certBlacklist := some optarg } }
  | .tlsLogSessionInfo => { args with tls := { args.tls with logSessionInfo := true } }
  | .tlsKeyfile optarg => { args with tls := { args.tls with keyfile := some optarg } }
  | .tlsKeyfilePassword optarg next =>
    { args with tls := { args.tls with keyfilePw := some (optarg.getD ((wordAfter next).getD [])) } }
  | .tlsCertfile optarg => { args with tls := { args.tls with certfile := some optarg } }
  | .tlsLoginOnly => { args with tls := { args.tls with forLoginOnly := true } }

/-- The check of a decimal number, for where its conversion ends: at the end of the argument, which is not empty. -/
def checkDecimal (optarg : Text) (endptr : Option Text) : Option StopReason :=
  if endptr = some [] then none else some (.notDecimal optarg)

/-- The cases of the options of a stage: the stage definition, and why `set_args` stops if it does. -/
def StageOption.store (s : CmdStage) : StageOption → CmdStage × Option StopReason
  | .udfPackageName optarg =>
    if udfNameSize < optarg.length then (s, some (.udfPackageTooLong optarg)) else ({ s with udfPackageName := some optarg }, none)
  | .udfFunctionName optarg =>
    if udfNameSize < optarg.length then (s, some (.udfFunctionTooLong optarg)) else ({ s with udfFnName := some optarg }, none)
  | .udfFunctionValues optarg => ({ s with udfFnArgs := some optarg }, none)
  | .random => ({ s with random := true }, none)
  | .expirationTime optarg =>
    ({ s with ttl := toUnsigned 64 (strtolValue optarg) }, checkDecimal optarg ((strtol 10 optarg).map (·.rest)))
  | .duration optarg =>
    ({ s with duration := strtoullValue optarg }, checkDecimal optarg ((strtoul 10 optarg).map (·.rest)))
  | .workload optarg => ({ s with workloadStr := some optarg }, none)
  | .readBins optarg => ({ s with readBinsStr := some optarg }, none)
  | .writeBins optarg => ({ s with writeBinsStr := some optarg }, none)
  | .throughput optarg => ({ s with tps := toUnsigned 64 (atoi optarg) }, none)
  | .batchSize optarg => ({ s with batchSize := toUnsigned 32 (atoi optarg) }, none)
  | .batchReadSize optarg => ({ s with batchReadSize := toUnsigned 32 (atoi optarg) }, none)
  | .batchWriteSize optarg => ({ s with batchWriteSize := toUnsigned 32 (atoi optarg) }, none)
  | .batchDeleteSize optarg => ({ s with batchDeleteSize := toUnsigned 32 (atoi optarg) }, none)
  | .async => ({ s with async := true }, none)

/-- The replica policy of a name. -/
def replicaOf (optarg : Text) : Option ReplicaPolicy :=
  if optarg = "master".toList then some .master
  else if optarg = "any".toList then some .any
  else if optarg = "sequence".toList then some .sequence
  else if optarg = "prefer-rack".toList then some .preferRack
  else none

/-- The read mode for namespaces with availability of a name. -/
def readModeApOf (optarg : Text) : Option ReadModeAp :=
  if optarg = "one".toList then some .one else if optarg = "all".toList then some .all else none

/-- The read mode for namespaces with strong consistency of a name. -/
def readModeScOf (optarg : Text) : Option ReadModeSc :=
  if optarg = "session".toList then some .session
  else if optarg = "linearize".toList then some .linearize
  else if optarg = "allowReplica".toList then some .allowReplica
  else if optarg = "allowUnavailable".toList then some .allowUnavailable
  else none

/-- The commit level of a name. -/
def commitLevelOf (optarg : Text) : Option CommitLevel :=
  if optarg = "all".toList then some .all else if optarg = "master".toList then some .master else none

/-- An option with a list of names to choose from. -/
def choose {α : Type} (args : Args) (choice : Option α) (reason : StopReason) (assign : α → Args) : Except Stopped Args :=
  match choice with
  | some v => .ok (assign v)
  | none => .error ⟨reason, args⟩

/-- The switch in the loop of `set_args`. -/
def setOption (R : AsRandom) (env : CmdEnv) (args : Args) : CmdOption → Except Stopped Args
  | .version _ => .error ⟨.version, args⟩
  | .help => .error ⟨.help, args⟩
  | .plain o => .ok (o.store env args)
  | .stage o =>
    if args.workloadStagesFile ≠ none then .error ⟨.stageWithFile o, args⟩
    else
      let (s, reason) := o.store args.getOrInitStage
      let args := { args with stageDef := some s }
      match reason with
      | none => .ok args
      | some reason => .error ⟨reason, args⟩
  | .objectSpec optarg =>
    match objSpecParse R optarg with
    | .ok o => .ok { args with objSpec := o, objSpecValid := true }
    | .error e => .error ⟨.objSpec e, { args with objSpecValid := false }⟩
  | .workloadStages optarg =>
    if args.stageDef ≠ none then .error ⟨.fileWithStage, args⟩ else .ok { args with workloadStagesFile := some optarg }
  | .replica optarg => choose args (replicaOf optarg) .replica fun v => { args with replica := v }
  | .readModeAp optarg => choose args (readModeApOf optarg) .readModeAp fun v => { args with readModeAp := v }
  | .readModeSc optarg => choose args (readModeScOf optarg) .readModeSc fun v => { args with readModeSc := v }
  | .commitLevel optarg => choose args (commitLevelOf optarg) .commitLevel fun v => { args with writeCommitLevel := v }
  | .auth optarg => choose args (env.authModeFromString optarg) (.authMode optarg) fun v => { args with authMode := v }
  | .unknown => .error ⟨.unknown, args⟩

/-- The loop of `set_args`. -/
def setOptions (R : AsRandom) (env : CmdEnv) (args : Args) (options : List CmdOption) : Except Stopped Args :=
  runUntilError (setOption R env) args options

/-! ## Passwords -/

/-- `password_env`. -/
def passwordEnv (env : CmdEnv) (var : Text) : Except PasswordError Text :=
  match env.getenv var with
  | none => .error (.missingVariable var)
  | some [] => .error (.emptyVariable var)
  | some pw => .ok pw

/-- `password_file`: the first line of the file, which is cut at 4999 characters. -/
def passwordFile (env : CmdEnv) (path : Text) : Except PasswordError Text :=
  match env.firstLine path with
  | none => .error (.missingFile path)
  | some none => .error (.unreadableFile path)
  | some (some line) =>
    let pw := line.takeWhile fun c => c ≠ '\n' ∧ c ≠ '\r'
    if pw.length = 4999 then .error (.longLine path)
    else if pw = [] then .error (.emptyFile path)
    else .ok pw

/-- `tls_read_password`. -/
def tlsReadPassword (env : CmdEnv) (value : Text) : Except PasswordError Text :=
  if value.take 4 = "env:".toList then passwordEnv env (value.drop 4)
  else if value.take 5 = "file:".toList then passwordFile env (value.drop 5)
  else .ok value

/-- The password of the key file, which is asked for if it is empty. -/
def setKeyfilePassword (env : CmdEnv) (args : Args) : Except Stopped Args :=
  match args.tls.keyfile, args.tls.keyfilePw with
  | some _, some pw =>
    let oldPass := if pw = [] then env.getpass else pw
    match tlsReadPassword env oldPass with
    | .ok pw => .ok { args with tls := { args.tls with keyfilePw := some pw } }
    | .error e => .error ⟨.keyfilePassword e, { args with tls := { args.tls with keyfilePw := some oldPass } }⟩
  | _, _ => .ok args

/-- The password of a user who gave none. -/
def setPassword (env : CmdEnv) (args : Args) : Args :=
  if args.user ≠ none ∧ args.password = [] then { args with password := env.passwordAcquire none } else args

/-! ## Validation -/

/-- A check of `validate_args`. -/
def ensure (p : Prop) [Decidable p] (e : ArgsError) : Except ArgsError Unit := if p then .ok () else .error e

/-- The percentiles are from 0 to below 100, the first that is not is reported. -/
def checkPercentiles : List FpNum → Except ArgsError Unit
  | [] => .ok ()
  | itm :: perc => do
    ensure (!(itm.lt (.num 0) || itm.ge (.num 100))) (.percentile itm)
    checkPercentiles perc

/-- They are in ascending order. -/
def checkOrder : List FpNum → Except ArgsError Unit
  | l :: r :: perc => do
    ensure (!l.ge r) (.percentileOrder l r)
    checkOrder (r :: perc)
  | _ => .ok ()

/-- The checks of the percentiles. -/
def validatePercentiles (args : Args) : Except ArgsError Unit :=
  if args.latency then do
    ensure (args.latencyPercentiles ≠ []) .noPercentiles
    checkPercentiles args.latencyPercentiles
    checkOrder args.latencyPercentiles
  else .ok ()

/-- `validate_args`. That fewer connections than commands are allowed is only a warning. -/
def validateArgs (args : Args) : Except ArgsError Unit := do
  ensure (0 ≤ args.maxErrorRate) (.maxErrorRate args.maxErrorRate)
  ensure (0 ≤ args.tenderInterval) (.tenderInterval args.tenderInterval)
  ensure (0 ≤ args.errorRateWindow) (.errorRateWindow args.errorRateWindow)
  ensure (0 ≤ args.maxSocketIdle) (.maxSocketIdle args.maxSocketIdle)
  ensure (args.startKey ≠ 2 ^ 64 - 1) (.startKey args.startKey)
  ensure (args.keys ≠ 2 ^ 64 - 1) (.keys args.keys)
  ensure (0 < args.transactionWorkerThreads ∧ args.transactionWorkerThreads ≤ 10000) (.threads args.transactionWorkerThreads)
  ensure (!(args.compressionRatio.lt (binary64.ofRat (1 / 1000)) || (FpNum.num 1).lt args.compressionRatio)) .compressionRatio
  ensure (0 ≤ args.connTimeoutMs) (.connectTimeout args.connTimeoutMs)
  ensure (0 ≤ args.readSocketTimeout) (.readSocketTimeout args.readSocketTimeout)
  ensure (0 ≤ args.writeSocketTimeout) (.writeSocketTimeout args.writeSocketTimeout)
  ensure (0 ≤ args.readTotalTimeout) (.readTotalTimeout args.readTotalTimeout)
  ensure (0 ≤ args.writeTotalTimeout) (.writeTotalTimeout args.writeTotalTimeout)
  validatePercentiles args
  ensure (args.latencyHistogram = true ∨ args.latency = true → 0 < args.histogramPeriod) (.histogramPeriod args.histogramPeriod)
  ensure (0 ≤ args.minConnsPerNode) (.minConnsPerNode args.minConnsPerNode)
  ensure (0 ≤ args.maxConnsPerNode) (.maxConnsPerNode args.maxConnsPerNode)
  ensure (args.replica = .preferRack ∨ args.rackId = -1) .rackIdWithoutPreferRack
  ensure (args.replica ≠ .preferRack ∨ args.rackId ≠ -1) .preferRackWithoutRackId
  ensure (0 < args.connPoolsPerNode ∧ args.connPoolsPerNode ≤ 1000) (.connPoolsPerNode args.connPoolsPerNode)
  ensure (0 ≤ args.asyncMinConnsPerNode) (.asyncMinConnsPerNode args.asyncMinConnsPerNode)
  ensure (0 ≤ args.asyncMaxConnsPerNode) (.asyncMaxConnsPerNode args.asyncMaxConnsPerNode)
  ensure (0 < args.asyncMaxCommands ∧ args.asyncMaxCommands ≤ 5000) (.asyncMaxCommands args.asyncMaxCommands)
  ensure (0 < args.eventLoopCapacity ∧ args.eventLoopCapacity ≤ 1000) (.eventLoops args.eventLoopCapacity)

/-- What follows the loop of `set_args`. -/
def finishArgs (env : CmdEnv) (args : Args) : Except Stopped Args :=
  match setKeyfilePassword env args with
  | .error s => .error s
  | .ok args =>
    let args := setPassword env args
    match validateArgs args with
    | .error e => .error ⟨.invalid e, args⟩
    | .ok _ => .ok args

/-- `set_args`. -/
def setArgs (R : AsRandom) (env : CmdEnv) (args : Args) (options : List CmdOption) : Except Stopped Args :=
  match setOptions R env args options with
  | .error s => .error s
  | .ok args => finishArgs env args

end AerospikeBenchmark
