import AerospikeBenchmark.Args.SetArgs

/-!
# Settings

The fields of the arguments by name, those of the stage definition of the command line, and which of them the usage text documents for
each option.
-/

namespace AerospikeBenchmark

open CText

/-- The fields of `args_t` that options set, with those of `as_config_tls` one by one. -/
inductive ArgsField where
  | hosts | port | useServicesAlternate | maxErrorRate | tenderInterval | errorRateWindow | maxSocketIdle | user | password
  | nameSpace | set | binName | startKey | keys | stageDef | workloadStagesFile | objSpec | transactionWorkerThreads
  | enableCompression | compressionRatio | connTimeoutMs | readSocketTimeout | writeSocketTimeout | readTotalTimeout
  | writeTotalTimeout | maxRetries | sleepBetweenRetries | debug | latency | latencyPercentiles | latencyHistogram | histogramOutput
  | histogramPeriod | hdrOutput | useShm | key | replica | rackId | readModeAp | readModeSc | writeCommitLevel | minConnsPerNode
  | maxConnsPerNode | connPoolsPerNode | asyncMinConnsPerNode | asyncMaxConnsPerNode | durableDeletes | asyncMaxCommands
  | eventLoopCapacity | tlsEnable | tlsCafile | tlsCapath | tlsProtocols | tlsCipherSuite | tlsCrlCheck | tlsCrlCheckAll
  | tlsCertBlacklist | tlsLogSessionInfo | tlsKeyfile | tlsKeyfilePw | tlsCertfile | tlsForLoginOnly | tlsName | authMode
deriving DecidableEq, Repr

/-- The value of a field. -/
inductive ArgsValue where
  | text (v : Text)
  | int (v : Int)
  | bool (v : Bool)
  | optText (v : Option Text)
  | nat (v : Nat)
  | num (v : FpNum)
  | nums (v : List FpNum)
  | key (v : KeyPolicy)
  | replica (v : ReplicaPolicy)
  | readModeAp (v : ReadModeAp)
  | readModeSc (v : ReadModeSc)
  | commitLevel (v : CommitLevel)
  | authMode (v : AuthMode)
  | stageDef (v : Option CmdStage)
  | objSpec (v : ObjSpec) (valid : Bool)

/-- The value of a field of the arguments. -/
def Args.get (args : Args) : ArgsField → ArgsValue
  | .hosts => .text args.hosts
  | .port => .int args.port
  | .useServicesAlternate => .bool args.useServicesAlternate
  | .maxErrorRate => .int args.maxErrorRate
  | .tenderInterval => .int args.tenderInterval
  | .errorRateWindow => .int args.errorRateWindow
  | .maxSocketIdle => .int args.maxSocketIdle
  | .user => .optText args.user
  | .password => .text args.password
  | .nameSpace => .text args.nameSpace
  | .set => .text args.set
  | .binName => .text args.binName
  | .startKey => .nat args.startKey
  | .keys => .nat args.keys
  | .stageDef => .stageDef args.stageDef
  | .workloadStagesFile => .optText args.workloadStagesFile
  | .objSpec => .objSpec args.objSpec args.objSpecValid
  | .transactionWorkerThreads => .int args.transactionWorkerThreads
  | .enableCompression => .bool args.enableCompression
  | .compressionRatio => .num args.compressionRatio
  | .connTimeoutMs => .int args.connTimeoutMs
  | .readSocketTimeout => .int args.readSocketTimeout
  | .writeSocketTimeout => .int args.writeSocketTimeout
  | .readTotalTimeout => .int args.readTotalTimeout
  | .writeTotalTimeout => .int args.writeTotalTimeout
  | .maxRetries => .int args.maxRetries
  | .sleepBetweenRetries => .int args.sleepBetweenRetries
  | .debug => .bool args.debug
  | .latency => .bool args.latency
  | .latencyPercentiles => .nums args.latencyPercentiles
  | .latencyHistogram => .bool args.latencyHistogram
  | .histogramOutput => .optText args.histogramOutput
  | .histogramPeriod => .int args.histogramPeriod
  | .hdrOutput => .optText args.hdrOutput
  | .useShm => .bool args.useShm
  | .key => .key args.key
  | .replica => .replica args.replica
  | .rackId => .int args.rackId
  | .readModeAp => .readModeAp args.readModeAp
  | .readModeSc => .readModeSc args.readModeSc
  | .writeCommitLevel => .commitLevel args.writeCommitLevel
  | .minConnsPerNode => .int args.minConnsPerNode
  | .maxConnsPerNode => .int args.maxConnsPerNode
  | .connPoolsPerNode => .int args.connPoolsPerNode
  | .asyncMinConnsPerNode => .int args.asyncMinConnsPerNode
  | .asyncMaxConnsPerNode => .int args.asyncMaxConnsPerNode
  | .durableDeletes => .bool args.durableDeletes
  | .asyncMaxCommands => .int args.asyncMaxCommands
  | .eventLoopCapacity => .int args.eventLoopCapacity
  | .tlsEnable => .bool args.tls.enable
  | .tlsCafile => .optText args.tls.cafile
  | .tlsCapath => .optText args.tls.capath
  | .tlsProtocols => .optText args.tls.protocols
  | .tlsCipherSuite => .optText args.tls.cipherSuite
  | .tlsCrlCheck => .bool args.tls.crlCheck
  | .tlsCrlCheckAll => .bool args.tls.crlCheckAll
  | .tlsCertBlacklist => .optText args.tls.certBlacklist
  | .tlsLogSessionInfo => .bool args.tls.logSessionInfo
  | .tlsKeyfile => .optText args.tls.keyfile
  | .tlsKeyfilePw => .optText args.tls.keyfilePw
  | .tlsCertfile => .optText args.tls.certfile
  | .tlsForLoginOnly => .bool args.tls.forLoginOnly
  | .tlsName => .optText args.tlsName
  | .authMode => .authMode args.authMode

/-- The fields of the stage definition that options set. -/
inductive StageDefField where
  | duration | tps | ttl | batchSize | batchReadSize | batchWriteSize | batchDeleteSize | async | random | workloadStr | readBinsStr
  | writeBinsStr | udfPackageName | udfFnName | udfFnArgs
deriving DecidableEq, Repr

/-- The value of a field of the stage definition. -/
def CmdStage.get (s : CmdStage) : StageDefField → ArgsValue
  | .duration => .nat s.duration
  | .tps => .nat s.tps
  | .ttl => .nat s.ttl
  | .batchSize => .nat s.batchSize
  | .batchReadSize => .nat s.batchReadSize
  | .batchWriteSize => .nat s.batchWriteSize
  | .batchDeleteSize => .nat s.batchDeleteSize
  | .async => .bool s.async
  | .random => .bool s.random
  | .workloadStr => .optText s.workloadStr
  | .readBinsStr => .optText s.readBinsStr
  | .writeBinsStr => .optText s.writeBinsStr
  | .udfPackageName => .optText s.udfPackageName
  | .udfFnName => .optText s.udfFnName
  | .udfFnArgs => .optText s.udfFnArgs

/-! ## What the usage text documents -/

/-- The field of the stage definition that the usage text documents for an option. -/
def StageOption.documented : StageOption → StageDefField
  | .udfPackageName _ => .udfPackageName
  | .udfFunctionName _ => .udfFnName
  | .udfFunctionValues _ => .udfFnArgs
  | .random => .random
  | .expirationTime _ => .ttl
  | .duration _ => .duration
  | .workload _ => .workloadStr
  | .readBins _ => .readBinsStr
  | .writeBins _ => .writeBinsStr
  | .throughput _ => .tps
  | .batchSize _ => .batchSize
  | .batchReadSize _ => .batchReadSize
  | .batchWriteSize _ => .batchWriteSize
  | .batchDeleteSize _ => .batchDeleteSize
  | .async => .async

/-- The fields that the usage text documents for an option. -/
def PlainOption.documented : PlainOption → List ArgsField
  | .hosts _ => [.hosts]
  | .port _ => [.port]
  | .user _ => [.user]
  | .password _ _ => [.password]
  -- under the name of --connection-timeout
  | .connectTimeout _ => [.connTimeoutMs]
  | .servicesAlternate => [.useServicesAlternate]
  | .maxErrorRate _ => [.maxErrorRate]
  | .tenderInterval _ => [.tenderInterval]
  | .errorRateWindow _ => [.errorRateWindow]
  | .maxSocketIdle _ => [.maxSocketIdle]
  | .nameSpace _ => [.nameSpace]
  | .set _ => [.set]
  | .bin _ => [.binName]
  | .startKey _ => [.startKey]
  | .keys _ => [.keys]
  | .threads _ => [.transactionWorkerThreads]
  | .compress => [.enableCompression]
  | .compressionRatio _ => [.compressionRatio]
  | .socketTimeout _ => [.readSocketTimeout, .writeSocketTimeout]
  | .readSocketTimeout _ => [.readSocketTimeout]
  | .writeSocketTimeout _ => [.writeSocketTimeout]
  | .timeout _ => [.readTotalTimeout, .writeTotalTimeout]
  | .readTimeout _ => [.readTotalTimeout]
  | .writeTimeout _ => [.writeTotalTimeout]
  | .maxRetries _ => [.maxRetries]
  | .sleepBetweenRetries _ => [.sleepBetweenRetries]
  | .debug => [.debug]
  | .latency => [.latency]
  | .percentiles _ => [.latencyPercentiles]
  -- the file, which enables the histogram
  | .outputFile _ => [.latencyHistogram, .histogramOutput]
  | .outputPeriod _ => [.histogramPeriod]
  | .hdrHist _ => [.hdrOutput]
  | .shared => [.useShm]
  | .rackId _ => [.rackId]
  | .minConnsPerNode _ => [.minConnsPerNode]
  | .maxConnsPerNode _ => [.maxConnsPerNode]
  | .connPoolsPerNode _ => [.connPoolsPerNode]
  | .asyncMinConnsPerNode _ => [.asyncMinConnsPerNode]
  | .asyncMaxConnsPerNode _ => [.asyncMaxConnsPerNode]
  | .durableDelete => [.durableDeletes]
  | .asyncMaxCommands _ => [.asyncMaxCommands]
  | .eventLoops _ => [.eventLoopCapacity]
  | .sendKey => [.key]
  | .tlsEnable => [.tlsEnable]
  | .tlsName _ => [.tlsName]
  | .tlsCafile _ => [.tlsCafile]
  | .tlsCapath _ => [.tlsCapath]
  | .tlsProtocols _ => [.tlsProtocols]
  | .tlsCipherSuite _ => [.tlsCipherSuite]
  | .tlsCrlCheck => [.tlsCrlCheck]
  | .tlsCrlCheckAll => [.tlsCrlCheckAll]
  | .tlsCertBlacklist _ => [.tlsCertBlacklist]
  | .tlsLogSessionInfo => [.tlsLogSessionInfo]
  | .tlsKeyfile _ => [.tlsKeyfile]
  | .tlsKeyfilePassword _ _ => [.tlsKeyfilePw]
  | .tlsCertfile _ => [.tlsCertfile]
  | .tlsLoginOnly => [.tlsForLoginOnly]

/-- The fields that the usage text documents for an option; for the options of a stage it is the stage definition. -/
def CmdOption.documented : CmdOption → List ArgsField
  | .version _ | .help | .unknown => []
  | .plain o => o.documented
  | .stage _ => [.stageDef]
  | .objectSpec _ => [.objSpec]
  | .workloadStages _ => [.workloadStagesFile]
  | .replica _ => [.replica]
  | .readModeAp _ => [.readModeAp]
  | .readModeSc _ => [.readModeSc]
  | .commitLevel _ => [.writeCommitLevel]
  | .auth _ => [.authMode]

/-- The fields of the stage definition that the usage text documents for an option. -/
def CmdOption.documentedInStage : CmdOption → List StageDefField
  | .stage o => [o.documented]
  | _ => []

/-- Two results of `set_args` differ only in what the usage text documents for an option. A stage definition that does not exist has
the defaults of one that is created. -/
structure DifferOnlyIn (o : CmdOption) (args args' : Args) : Prop where
  fields : ∀ f ∉ o.documented, args.get f = args'.get f
  stage : ∀ f ∉ o.documentedInStage, args.getOrInitStage.get f = args'.getOrInitStage.get f

end AerospikeBenchmark
