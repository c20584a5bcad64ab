import AerospikeBenchmark.Transaction.Async

/-!
# Histograms of a whole benchmark

`initialize_histograms` sets up the histograms once, from the options and from what the stages contain. Then the stages run one
after the other, each synchronously or asynchronously, and record into them. The counters, which the output thread takes and resets
meanwhile, play no part here.
-/

namespace AerospikeBenchmark

open CText

/-- The options of `args_t` on latencies: `latency`, `output-file` (standard output when it names no file) and `hdr-hist`. -/
structure LatencyArgs where
  latency : Bool
  latencyHistogram : Bool
  histogramOutput : Option Text
  hdrOutput : Option Text
deriving DecidableEq, Repr

/-- What the set-up takes from the system: the files that can be opened, and the time as text. -/
structure OutputEnv where
  fopen : Text → Bool
  utcTime : Text

/-- The classes that the stages contain. -/
def stagesContain (stages : List Stage) : PerClass Bool :=
  ⟨stagesContainReads stages, stagesContainWrites stages, stagesContainUdfs stages⟩

/-- The start of the names of a class's HDR output files. -/
def hdrFileStart : OpClass → Text
  | .read => ['/', 'r', 'e', 'a', 'd', '_']
  | .write => ['/', 'w', 'r', 'i', 't', 'e', '_']
  | .udf => ['/', 'u', 'd', 'f', '_']

/-- Whether the compressed HDR output of a class is set; none when one of its two files cannot be opened. -/
def openHdrOutput (env : OutputEnv) (args : LatencyArgs) (c : OpClass) (has : Bool) : Option Bool :=
  match args.hdrOutput with
  | none => some false
  | some dir =>
    let path := dir ++ hdrFileStart c ++ env.utcTime
    if !has then some false
    else if env.fopen (path ++ ['.', 'h', 'd', 'r', 'h', 'i', 's', 't']) && env.fopen (path ++ ['.', 't', 'x', 't']) then some true
    else none

/-- Whether the histogram output is set; none when its file cannot be opened. -/
def openHistogramOutput (env : OutputEnv) (args : LatencyArgs) : Option Bool :=
  if !args.latencyHistogram then some false else if args.histogramOutput.all env.fopen then some true else none

/-- `initialize_histograms`, on the part of `cdata_t` that the record functions read; none when it fails, and then nothing is run. -/
def initializeHistograms (env : OutputEnv) (args : LatencyArgs) (stages : List Stage) : Option LatencySetup := do
  let has := stagesContain stages
  let histogramOutput ← openHistogramOutput env args
  let write ← openHdrOutput env args .write has.write
  let read ← openHdrOutput env args .read has.read
  let udf ← openHdrOutput env args .udf has.udf
  let perClass (on : Bool) : PerClass Bool := ⟨on && has.read, on && has.write, on && has.udf⟩
  return {
    latency := args.latency
    histogramOutput := histogramOutput
    hdrCompOutput := ⟨read, write, udf⟩
    hdr := perClass (args.latency || args.hdrOutput.isSome)
    histogram := perClass args.latencyHistogram }

/-! ## Running the stages -/

/-- A round of a synchronous stage: the word drawn, and the status and the latency of the call. -/
structure SyncRound where
  word : Nat
  status : AsStatus
  dtUs : Nat
deriving DecidableEq, Repr

/-- The accounting of a round. -/
def syncRound (cast : FpNum → Nat) (s : Stage) (cd : CData) (r : SyncRound) : CData :=
  syncOperation s (s.workload.choose cast (randomFp r.word)) r.status r.dtUs cd

/-- What happens in a stage: the rounds of all workers in the order in which their calls return, or the events of the asynchronous
stage from the items' memory on. -/
inductive StageRun where
  | sync (rounds : List SyncRound)
  | async (items : List AsyncData) (events : List (AsyncEvent items.length))

/-- A stage run to some point. -/
def runStage (cast : FpNum → Nat) (s : Stage) (cd : CData) : StageRun → Option CData
  | .sync rounds => if s.async then none else some (rounds.foldl (syncRound cast s) cd)
  | .async items events =>
    if s.async then (Runs.run (asyncStep cast s) (AsyncState.init items.get cd) events).map AsyncState.cdata else none

/-- A benchmark between stages: the stages still to run. -/
structure BenchState where
  stages : List Stage
  cdata : CData

/-- The next stage runs. -/
def benchStep (cast : FpNum → Nat) (b : BenchState) (r : StageRun) : Option BenchState :=
  match b.stages with
  | [] => none
  | s :: rest => (runStage cast s b.cdata r).map fun cd => ⟨rest, cd⟩

end AerospikeBenchmark
