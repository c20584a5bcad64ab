import AerospikeBenchmark.Latency.Buckets
import AerospikeBenchmark.Latency.Hdr
import AerospikeBenchmark.Latency.Histograms

/-!
# What the latency sinks receive

The HDR histograms and the bucket histograms after the uses that the record functions have made of them, and a benchmark that also
keeps the operations that succeeded.
-/

namespace AerospikeBenchmark

open CText

/-- The ranges of the bucket histograms of `initialize_histograms`, which start at 100. -/
def latencyRanges : List RangeSpec := [⟨4000, 100⟩, ⟨64000, 1000⟩, ⟨128000, 4000⟩]

/-- The bucket histogram of a class, laid out if it was initialised and zero otherwise. -/
def latencyHistogram (l : LatencySetup) (c : OpClass) : Histogram :=
  if l.histogram.get c then (histogramInit 100 latencyRanges).getD .zeroed else .zeroed

/-- The values that the uses of a histogram of a class hand to it. -/
def valuesOf (t : HistogramType) (c : OpClass) (uses : List HistogramUse) : List Nat :=
  (uses.filter fun u => u.type = t && u.opClass = c).map HistogramUse.value

/-- The HDR histogram of a class after the uses so far; none if it was never allocated. -/
def hdrAfter (l : LatencySetup) (uses : List HistogramUse) (c : OpClass) : Option HdrHistogram :=
  if l.hdr.get c then (hdrInit 1 1000000 3).map fun h => (valuesOf .hdr c uses).foldl (fun h v => (hdrRecordValueAtomic h v).1) h
  else none

/-- The counters of the bucket histogram of a class that the uses so far have incremented, one for each increment. -/
def bucketIncrements (l : LatencySetup) (uses : List HistogramUse) (c : OpClass) : List Cell :=
  (valuesOf .buckets c uses).filterMap (histogramCell (latencyHistogram l c))

/-! ## The operations that succeed -/

/-- The results of a stage run to some point, in the order in which they are accounted. -/
def StageRun.results (cast : FpNum → Nat) (s : Stage) (cd : CData) : StageRun → List OpResult
  | .sync rounds => rounds.map fun r => ⟨(s.workload.choose cast (randomFp r.word)).opClass, r.status, r.dtUs⟩
  | .async items events =>
    ((Runs.run (asyncStep cast s) (AsyncState.init items.get cd) events).map fun st =>
      st.completed.map Completion.result).getD []

/-- Whether an operation succeeded. Synchronous UDF calls also succeed on a record that is not found. -/
def OpResult.succeeded (async : Bool) (r : OpResult) : Bool :=
  r.status = .ok || (!async && r.op = .udf && r.status = .errRecordNotFound)

/-- The successes of a stage run to some point. -/
def StageRun.successes (cast : FpNum → Nat) (s : Stage) (cd : CData) (r : StageRun) : List OpResult :=
  (r.results cast s cd).filter (OpResult.succeeded s.async)

/-- A benchmark between stages, with the operations that have succeeded. -/
structure ObservedBench where
  bench : BenchState
  successes : List OpResult

/-- The next stage runs. -/
def observedStep (cast : FpNum → Nat) (o : ObservedBench) (r : StageRun) : Option ObservedBench :=
  match o.bench.stages with
  | [] => none
  | s :: _ => (benchStep cast o.bench r).map fun b => ⟨b, o.successes ++ r.successes cast s o.bench.cdata⟩

/-- A benchmark set up and not yet run. -/
def ObservedBench.start (stages : List Stage) (l : LatencySetup) : ObservedBench := ⟨⟨stages, ⟨l, {}, []⟩⟩, []⟩

/-- What a step does. -/
theorem observedStep_cases {cast : FpNum → Nat} {o o' : ObservedBench} {r : StageRun} (h : observedStep cast o r = some o') :
    ∃ s rest cd, o.bench.stages = s :: rest ∧ runStage cast s o.bench.cdata r = some cd ∧
      o' = ⟨⟨rest, cd⟩, o.successes ++ r.successes cast s o.bench.cdata⟩ := by
  unfold observedStep at h
  split at h
  · cases h
  · next s rest hs =>
    simp only [benchStep, hs, Option.map_map, Option.map_eq_some_iff, Function.comp_apply] at h
    obtain ⟨cd, hrun, rfl⟩ := h
    exact ⟨s, rest, cd, hs, hrun, rfl⟩

end AerospikeBenchmark
