import AerospikeBenchmark.Latency.Sinks
import AerospikeBenchmark.Lemmas.Buckets
import AerospikeBenchmark.Theorems.AsyncTags
import AerospikeBenchmark.Theorems.HistogramUses

/-!
# Every enabled sink receives every success

The record functions use the HDR histograms only for the `latency` option, not for `hdr-hist`, and an HDR histogram turns away
latencies of more than 20 bits. Otherwise every success under its own tag reaches the sinks of its class once.
-/

namespace AerospikeBenchmark

open CText

/-! ## The uses that successes make -/

/-- The set-up is still the same, and the uses of histograms so far are those of a list of successes. -/
structure Recorded (l : LatencySetup) (rs : List OpResult) (cd : CData) : Prop where
  setup : cd.setup = l
  uses : cd.uses = rs.flatMap fun r => l.uses r.op r.dtUs

variable {l : LatencySetup} {rs : List OpResult} {cd : CData}

/-- Accounting an operation adds it to the successes when it is recorded. -/
theorem Recorded.accounts (h : Recorded l rs cd) (r : OpResult) {p : OpResult → Bool} {cd' : CData}
    (hacc : Accounts r.op r.dtUs (p r) cd cd') : Recorded l (rs ++ [r].filter p) cd' := by
  refine ⟨hacc.setup.trans h.setup, ?_⟩
  rw [hacc.uses, h.uses, h.setup, List.flatMap_append]
  cases hp : p r <;> simp [hp]

/-- The listener records a success, given the tag of its class. -/
theorem Recorded.accountAsync (h : Recorded l rs cd) (r : OpResult) :
    Recorded l (rs ++ [r].filter (OpResult.succeeded true)) (accountAsync cd r) := by
  have hacc := accounts_asyncListener (some r.op.tag) r.status.err r.dtUs cd
  have hok : r.status.err.isNone = r.succeeded true := by
    cases hstatus : r.status <;> simp [AsStatus.err, OpResult.succeeded, hstatus]
  rw [tagClass_tag, hok] at hacc
  exact h.accounts r hacc

theorem Recorded.foldl_accountAsync (results : List OpResult) (h : Recorded l rs cd) :
    Recorded l (rs ++ results.filter (OpResult.succeeded true)) (results.foldl AerospikeBenchmark.accountAsync cd) := by
  induction results generalizing rs cd with
  | nil => simpa using h
  | cons r results ih =>
    have hstep := ih (h.accountAsync r)
    rwa [List.append_assoc, ← List.filter_append] at hstep

variable {cast : FpNum → Nat} {s : Stage}

theorem Recorded.syncRounds (rounds : List SyncRound) (h : Recorded l rs cd) :
    Recorded l (rs ++ ((StageRun.sync rounds).results cast s cd).filter (OpResult.succeeded false))
      (rounds.foldl (syncRound cast s) cd) := by
  induction rounds generalizing rs cd with
  | nil => simpa [StageRun.results] using h
  | cons r rounds ih =>
    have hacc := accounts_syncOperation s (s.workload.choose cast (randomFp r.word)) r.status r.dtUs cd
    have hstep := ih (h.accounts ⟨(s.workload.choose cast (randomFp r.word)).opClass, r.status, r.dtUs⟩ hacc)
    rwa [List.append_assoc, ← List.filter_append] at hstep

/-- A stage whose operations carry the tags of their kind records its successes. -/
theorem Recorded.runStage {cd' : CData} {r : StageRun} (h : Recorded l rs cd)
    (hready : ∀ items events, r = .async items events →
      Runs.Along (asyncStep cast s) (TagReady cast s) (AsyncState.init items.get cd) events)
    (hrun : runStage cast s cd r = some cd') : Recorded l (rs ++ r.successes cast s cd) cd' := by
  cases r with
  | sync rounds =>
    simp only [AerospikeBenchmark.runStage, Option.ite_none_left_eq_some, Option.some.injEq] at hrun
    obtain ⟨hsync, rfl⟩ := hrun
    rw [StageRun.successes, Bool.of_not_eq_true hsync]
    exact h.syncRounds rounds
  | async items events =>
    simp only [AerospikeBenchmark.runStage, Option.ite_none_right_eq_some, Option.map_eq_some_iff] at hrun
    obtain ⟨hasync, st, hst, rfl⟩ := hrun
    have haccounted := (Runs.throughout_of_along accounted_step (accounted_init items.get cd) (hready items events rfl)).last hst
    rw [haccounted.cdata, StageRun.successes, hasync, StageRun.results, hst]
    exact h.foldl_accountAsync _

/-! ## What the uses leave in the sinks -/

/-- The latencies of the successes of a class. -/
def latenciesOf (c : OpClass) (rs : List OpResult) : List Nat := (rs.filter fun r => r.op = c).map OpResult.dtUs

theorem length_latenciesOf (c : OpClass) (rs : List OpResult) : (latenciesOf c rs).length = rs.countP fun r => r.op = c := by
  rw [latenciesOf, List.length_map, List.countP_eq_length_filter]

theorem valuesOf_flatMap (t : HistogramType) (c : OpClass) (f : OpResult → List HistogramUse) (rs : List OpResult) :
    valuesOf t c (rs.flatMap f) = rs.flatMap fun r => valuesOf t c (f r) := by
  simp only [valuesOf, List.filter_flatMap, List.map_flatMap]

theorem flatMap_latenciesOf (c : OpClass) (rs : List OpResult) : (rs.flatMap fun r => latenciesOf c [r]) = latenciesOf c rs := by
  induction rs with
  | nil => rfl
  | cons r rs ih =>
    rw [List.flatMap_cons, ih]
    exact List.map_append.symm.trans (congrArg _ (List.filter_append ..).symm)

/-- The values that a success hands to the HDR histogram of a class. -/
theorem valuesOf_hdr_uses (l : LatencySetup) (c : OpClass) (r : OpResult) :
    valuesOf .hdr c (l.uses r.op r.dtUs) = if l.latency then latenciesOf c [r] else [] := by
  unfold LatencySetup.uses latenciesOf valuesOf
  by_cases hc : r.op = c <;> cases l.latency <;> split <;> simp [hc]

/-- The values that a success hands to the bucket histogram of a class when the histogram output is set. -/
theorem valuesOf_buckets_uses (hout : l.histogramOutput = true) (c : OpClass) (r : OpResult) :
    valuesOf .buckets c (l.uses r.op r.dtUs) = latenciesOf c [r] := by
  unfold LatencySetup.uses latenciesOf valuesOf
  rw [hout, Bool.true_or, if_pos rfl]
  by_cases hc : r.op = c <;> cases l.latency <;> simp [hc]

theorem Recorded.valuesOf_hdr (h : Recorded l rs cd) (c : OpClass) :
    valuesOf .hdr c cd.uses = if l.latency then latenciesOf c rs else [] := by
  rw [h.uses, valuesOf_flatMap]
  simp only [valuesOf_hdr_uses]
  cases l.latency with
  | false => exact List.flatMap_eq_nil_iff.mpr fun _ _ => rfl
  | true => exact flatMap_latenciesOf c rs

theorem Recorded.valuesOf_buckets (h : Recorded l rs cd) (hout : l.histogramOutput = true) (c : OpClass) :
    valuesOf .buckets c cd.uses = latenciesOf c rs := by
  rw [h.uses, valuesOf_flatMap]
  simp only [valuesOf_buckets_uses hout]
  exact flatMap_latenciesOf c rs

/-- Latencies of at most 20 bits are all counted. -/
theorem totalCount_foldl_record (vs : List Nat) (hvs : ∀ v ∈ vs, v < 2 ^ 20) (h : HdrHistogram)
    (hcfg : h.toHdrBucketConfig = latencyHdrConfig) :
    (vs.foldl (fun h v => (hdrRecordValueAtomic h v).1) h).totalCount = h.totalCount + vs.length := by
  induction vs generalizing h with
  | nil => rfl
  | cons v vs ih =>
    have htaken := (hdrRecordValueAtomic_latency hcfg v).mpr (hvs v List.mem_cons_self)
    have htotal := hdrRecordValueAtomic_totalCount h v
    rw [htaken, if_pos rfl] at htotal
    rw [List.foldl_cons, ih (fun w hw => hvs w (List.mem_cons_of_mem v hw)) _ ((hdrRecordValueAtomic_config h v).trans hcfg),
      htotal, List.length_cons, Nat.add_assoc, Nat.add_comm 1]

theorem latencyHistogram_cell (l : LatencySetup) (c : OpClass) (v : Nat) :
    (histogramCell (latencyHistogram l c) v).isSome = true := by
  unfold latencyHistogram
  split
  · cases hinit : histogramInit 100 latencyRanges with
    | none => simp [histogramInit, histogramInitLoop, latencyRanges] at hinit
    | some h =>
      obtain ⟨cell, hcell⟩ := histogramCell_isSome hinit (by decide) v
      rw [Option.getD_some, hcell, Option.isSome_some]
  · simp [histogramCell, histogramGetIndex, Histogram.zeroed, histogramGetBucket]

/-! ## The whole benchmark -/

/-- Some sink is enabled. -/
def LatencyArgs.anySink (args : LatencyArgs) : Bool := args.latency || args.hdrOutput.isSome || args.latencyHistogram

/-- Every enabled sink has received the successes of its class: the HDR histograms that are printed, which are those of the classes
that the stages contain, and all bucket histograms. -/
structure SinksComplete (args : LatencyArgs) (stages : List Stage) (l : LatencySetup) (o : ObservedBench) : Prop where
  hdr : args.latency = true ∨ args.hdrOutput.isSome = true → ∀ c, (stagesContain stages).get c = true →
    ∃ h, hdrAfter l o.bench.cdata.uses c = some h ∧ h.totalCount = o.successes.countP fun r => r.op = c
  buckets : args.latencyHistogram = true → ∀ c,
    (bucketIncrements l o.bench.cdata.uses c).length = o.successes.countP fun r => r.op = c

/-- A success of a class whose HDR histogram is printed comes with the `latency` option and takes at most 20 bits of
microseconds. -/
def HdrTakes (args : LatencyArgs) (stages : List Stage) (r : OpResult) : Prop :=
  args.latency = true ∨ args.hdrOutput.isSome = true → (stagesContain stages).get r.op = true →
    args.latency = true ∧ r.dtUs < 2 ^ 20

/-- The condition on a stage's run. -/
def SinksReady (cast : FpNum → Nat) (args : LatencyArgs) (stages : List Stage) (o : ObservedBench) (r : StageRun) : Prop :=
  (args.anySink = true → StageReady cast o.bench r) ∧
    ∀ s ∈ o.bench.stages.head?, ∀ x ∈ r.successes cast s o.bench.cdata, HdrTakes args stages x

/-- The uses so far are those of the successes, and the HDR histograms take all of these. -/
structure SinkInv (args : LatencyArgs) (stages : List Stage) (l : LatencySetup) (o : ObservedBench) : Prop where
  recorded : args.anySink = true → Recorded l o.successes o.bench.cdata
  takes : ∀ r ∈ o.successes, HdrTakes args stages r

theorem sinkInv_step {args : LatencyArgs} {stages : List Stage} (o : ObservedBench) (r : StageRun) (o' : ObservedBench)
    (h : SinkInv args stages l o) (hready : SinksReady cast args stages o r) (hstep : observedStep cast o r = some o') :
    SinkInv args stages l o' := by
  obtain ⟨s, rest, cd, hs, hrun, rfl⟩ := observedStep_cases hstep
  have hhead : s ∈ o.bench.stages.head? := by simp [hs]
  refine ⟨?_, ?_⟩
  · intro hany
    refine (h.recorded hany).runStage ?_ hrun
    intro items events hr
    subst hr
    exact hready.1 hany s hhead
  · intro x hx
    rcases List.mem_append.mp hx with hx | hx
    · exact h.takes x hx
    · exact hready.2 s hhead x hx

theorem histogramOutput_of_init {env : OutputEnv} {args : LatencyArgs} {stages : List Stage}
    (hinit : initializeHistograms env args stages = some l) (hout : args.latencyHistogram = true) : l.histogramOutput = true := by
  simp only [initializeHistograms, Option.bind_eq_bind, Option.bind_eq_some_iff, Option.pure_def, Option.some.injEq] at hinit
  obtain ⟨out, hopen, -, -, -, -, -, -, rfl⟩ := hinit
  simp only [openHistogramOutput, hout, Bool.not_true, Bool.false_eq_true, if_false, Option.ite_none_right_eq_some,
    Option.some.injEq] at hopen
  exact hopen.2.symm

/-- The HDR histogram of a class that the stages contain. -/
theorem SinkInv.hdr {args : LatencyArgs} {stages : List Stage} {o : ObservedBench} (h : SinkInv args stages l o)
    (hsetup : SetUp args (stagesContain stages) l) (hon : args.latency = true ∨ args.hdrOutput.isSome = true) {c : OpClass}
    (hc : (stagesContain stages).get c = true) :
    ∃ hdr, hdrAfter l o.bench.cdata.uses c = some hdr ∧ hdr.totalCount = o.successes.countP fun r => r.op = c := by
  have hany : args.anySink = true := by
    rcases hon with hon | hon <;> simp [LatencyArgs.anySink, hon]
  have hhdr : l.hdr.get c = true := by
    rw [hsetup.hdr, hc, Bool.and_true]
    rcases hon with hon | hon <;> simp [hon]
  have htakes : ∀ r ∈ o.successes, r.op = c → args.latency = true ∧ r.dtUs < 2 ^ 20 := by
    intro r hr hrc
    exact h.takes r hr hon (hrc ▸ hc)
  rw [hdrAfter, if_pos hhdr, hdrInit, hdrCalculateBucketConfig_latency, (h.recorded hany).valuesOf_hdr, hsetup.latency]
  refine ⟨_, rfl, ?_⟩
  cases hlat : args.latency with
  | false =>
    -- without the option there are no such successes
    refine (List.countP_eq_zero.mpr ?_).symm
    intro r hr hrc
    have hcontra := (htakes r hr (of_decide_eq_true hrc)).1
    simp [hlat] at hcontra
  | true =>
    rw [if_pos rfl, totalCount_foldl_record _ _ _ rfl, length_latenciesOf, Nat.zero_add]
    intro v hv
    obtain ⟨r, hr, rfl⟩ := List.mem_map.mp hv
    obtain ⟨hr, hrc⟩ := List.mem_filter.mp hr
    exact (htakes r hr (of_decide_eq_true hrc)).2

theorem SinkInv.buckets {args : LatencyArgs} {stages : List Stage} {o : ObservedBench} (h : SinkInv args stages l o)
    (hout : l.histogramOutput = true) (hon : args.latencyHistogram = true) (c : OpClass) :
    (bucketIncrements l o.bench.cdata.uses c).length = o.successes.countP fun r => r.op = c := by
  have hany : args.anySink = true := by simp [LatencyArgs.anySink, hon]
  rw [← length_latenciesOf, ← (h.recorded hany).valuesOf_buckets hout c, bucketIncrements, List.filterMap_length_eq_length]
  intro v _
  exact latencyHistogram_cell l c v

/-- In every run of a list of stages, accepted or not, and with any options, every enabled sink has received exactly one value for
each success of its class, provided that every success of a class whose HDR histogram is printed comes with the `latency` option
and takes less than `2 ^ 20` microseconds, and that the batched deletes of asynchronous random stages find a tag of a write or a
delete if a sink is enabled. -/
theorem latency_sinks_complete (env : OutputEnv) (cast : FpNum → Nat) (args : LatencyArgs) (stages : List Stage) (l : LatencySetup)
    (hinit : initializeHistograms env args stages = some l) (rs : List StageRun)
    (hready : Runs.Along (observedStep cast) (SinksReady cast args stages) (ObservedBench.start stages l) rs) :
    Runs.Throughout (observedStep cast) (SinksComplete args stages l) (ObservedBench.start stages l) rs := by
  have hsetup := setUp_of_init hinit
  have hstart : SinkInv args stages l (ObservedBench.start stages l) := ⟨fun _ => ⟨rfl, rfl⟩, by simp [ObservedBench.start]⟩
  refine (Runs.throughout_of_along sinkInv_step hstart hready).imp ?_
  intro o ho
  refine ⟨?_, ?_⟩
  · intro hon c hc
    exact ho.hdr hsetup hon hc
  · intro hon c
    exact ho.buckets (histogramOutput_of_init hinit hon) hon c

/-- With all options, a delete that succeeds is received by the sinks of the writes. -/
theorem latency_sinks_complete_delete :
    Runs.Throughout (observedStep fun _ => 0)
      (SinksComplete ⟨true, true, none, some ['d']⟩ [mixedStage]
        ⟨true, true, ⟨true, true, false⟩, ⟨true, true, false⟩, ⟨true, true, false⟩⟩)
      (ObservedBench.start [mixedStage] ⟨true, true, ⟨true, true, false⟩, ⟨true, true, false⟩, ⟨true, true, false⟩⟩)
      [.sync [⟨2 ^ 24 - 1, .ok, 7⟩]] := by
  refine latency_sinks_complete openSystem (fun _ => 0) ⟨true, true, none, some ['d']⟩ [mixedStage] _ (by decide +kernel) _
    ⟨⟨fun _ => trivial, ?_⟩, fun _ _ => trivial⟩
  intro s hs x hx
  obtain rfl : mixedStage = s := by simpa [ObservedBench.start] using hs
  have hsuccess : (StageRun.sync [⟨2 ^ 24 - 1, .ok, 7⟩]).successes (fun _ => 0) mixedStage
      ⟨⟨true, true, ⟨true, true, false⟩, ⟨true, true, false⟩, ⟨true, true, false⟩⟩, {}, []⟩ = [⟨.write, .ok, 7⟩] := by
    decide +kernel
  obtain rfl := List.mem_singleton.mp (hsuccess ▸ hx)
  exact fun _ _ => ⟨rfl, by decide⟩

/-- The number of values in the HDR histogram of a class when a list of stages is set up and run, and the number of successes. -/
def hdrCountAndSuccesses (args : LatencyArgs) (stages : List Stage) (rs : List StageRun) (c : OpClass) :
    Option (Option Nat × Nat) :=
  (initializeHistograms openSystem args stages).bind fun l =>
    (Runs.run (observedStep fun _ => 0) (ObservedBench.start stages l) rs).map fun o =>
      ((hdrAfter l o.bench.cdata.uses c).map HdrHistogram.totalCount, o.successes.countP fun r => r.op = c)

/-- An accepted stage with reads: with `hdr-hist` alone, the HDR histogram of the reads stays empty after a read that succeeded, and
with `latency` it stays empty after one that took longer than it can hold. -/
theorem hdr_histogram_misses_read :
    stagesSetDefaultsAndParse .littleEndian .defaults (fun _ => readsAndWrites) [StageDef.ofWorkload ['R', 'U']] =
      .ok [readsAndWrites] ∧
    (stagesContain [readsAndWrites]).get .read = true ∧
    hdrCountAndSuccesses ⟨false, false, none, some ['d']⟩ [readsAndWrites] [.sync [⟨0, .ok, 7⟩]] .read = some (some 0, 1) ∧
    hdrCountAndSuccesses ⟨true, false, none, none⟩ [readsAndWrites] [.sync [⟨0, .ok, 2 ^ 20⟩]] .read = some (some 0, 1) := by
  decide +kernel

end AerospikeBenchmark
