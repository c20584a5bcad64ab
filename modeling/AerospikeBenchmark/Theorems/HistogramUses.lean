import AerospikeBenchmark.Lemmas.Accounting
import AerospikeBenchmark.Theorems.AsyncTags

/-!
# Recording finds initialised histograms

The histograms of a class are set up when some stage contains operations of that class. A stage only performs operations that it
contains, but for the deletes of a random workload, which are recorded as writes; and the buckets are only set up for the
`output-file` option, though `hdr-hist` makes the record functions use them as well.
-/

namespace AerospikeBenchmark

open CText

/-! ## Accounting under a set-up -/

/-- Whatever is recorded under a class finds its histograms initialised. -/
def LatencySetup.Covers (l : LatencySetup) (c : OpClass) : Prop := ∀ dtUs, ∀ u ∈ l.uses c dtUs, u.initialised = true

/-- The set-up is still the same, and every use of a histogram so far found it initialised. -/
structure UsesInitialised (l : LatencySetup) (cd : CData) : Prop where
  setup : cd.setup = l
  uses : ∀ u ∈ cd.uses, u.initialised = true

variable {l : LatencySetup} {cd : CData}

/-- Accounting an operation uses only histograms of its class. -/
theorem UsesInitialised.accounts (h : UsesInitialised l cd) {c : OpClass} (hc : l.Covers c) {dtUs : Nat} {recorded : Bool} {cd' : CData}
    (hacc : Accounts c dtUs recorded cd cd') : UsesInitialised l cd' := by
  refine ⟨hacc.setup.trans h.setup, ?_⟩
  intro u hu
  rw [hacc.uses, h.setup] at hu
  rcases List.mem_append.mp hu with hu | hu
  · exact h.uses u hu
  · split at hu
    · exact hc dtUs u hu
    · exact absurd hu List.not_mem_nil

/-! ## The runs of a stage -/

/-- The set-up covers every operation that a stage can perform. -/
def CoversStage (cast : FpNum → Nat) (l : LatencySetup) (s : Stage) : Prop :=
  ∀ word, l.Covers (s.workload.choose cast (randomFp word)).opClass

variable {cast : FpNum → Nat} {s : Stage}

theorem UsesInitialised.syncRounds (hs : CoversStage cast l s) (rounds : List SyncRound) (h : UsesInitialised l cd) :
    UsesInitialised l (rounds.foldl (syncRound cast s) cd) := by
  induction rounds generalizing cd with
  | nil => exact h
  | cons r rounds ih => exact ih (h.accounts (hs r.word) (accounts_syncOperation s _ r.status r.dtUs cd))

/-- An asynchronous stage in which all operations under way are covered and carry their own tag. -/
structure AsyncCovered {n : Nat} (l : LatencySetup) (cd : CData) (st : AsyncState n) : Prop where
  accounted : Accounted cd st
  covered : ∀ i k, st.inFlight i = some k → l.Covers k.opClass
  uses : UsesInitialised l st.cdata

theorem asyncCovered_step {n : Nat} (hs : CoversStage cast l s) (st : AsyncState n) (e : AsyncEvent n) (st' : AsyncState n)
    (h : AsyncCovered l cd st) (hready : TagReady cast s st e) (hstep : asyncStep cast s st e = some st') :
    AsyncCovered l cd st' := by
  have haccounted := accounted_step st e st' h.accounted hready hstep
  rcases asyncStep_cases hstep with ⟨word, now, i, rest, rfl, hq, rfl⟩ | ⟨i, status, now, k, rfl, hi, rfl⟩
  · refine ⟨haccounted, ?_, h.uses⟩
    intro j k hj
    by_cases hji : j = i
    · subst hji
      simp only [AsyncState.issue, Function.update_self, Option.some.injEq] at hj
      exact hj ▸ hs word
    · simp only [AsyncState.issue, Function.update_of_ne hji] at hj
      exact h.covered j k hj
  · refine ⟨haccounted, ?_, ?_⟩
    · intro j k' hj
      by_cases hji : j = i
      · subst hji
        simp [AsyncState.complete] at hj
      · simp only [AsyncState.complete, Function.update_of_ne hji] at hj
        exact h.covered j k' hj
    · refine h.uses.accounts ?_ (accounts_asyncListener _ _ _ _)
      rw [(h.accounted.inFlight i k hi).tagClass_eq]
      exact h.covered i k hi

/-- The condition on a stage's run: in an asynchronous one, the deletes that leave the tag of their item find one of their own
kind. -/
def StageReady (cast : FpNum → Nat) (b : BenchState) : StageRun → Prop
  | .sync _ => True
  | .async items events =>
    ∀ s ∈ b.stages.head?, Runs.Along (asyncStep cast s) (TagReady cast s) (AsyncState.init items.get b.cdata) events

/-- A stage that the set-up covers, run to any point. -/
theorem UsesInitialised.runStage {cd' : CData} {r : StageRun} (hs : CoversStage cast l s) (h : UsesInitialised l cd)
    (hready : ∀ items events, r = .async items events →
      Runs.Along (asyncStep cast s) (TagReady cast s) (AsyncState.init items.get cd) events)
    (hrun : runStage cast s cd r = some cd') : UsesInitialised l cd' := by
  cases r with
  | sync rounds =>
    simp only [AerospikeBenchmark.runStage, Option.ite_none_left_eq_some, Option.some.injEq] at hrun
    obtain ⟨-, rfl⟩ := hrun
    exact h.syncRounds hs rounds
  | async items events =>
    simp only [AerospikeBenchmark.runStage, Option.ite_none_right_eq_some, Option.map_eq_some_iff] at hrun
    obtain ⟨-, st, hst, rfl⟩ := hrun
    have hinit : AsyncCovered l cd (AsyncState.init items.get cd) := ⟨accounted_init _ _, nofun, h⟩
    exact ((Runs.throughout_of_along (asyncCovered_step hs) hinit (hready items events rfl)).last hst).uses

/-! ## The set-up -/

/-- What `initialize_histograms` leaves, class by class. -/
structure SetUp (args : LatencyArgs) (has : PerClass Bool) (l : LatencySetup) : Prop where
  latency : l.latency = args.latency
  histogramOutput : l.histogramOutput = true → args.latencyHistogram = true
  hdrCompOutput : ∀ c, l.hdrCompOutput.get c = true → args.hdrOutput.isSome = true
  hdr : ∀ c, l.hdr.get c = ((args.latency || args.hdrOutput.isSome) && has.get c)
  histogram : ∀ c, l.histogram.get c = (args.latencyHistogram && has.get c)

theorem isSome_of_openHdrOutput {env : OutputEnv} {args : LatencyArgs} {c : OpClass} {has : Bool}
    (h : openHdrOutput env args c has = some true) : args.hdrOutput.isSome = true := by
  unfold openHdrOutput at h
  split at h
  · cases h
  · next hdr => rw [hdr, Option.isSome_some]

theorem setUp_of_init {env : OutputEnv} {args : LatencyArgs} {stages : List Stage}
    (hinit : initializeHistograms env args stages = some l) : SetUp args (stagesContain stages) l := by
  simp only [initializeHistograms, Option.bind_eq_bind, Option.bind_eq_some_iff, Option.pure_def, Option.some.injEq] at hinit
  obtain ⟨out, hout, write, hwrite, read, hread, udf, hudf, rfl⟩ := hinit
  refine ⟨rfl, ?_, ?_, ?_, ?_⟩
  · intro hset
    obtain rfl : out = true := hset
    by_contra hoff
    simp [openHistogramOutput, Bool.of_not_eq_true hoff] at hout
  · intro c hset
    cases c with
    | read => exact isSome_of_openHdrOutput (hread.trans (congrArg some hset))
    | write => exact isSome_of_openHdrOutput (hwrite.trans (congrArg some hset))
    | udf => exact isSome_of_openHdrOutput (hudf.trans (congrArg some hset))
  · intro c
    cases c <;> rfl
  · intro c
    cases c <;> rfl

/-- When `hdr-hist` is only given with `output-file`, a class that the stages contain is covered, and so is every class when
nothing is recorded. -/
theorem SetUp.covers {args : LatencyArgs} {has : PerClass Bool} (h : SetUp args has l)
    (hhdr : args.hdrOutput.isSome = true → args.latencyHistogram = true) {c : OpClass}
    (hc : has.get c = true ∨ (args.latency = false ∧ args.latencyHistogram = false)) : l.Covers c := by
  have hbuckets : (l.histogramOutput || l.hdrCompOutput.get c) = true → args.latencyHistogram = true := by
    intro hused
    rcases Bool.or_eq_true_iff.mp hused with hused | hused
    · exact h.histogramOutput hused
    · exact hhdr (h.hdrCompOutput c hused)
  intro dtUs u hu
  rcases List.mem_append.mp hu with hu | hu
  · split at hu
    · next hlat =>
      rw [h.latency] at hlat
      obtain rfl := List.mem_singleton.mp hu
      rcases hc with hc | ⟨hoff, -⟩
      · simp [h.hdr, hlat, hc]
      · simp [hoff] at hlat
    · cases hu
  · split at hu
    · next hused =>
      have hon := hbuckets hused
      obtain rfl := List.mem_singleton.mp hu
      rcases hc with hc | ⟨-, hoff⟩
      · simp [h.histogram, hon, hc]
      · simp [hoff] at hon
    · cases hu

/-- The set-up covers every stage of the list, if deletes of a random workload are recorded only when some stage contains
writes. -/
theorem SetUp.coversStage {args : LatencyArgs} {stages : List Stage} (h : SetUp args (stagesContain stages) l)
    (hhdr : args.hdrOutput.isSome = true → args.latencyHistogram = true)
    (hwrites : (∃ s ∈ stages, s.workload.type = .rud) →
      stagesContainWrites stages = true ∨ (args.latency = false ∧ args.latencyHistogram = false))
    (hs : s ∈ stages) : CoversStage cast l s := by
  intro word
  have hcontains (p : Workload → Bool) (hp : p s.workload = true) : stages.any (fun s => p s.workload) = true :=
    List.any_eq_true.mpr ⟨s, hs, hp⟩
  refine h.covers hhdr ?_
  cases hk : s.workload.choose cast (randomFp word) with
  | read => exact .inl (hcontains _ (Workload.containsReads_of_choose hk))
  | write => exact .inl (hcontains _ (Workload.containsWrites_of_choose (randomFp_lt word) hk))
  | delete =>
    rcases Workload.deletes_of_choose hk with hw | ht
    · exact .inl (hcontains _ hw)
    · exact hwrites ⟨s, hs, ht⟩
  | udf => exact .inl (hcontains _ (Workload.containsUdfs_of_choose hk))

/-! ## The whole benchmark -/

/-- A benchmark whose stages still to run are covered. -/
structure BenchCovered (cast : FpNum → Nat) (l : LatencySetup) (b : BenchState) : Prop where
  stages : ∀ s ∈ b.stages, CoversStage cast l s
  uses : UsesInitialised l b.cdata

theorem benchCovered_step (b : BenchState) (r : StageRun) (b' : BenchState) (h : BenchCovered cast l b)
    (hready : StageReady cast b r) (hstep : benchStep cast b r = some b') : BenchCovered cast l b' := by
  unfold benchStep at hstep
  split at hstep
  · cases hstep
  · next s rest hb =>
    obtain ⟨cd, hrun, rfl⟩ := Option.map_eq_some_iff.mp hstep
    refine ⟨?_, ?_⟩
    · intro t ht
      exact h.stages t (hb ▸ List.mem_cons_of_mem s ht)
    · refine h.uses.runStage (h.stages s (hb ▸ List.mem_cons_self)) ?_ hrun
      intro items events hr
      subst hr
      exact hready s (by simp [hb])

/-- In every run of a list of stages, accepted or not, every use of a histogram finds it initialised, provided that `hdr-hist` is
only given with `output-file`; that a random workload with deletes comes with a stage that contains writes, unless nothing is
recorded at all; and that the batched deletes of asynchronous random stages find a tag of a write or a delete. -/
theorem histogram_uses_initialised (env : OutputEnv) (cast : FpNum → Nat) (args : LatencyArgs) (stages : List Stage)
    (l : LatencySetup) (hinit : initializeHistograms env args stages = some l)
    (hhdr : args.hdrOutput.isSome = true → args.latencyHistogram = true)
    (hwrites : (∃ s ∈ stages, s.workload.type = .rud) →
      stagesContainWrites stages = true ∨ (args.latency = false ∧ args.latencyHistogram = false))
    (rs : List StageRun) (hready : Runs.Along (benchStep cast) (StageReady cast) ⟨stages, ⟨l, {}, []⟩⟩ rs) :
    Runs.Throughout (benchStep cast) (fun b => ∀ u ∈ b.cdata.uses, u.initialised = true) ⟨stages, ⟨l, {}, []⟩⟩ rs := by
  have hsetup := setUp_of_init hinit
  have hstart : BenchCovered cast l ⟨stages, ⟨l, {}, []⟩⟩ :=
    ⟨fun s hs => hsetup.coversStage hhdr hwrites hs, ⟨rfl, nofun⟩⟩
  exact (Runs.throughout_of_along benchCovered_step hstart hready).imp fun b hb => hb.uses.uses

/-- A random stage with reads, writes and deletes. -/
def mixedStage : Stage := Stage.ofWorkload ⟨.rud, .num 40, .num 40, .num 100, .num 100⟩ 1 1000001

/-- A system on which every file can be opened. -/
def openSystem : OutputEnv := ⟨fun _ => true, []⟩

/-- With all options, a delete of such a stage records into the histograms of the writes. -/
theorem histogram_uses_initialised_delete :
    Runs.Throughout (benchStep fun _ => 0) (fun b => ∀ u ∈ b.cdata.uses, u.initialised = true)
      ⟨[mixedStage], ⟨⟨true, true, ⟨true, true, false⟩, ⟨true, true, false⟩, ⟨true, true, false⟩⟩, {}, []⟩⟩
      [.sync [⟨2 ^ 24 - 1, .ok, 7⟩]] :=
  histogram_uses_initialised openSystem (fun _ => 0) ⟨true, true, none, some ['d']⟩ [mixedStage] _ (by decide +kernel)
    (fun _ => rfl) (fun _ => .inl (by decide +kernel)) _ ⟨trivial, fun _ _ => trivial⟩

/-- The uses of histograms when a list of stages is set up and run. -/
def histogramUses (args : LatencyArgs) (stages : List Stage) (rs : List StageRun) : Option (List HistogramUse) :=
  (initializeHistograms openSystem args stages).bind fun l =>
    (Runs.run (benchStep fun _ => 0) ⟨stages, ⟨l, {}, []⟩⟩ rs).map fun b => b.cdata.uses

/-- A random stage with reads and deletes but no writes. -/
def deletesWithoutWrites : Stage := Stage.ofWorkload ⟨.rud, .num 40, .num 0, .num 100, .num (-1)⟩ 1 1000001

/-- A random stage with reads and writes. -/
def readsAndWrites : Stage := Stage.ofWorkload ⟨.ru, .num 50, .nan, .num 100, .num 100⟩ 1 1000001

/-- Two accepted stages: with `latency`, a delete of the first is recorded into an HDR histogram that was never allocated; with
`hdr-hist` alone, a read of the second is recorded into buckets that were never set up. -/
theorem uninitialised_histograms_used :
    stagesSetDefaultsAndParse .littleEndian .defaults (fun _ => deletesWithoutWrites)
      [StageDef.ofWorkload ['R', 'U', 'D', ',', '4', '0', ',', '0']] = .ok [deletesWithoutWrites] ∧
    histogramUses ⟨true, false, none, none⟩ [deletesWithoutWrites] [.sync [⟨2 ^ 24 - 1, .ok, 7⟩]] =
      some [⟨.hdr, .write, 7, false⟩] ∧
    stagesSetDefaultsAndParse .littleEndian .defaults (fun _ => readsAndWrites) [StageDef.ofWorkload ['R', 'U']] =
      .ok [readsAndWrites] ∧
    histogramUses ⟨false, false, none, some ['d']⟩ [readsAndWrites] [.sync [⟨0, .ok, 7⟩]] =
      some [⟨.buckets, .read, 7, false⟩] := by
  decide +kernel

end AerospikeBenchmark
