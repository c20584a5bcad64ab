import AerospikeBenchmark.Lemmas.SetUp

/-!
# What is read of stages that are rejected

Which stage definitions `stages_set_defaults_and_parse` can reject without reading a field that it has not assigned.
-/

namespace AerospikeBenchmark

open CText Cells Results

variable {R : AsRandom} {args : StageArgs} {i : Nat} {d : StageDef} {w : Workload} {u : StageSetUp}

/-! ## When only assigned fields are read -/

/-- The stage can be set up and freed: bins are given only with operations that use them, a spec of its own that is not parsed is not
asked for its bins, and the arguments of a UDF that is called are parsed. -/
structure StageDef.Clean (R : AsRandom) (args : StageArgs) (i : Nat) (prev : Option ObjSpec) (d : StageDef) (w : Workload) : Prop where
  readBins : d.readBinsStr ≠ none → w.containsReads = true
  writeBins : d.writeBinsStr ≠ none → w.containsWrites = true
  spec : d.objSpecStr ≠ none → d.specWithoutError R args i prev w = none →
    selectionStr d.readBinsStr w.containsReads w.readAllPct = none ∧ selectionStr d.writeBinsStr w.containsWrites w.writeAllPct = none
  udf : w.type = .ruf → d.udfFnName ≠ none → d.udfPackageName ≠ none →
    ∃ spec, d.specWithoutError R args i prev w = some spec ∧ d.BinsSelected i w spec.nBinSpecs

/-- The spec that the stage after this one inherits, if there was no error so far. -/
def StageDef.nextSpec (R : AsRandom) (args : StageArgs) (mem : Stage) (i : Nat) (prev : Option ObjSpec) (d : StageDef) : Option ObjSpec :=
  prev.bind fun prev => (parseStage R args mem i prev d).toOption.map (·.objSpec)

/-- Every stage from stage `i` on has a workload and can be set up and freed. -/
def CleanStages (R : AsRandom) (args : StageArgs) (mem : Nat → Stage) : (i : Nat) → (prev : Option ObjSpec) → List StageDef → Prop
  | _, _, [] => True
  | i, prev, d :: ds =>
    (∃ parsed, parsedWorkload d.workloadStr = .ok parsed ∧ d.Clean R args i prev (d.withDefaults parsed)) ∧
      CleanStages R args mem (i + 1) (d.nextSpec R args (mem i) i prev) ds

/-! ## Stages -/

section Stage

variable {failed : Bool} {prev : ObjSpec}

/-- A stage with a workload is set up and freed from assigned fields exactly if it is clean. -/
theorem setUpStage_clean_iff {parsed : Workload} (h : parsedWorkload d.workloadStr = .ok parsed) :
    (∃ v, setUpStage R args i failed prev d = .ok v ∧ ReadsAssigned v.stage.free) ↔
      d.Clean R args i (if failed then none else some prev) (d.withDefaults parsed) := by
  obtain ⟨u, hset, hrun⟩ := setUpStage_bins R args i failed prev h
  set w := d.withDefaults parsed
  -- without a number of bins the stage has a spec of its own that was not parsed
  have hn : u.stage.objSpec.nBinSpecs = none ↔ d.objSpecStr ≠ none ∧
      d.specWithoutError R args i (if failed then none else some prev) w = none := by
    rw [hset.nBins]
    cases hfailed : u.failed with
    | true => simp [hset.failed hfailed]
    | false => simp [hset.passed hfailed]
  have hudf : ∀ r wr, ∃ v, (u.withBins r wr).setUdf R d = .ok v ∧ UdfSet R (Stage.ofWorkload w 0 0) d w (u.withBins r wr) v :=
    fun r wr => setUdf_udfSet _ hset.workload hset.udfFnArgs
  have hfree : ∀ r wr v, UdfSet R (Stage.ofWorkload w 0 0) d w (u.withBins r wr) v → (ReadsAssigned v.stage.free ↔
      r.1.bins ≠ none ∧ wr.1.bins ≠ none ∧
        (w.type = .ruf → d.udfFnName ≠ none → d.udfPackageName ≠ none → (u.withBins r wr).failed = false)) := by
    intro r wr v hv
    rw [free_readsAssigned_iff (hv.workload.trans hset.workload) ((congrArg _ hv.objSpec).trans hset.free), hv.free, hv.readBins,
      hv.writeBins]
    rfl
  rw [hrun]
  constructor
  · rintro ⟨v, hv, hassigned⟩
    obtain ⟨r, hr, hv⟩ := bind_eq_ok.mp hv
    obtain ⟨wr, hwr, hv⟩ := bind_eq_ok.mp hv
    obtain ⟨v', hv', hudfSet⟩ := hudf r wr
    cases hv.symm.trans hv'
    obtain ⟨hreadBins, hwriteBins, hcall⟩ := (hfree r wr v hudfSet).mp hassigned
    obtain ⟨hread, hreadNone⟩ := readSelection_assigned_iff.mp ⟨r, hr, hreadBins⟩
    obtain ⟨hwrite, hwriteNone⟩ := writeSelection_assigned_iff.mp ⟨wr, hwr, hwriteBins⟩
    refine ⟨hread, hwrite, fun hown hnone => ?_, fun htype hfn hpackage => ?_⟩
    · exact ⟨hreadNone (hn.mpr ⟨hown, hnone⟩), hwriteNone (hn.mpr ⟨hown, hnone⟩)⟩
    · exact (withBins_failed_iff hset hr hwr).mp (hcall htype hfn hpackage)
  · intro hclean
    obtain ⟨r, hr, hreadBins⟩ := readSelection_assigned_iff.mpr
      ⟨hclean.readBins, fun hnone => (hclean.spec (hn.mp hnone).1 (hn.mp hnone).2).1⟩
    obtain ⟨wr, hwr, hwriteBins⟩ := writeSelection_assigned_iff.mpr
      ⟨hclean.writeBins, fun hnone => (hclean.spec (hn.mp hnone).1 (hn.mp hnone).2).2⟩
    obtain ⟨v, hv, hudfSet⟩ := hudf r wr
    refine ⟨v, ?_, (hfree r wr v hudfSet).mpr ⟨hreadBins, hwriteBins, fun htype hfn hpackage => ?_⟩⟩
    · rw [hr, ok_bind, hwr, ok_bind, hv]
    · exact (withBins_failed_iff hset hr hwr).mpr (hclean.udf htype hfn hpackage)

/-! ## Rejection -/

/-- The workload of the accepted stage, in memory that held `w₀`. -/
theorem parseWorkloadType_same {str : Text} {parsed : Workload} (w₀ : Workload) (h : parsedWorkload str = .ok parsed) :
    ∃ w, parseWorkloadType w₀ str = .ok w ∧ w.stored = parsed.stored := by
  have hmap := parseWorkloadType_stored w₀ ⟨.i, .num 0, .num 0, .num 0, .num 0⟩ str
  rw [show parseWorkloadType _ str = .ok parsed from h] at hmap
  exact map_eq_ok.mp hmap

/-- The defaults, too, depend on the assigned fields only. -/
theorem withDefaults_stored {w₁ w₂ : Workload} (h : w₁.stored = w₂.stored) (d : StageDef) :
    (d.withDefaults w₁).stored = (d.withDefaults w₂).stored := by
  have hread : (w₁.setReadAllPct d.readBinsStr).stored = (w₂.setReadAllPct d.readBinsStr).stored := by
    have heq := setReadAllPct_stored (d := d) ⟨{}, false, ⟨[], 0⟩⟩ w₁
    rw [h, setReadAllPct_stored] at heq
    exact congrArg (·.stage.workload) (Except.ok.inj heq.symm)
  have heq := setWriteAllPct_stored (d := d) ⟨{}, false, ⟨[], 0⟩⟩ (w₁.setReadAllPct d.readBinsStr)
  rw [hread, setWriteAllPct_stored] at heq
  exact congrArg (·.stage.workload) (Except.ok.inj heq.symm)

/-- Two workloads with the same assigned fields, as far as stages are concerned. -/
theorem stored_inj {w₁ w₂ : Workload} (h : w₁.stored = w₂.stored) :
    w₁.type = w₂.type ∧ w₁.containsReads = w₂.containsReads ∧ w₁.containsWrites = w₂.containsWrites ∧
      (w₂.containsReads = true → w₁.readAllPct = w₂.readAllPct) ∧ w₁.writeAllPct = w₂.writeAllPct := by
  have htype := (stored_type w₁).symm.trans ((congrArg _ h).trans (stored_type w₂))
  have hreads := (stored_containsReads w₁).symm.trans ((congrArg _ h).trans (stored_containsReads w₂))
  have hwrites := (stored_containsWrites w₁).symm.trans ((congrArg _ h).trans (stored_containsWrites w₂))
  have hall := (stored_writeAllPct w₁).symm.trans ((congrArg _ h).trans (stored_writeAllPct w₂))
  refine ⟨Option.some.inj htype, Except.ok.inj hreads, Except.ok.inj hwrites, fun hcontains => ?_, Option.some.inj hall⟩
  have hcontains' : w₁.containsReads = true := (Except.ok.inj hreads).trans hcontains
  exact Option.some.inj ((stored_readAllPct hcontains').symm.trans ((congrArg _ h).trans (stored_readAllPct hcontains)))

theorem stageBins_congr {given : Option Text} {c : Bool} {p q : FpNum} {n : Nat} {e : ConfigError} (h : c = true → p = q) :
    stageBins given c p n e = stageBins given c q n e := by
  cases c with
  | true => rw [h rfl]
  | false => rfl

/-- A definition is accepted if its spec and its bins are and so is its UDF. -/
theorem nextSpec_eq_some_iff {parsed : Workload} (h : parsedWorkload d.workloadStr = .ok parsed) (mem : Stage) {prev : Option ObjSpec}
    {spec : ObjSpec} : d.nextSpec R args mem i prev = some spec ↔
      d.specWithoutError R args i prev (d.withDefaults parsed) = some spec ∧
        d.BinsSelected i (d.withDefaults parsed) spec.nBinSpecs ∧ ∃ udf, stageUdf R mem d (d.withDefaults parsed) = .ok udf := by
  obtain ⟨w, hw, hstored⟩ := parseWorkloadType_same mem.workload h
  obtain ⟨htype, hreads, hwrites, hreadAll, hwriteAll⟩ := stored_inj (withDefaults_stored hstored d)
  have hudfs : stageUdf R mem d (d.withDefaults w) = stageUdf R mem d (d.withDefaults parsed) := by
    unfold stageUdf Workload.containsUdfs
    rw [htype]
  cases prev with
  | none => simp [StageDef.nextSpec, StageDef.specWithoutError]
  | some prev =>
    have hparse : d.nextSpec R args mem i (some prev) = some spec ↔
        ∃ s, parseStage R args mem i prev d = .ok s ∧ s.objSpec = spec := by
      simp only [StageDef.nextSpec, Option.bind_some]
      cases parseStage R args mem i prev d <;> simp [Except.toOption]
    have hspec : d.specWithoutError R args i (some prev) (d.withDefaults parsed) = some spec ↔
        (d.startKey args < d.endKey args ∧ d.stageIdx = i + 1 ∧ ¬ (w.type = .d ∧ d.random = true)) ∧
          stageSpec R prev d.objSpecStr = .ok spec := by
      rw [← withDefaults_type d w, htype]
      simp only [StageDef.specWithoutError, Option.bind_eq_bind, Option.bind_some]
      split_ifs with hchecks
      · cases stageSpec R prev d.objSpecStr <;> simp [Except.toOption, hchecks]
      · exact iff_of_false (by simp) fun hspec => hchecks hspec.1
    rw [hparse, hspec, ← hudfs, StageDef.BinsSelected, ← hreads, ← hwrites, ← hwriteAll, ← stageBins_congr (hreads ▸ hreadAll)]
    constructor
    · rintro ⟨s, hs, rfl⟩
      unfold parseStage at hs
      simp only [bind_eq_ok, check_eq_ok] at hs
      obtain ⟨-, hkeys, -, hindex, w', hw', -, hrandom, spec, hown, readBins, hread, writeBins, hwrite, udf, hudf, hs⟩ := hs
      cases hw.symm.trans hw'
      cases hs
      exact ⟨⟨⟨hkeys, hindex, hrandom⟩, hown⟩, ⟨⟨readBins, hread⟩, writeBins, hwrite⟩, udf, hudf⟩
    · rintro ⟨⟨⟨hkeys, hindex, hrandom⟩, hown⟩, ⟨⟨readBins, hread⟩, writeBins, hwrite⟩, udf, hudf⟩
      exact ⟨_, bind_eq_ok.mpr ⟨(), check_eq_ok.mpr hkeys, bind_eq_ok.mpr ⟨(), check_eq_ok.mpr hindex, bind_eq_ok.mpr ⟨w, hw,
        bind_eq_ok.mpr ⟨(), check_eq_ok.mpr hrandom, bind_eq_ok.mpr ⟨spec, hown, bind_eq_ok.mpr ⟨readBins, hread,
        bind_eq_ok.mpr ⟨writeBins, hwrite, bind_eq_ok.mpr ⟨udf, hudf, rfl⟩⟩⟩⟩⟩⟩⟩⟩, rfl⟩

/-- What is passed on to the next stage: whether there was an error, and if not the spec to inherit. -/
theorem setUpStage_next {parsed : Workload} (h : parsedWorkload d.workloadStr = .ok parsed) (mem : Stage) {v : StageSetUp}
    (hv : setUpStage R args i failed prev d = .ok v) :
    (if v.failed then none else some v.prev) = d.nextSpec R args mem i (if failed then none else some prev) := by
  obtain ⟨u, hset, hrun⟩ := setUpStage_bins R args i failed prev h
  rw [hrun] at hv
  obtain ⟨r, hr, hv⟩ := bind_eq_ok.mp hv
  obtain ⟨wr, hwr, hv⟩ := bind_eq_ok.mp hv
  obtain ⟨v', hv', hudf⟩ := setUdf_udfSet (u := u.withBins r wr) mem hset.workload hset.udfFnArgs
  cases hv.symm.trans hv'
  have hbins := withBins_failed_iff hset hr hwr
  apply Option.ext
  intro spec
  rw [nextSpec_eq_some_iff h mem]
  cases hfailed : v.failed with
  | true =>
    have hnot := mt hudf.failed.mpr (by simp [hfailed])
    rw [hbins] at hnot
    simp only [if_true, reduceCtorEq, false_iff]
    rintro ⟨hspec, hselected, hcall⟩
    exact hnot ⟨⟨spec, hspec, hselected⟩, hcall⟩
  | false =>
    obtain ⟨hpassed, hcall⟩ := hudf.failed.mp hfailed
    have hspecSome : d.specWithoutError R args i (if failed then none else some prev) (d.withDefaults parsed) = some v.prev := by
      rw [hudf.prev]
      refine hset.passed ?_
      simp only [StageSetUp.withBins, Bool.or_eq_false_iff] at hpassed
      exact hpassed.1.1
    obtain ⟨spec', hspec', hselected⟩ := hbins.mp hpassed
    cases hspecSome.symm.trans hspec'
    simp only [Bool.false_eq_true, if_false, hspecSome, Option.some.injEq]
    exact ⟨fun heq => heq ▸ ⟨rfl, hselected, hcall⟩, fun heq => heq.1⟩

/-- The stages from `i` on are set up and freed from assigned fields exactly if they are clean. -/
theorem setUpStages_clean_iff (failed : Bool) (mem : Nat → Stage) {ds : List StageDef} :
    (∃ out, setUpStages R args i failed prev ds = .ok out ∧ ∀ s ∈ out.1, ReadsAssigned s.free) ↔
      CleanStages R args mem i (if failed then none else some prev) ds := by
  induction ds generalizing i failed prev with
  | nil => simp [setUpStages, CleanStages]
  | cons d ds ih =>
    rw [setUpStages, CleanStages]
    cases hparsed : parsedWorkload d.workloadStr with
    | error e => simp [setUpStage_unknown hparsed, bind, Except.bind]
    | ok parsed =>
      constructor
      · rintro ⟨out, hout, hfree⟩
        obtain ⟨v, hv, hout⟩ := bind_eq_ok.mp hout
        obtain ⟨rest, hrest, hout⟩ := bind_eq_ok.mp hout
        cases hout
        rw [List.forall_mem_cons] at hfree
        refine ⟨⟨parsed, rfl, (setUpStage_clean_iff hparsed).mp ⟨v, hv, hfree.1⟩⟩, ?_⟩
        rw [← setUpStage_next hparsed (mem i) hv]
        exact (ih v.failed).mp ⟨rest, hrest, hfree.2⟩
      · rintro ⟨⟨parsed', ⟨⟩, hd⟩, hds⟩
        obtain ⟨v, hv, hfree⟩ := (setUpStage_clean_iff hparsed).mpr hd
        rw [← setUpStage_next hparsed (mem i) hv] at hds
        obtain ⟨rest, hrest, hfreeRest⟩ := (ih v.failed).mpr hds
        refine ⟨(v.stage :: rest.1, rest.2), ?_, List.forall_mem_cons.mpr ⟨hfree, hfreeRest⟩⟩
        rw [hv, ok_bind, hrest]
        rfl

/-- There is an error at the end exactly if there was one before or a definition is rejected. -/
theorem setUpStages_failed (mem : Nat → Stage) {ds : List StageDef} {out : List RawStage × Bool}
    (h : setUpStages R args i failed prev ds = .ok out) :
    out.2 = false ↔ failed = false ∧ ∃ stages, parseStages R args mem i prev ds = .ok stages := by
  induction ds generalizing i failed prev out with
  | nil =>
    cases h
    simp [parseStages]
  | cons d ds ih =>
    rw [setUpStages] at h
    obtain ⟨v, hv, hout⟩ := bind_eq_ok.mp h
    obtain ⟨rest, hrest, hout⟩ := bind_eq_ok.mp hout
    cases hout
    cases hparsed : parsedWorkload d.workloadStr with
    | error e =>
      rw [setUpStage_unknown hparsed] at hv
      cases hv
    | ok parsed =>
      have hnext := setUpStage_next hparsed (mem i) hv
      rw [ih hrest]
      cases failed with
      | true =>
        have hfailed : v.failed = true := by
          by_contra hf
          simp [hf, StageDef.nextSpec] at hnext
        simp [hfailed]
      | false =>
        simp only [StageDef.nextSpec, Bool.false_eq_true, if_false, Option.bind_some] at hnext
        cases hstage : parseStage R args (mem i) i prev d with
        | error e =>
          have hfailed : v.failed = true := by
            by_contra hf
            simp [hf, hstage, Except.toOption] at hnext
          simp [hfailed, parseStages, hstage, bind, Except.bind]
        | ok s =>
          rw [hstage] at hnext
          have hfailed : v.failed = false := by
            by_contra hf
            simp [hf, Except.toOption] at hnext
          have hprev : v.prev = s.objSpec := by simpa [hfailed, Except.toOption] using hnext
          rw [hprev]
          simp only [hfailed, parseStages, hstage, ok_bind, true_and]
          cases parseStages R args mem (i + 1) s.objSpec ds <;> simp [bind, Except.bind, pure, Except.pure]

/-- Accepted definitions are clean. -/
theorem cleanStages_of_accepted {mem : Nat → Stage} {ds : List StageDef} {stages : List Stage}
    (h : parseStages R args mem i prev ds = .ok stages) : CleanStages R args mem i (some prev) ds := by
  induction ds generalizing i prev stages with
  | nil => trivial
  | cons d ds ih =>
    obtain ⟨s, rest, hs, hrest, -⟩ := parseStages_cons_ok h
    obtain ⟨w, hw⟩ := parsedStage_of_ok hs
    have hmap := parseWorkloadType_stored (mem i).workload ⟨.i, .num 0, .num 0, .num 0, .num 0⟩ d.workloadStr
    rw [hw.parse] at hmap
    obtain ⟨parsed, hparsed, -⟩ := map_eq_ok.mp hmap.symm
    have hnext : d.nextSpec R args (mem i) i (some prev) = some s.objSpec := by
      simp [StageDef.nextSpec, hs, Except.toOption]
    obtain ⟨hspec, ⟨⟨readBins, hread⟩, writeBins, hwrite⟩, -⟩ := (nextSpec_eq_some_iff hparsed (mem i)).mp hnext
    refine ⟨⟨parsed, hparsed, contains_of_stageBins hread, contains_of_stageBins hwrite, ?_, ?_⟩, hnext ▸ ih hrest⟩
    · intro _ hnone
      cases hspec.symm.trans hnone
    · intro _ _ _
      exact ⟨s.objSpec, hspec, ⟨readBins, hread⟩, writeBins, hwrite⟩

end Stage

/-- The whole call reads only assigned fields if every stage can be set up and freed, and returns 0 exactly if all definitions are
accepted. -/
theorem setDefaultsAndParse_of_clean {mem : Nat → Stage} {defs : List StageDef}
    (h : CleanStages R args mem 0 (some args.objSpec) defs) :
    setDefaultsAndParse R args defs = .ok (match stagesSetDefaultsAndParse R args mem defs with | .ok _ => 0 | .error _ => -1) := by
  obtain ⟨out, hout, hfree⟩ := (setUpStages_clean_iff false mem).mpr h
  have hfailed := setUpStages_failed mem hout
  rw [setDefaultsAndParse, hout, ok_bind, stagesSetDefaultsAndParse]
  cases hparse : parseStages R args mem 0 args.objSpec defs with
  | ok stages =>
    have : out.2 = false := hfailed.mpr ⟨rfl, stages, hparse⟩
    simp [this, pure, Except.pure]
  | error e =>
    have : out.2 = true := by
      by_contra hf
      obtain ⟨-, stages, hstages⟩ := hfailed.mp (Bool.of_not_eq_true hf)
      cases hparse.symm.trans hstages
    obtain ⟨u, hu⟩ : ReadsAssigned (freeWorkloadConfig out.1) := readsAssigned_forM.mpr hfree
    simp [this, hu, bind, Except.bind, pure, Except.pure]

/-- An accepted configuration is set up from assigned fields only. -/
theorem accepted_reads_assigned {mem : Nat → Stage} {defs : List StageDef} {stages : List Stage}
    (h : stagesSetDefaultsAndParse R args mem defs = .ok stages) : setDefaultsAndParse R args defs = .ok 0 := by
  have hrun := setDefaultsAndParse_of_clean (cleanStages_of_accepted h)
  rwa [h] at hrun

/-- A rejected configuration is rejected and freed from assigned fields only, with the result -1, exactly if every stage can be set up
and freed. -/
theorem rejection_reads_assigned_iff (R : AsRandom) (args : StageArgs) (mem : Nat → Stage) (defs : List StageDef) (e : ConfigError)
    (h : stagesSetDefaultsAndParse R args mem defs = .error e) :
    (ReadsAssigned (setDefaultsAndParse R args defs) ↔ CleanStages R args mem 0 (some args.objSpec) defs) ∧
      ∀ ret, setDefaultsAndParse R args defs = .ok ret → ret = -1 := by
  have hclean : ReadsAssigned (setDefaultsAndParse R args defs) → CleanStages R args mem 0 (some args.objSpec) defs := by
    rintro ⟨ret, hret⟩
    obtain ⟨out, hout, hret⟩ := bind_eq_ok.mp hret
    have hfailed : out.2 = true := by
      by_contra hf
      obtain ⟨-, stages, hstages⟩ := (setUpStages_failed mem hout).mp (Bool.of_not_eq_true hf)
      cases (show stagesSetDefaultsAndParse R args mem defs = .ok stages from hstages).symm.trans h
    simp only [hfailed, if_true] at hret
    obtain ⟨u, hu, -⟩ := bind_eq_ok.mp hret
    exact (setUpStages_clean_iff false mem).mp ⟨out, hout, readsAssigned_forM.mp ⟨u, hu⟩⟩
  have hrun : CleanStages R args mem 0 (some args.objSpec) defs → setDefaultsAndParse R args defs = .ok (-1) := by
    intro hstages
    have := setDefaultsAndParse_of_clean hstages
    rwa [h] at this
  refine ⟨⟨hclean, fun hstages => ⟨-1, hrun hstages⟩⟩, fun ret hret => ?_⟩
  cases (hrun (hclean ⟨ret, hret⟩)).symm.trans hret
  rfl

/-- A stage with the wrong index. -/
theorem rejection_reads_assigned_index : CleanStages .littleEndian .defaults (fun _ => Stage.ofWorkload ⟨.i, .nan, .nan, .nan, .nan⟩ 0 0)
    0 (some StageArgs.defaults.objSpec) [{ StageDef.ofWorkload ['I'] with stageIdx := 2 }] :=
  (rejection_reads_assigned_iff .littleEndian .defaults _ _ (.stageIndex 1 2) (by decide +kernel)).1.mp ⟨-1, by decide +kernel⟩

/-- A definition is rejected with an error, and its rejection reads an unassigned field. -/
def RejectedReading (d : StageDef) (e : ConfigError) (field : StageField) : Prop :=
  stagesSetDefaultsAndParse .littleEndian .defaults (fun _ => Stage.ofWorkload ⟨.i, .nan, .nan, .nan, .nan⟩ 0 0) [d] = .error e ∧
    setDefaultsAndParse .littleEndian .defaults [d] = .error field

/-- The type of an unknown workload, the read bins of a workload without reads, the number of bins of a spec that is not parsed, and
the arguments of a UDF that are not parsed. -/
theorem rejections_read_unassigned :
    RejectedReading (.ofWorkload ['X']) (.unknownWorkload ['X']) (.workload .type) ∧
    RejectedReading { StageDef.ofWorkload ['I'] with readBinsStr := some ['1'] } (.readBinsWithoutReads 1) .readBins ∧
    RejectedReading { StageDef.ofWorkload ['R', 'U'] with stageIdx := 2, objSpecStr := some ['I', '1'], readBinsStr := some ['1'] }
      (.stageIndex 1 2) (.objSpec .nBinSpecs) ∧
    RejectedReading { StageDef.ofWorkload ['R', 'U', 'F'] with stageIdx := 2, udfPackageName := some ['p'], udfFnName := some ['f'] }
      (.stageIndex 1 2) (.udfFnArgs .valid) := by
  unfold RejectedReading
  decide +kernel

end AerospikeBenchmark
