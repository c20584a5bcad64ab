import AerospikeBenchmark.Theorems.WriteBins
import AerospikeBenchmark.Workload.SetUp

/-!
# Steps of the set-up of a stage

What each step of `setUpStage` does on a stage whose workload string is accepted, and what its parts need to be assigned: up to the
object spec, the bins, the UDF, and `free_workload_config`.
-/

namespace AerospikeBenchmark

open CText Cells Results

variable {R : AsRandom} {args : StageArgs} {i : Nat} {d : StageDef} {w : Workload} {u : StageSetUp}

/-- The text that `_parse_bins_selection` is called with, if it is called. -/
def selectionStr (given : Option Text) (contains : Bool) (allPct : FpNum) : Option Text :=
  given <|> if contains && allPct.lt (.num 100) then some ['1'] else none

/-- The workload of a stage, for what its workload string gives. -/
def StageDef.withDefaults (d : StageDef) (parsed : Workload) : Workload :=
  (parsed.setReadAllPct d.readBinsStr).setWriteAllPct d.writeBinsStr

/-- The object spec of a stage if there was no error up to it; `prev` is the spec to inherit, if there was no error in the stages
before. -/
def StageDef.specWithoutError (R : AsRandom) (args : StageArgs) (i : Nat) (prev : Option ObjSpec) (d : StageDef) (w : Workload) :
    Option ObjSpec := do
  let prev ← prev
  if d.startKey args < d.endKey args ∧ d.stageIdx = i + 1 ∧ ¬ (w.type = .d ∧ d.random = true) then
    (stageSpec R prev d.objSpecStr).toOption
  else none

/-- The selections of bins of a stage are in order, for a spec with so many bins. -/
def StageDef.BinsSelected (i : Nat) (d : StageDef) (w : Workload) (nBins : Nat) : Prop :=
  (∃ sel, stageBins d.readBinsStr w.containsReads w.readAllPct nBins (.readBinsWithoutReads (i + 1)) = .ok sel) ∧
  ∃ sel, stageBins d.writeBinsStr w.containsWrites w.writeAllPct nBins (.writeBinsWithoutWrites (i + 1)) = .ok sel

/-! ## Workloads -/

/-- The assigned fields of a workload in new memory. -/
def Workload.stored (w : Workload) : RawWorkload := RawWorkload.store {} w

theorem stored_type (w : Workload) : w.stored.type = some w.type := by
  unfold Workload.stored RawWorkload.store
  split <;> rfl

theorem stored_writeAllPct (w : Workload) : w.stored.writeAllPct = some w.writeAllPct := by
  unfold Workload.stored RawWorkload.store
  split <;> rfl

theorem stored_readPct (h : w.type.isInfinite = true) : w.stored.readPct = some w.readPct := by
  unfold Workload.stored RawWorkload.store
  split <;> simp_all [WorkloadType.isInfinite]

theorem isInfinite_of_containsReads (h : w.containsReads = true) : w.type.isInfinite = true := by
  rw [Workload.containsReads, Bool.and_eq_true] at h
  exact h.1

theorem stored_readAllPct (h : w.containsReads = true) : w.stored.readAllPct = some w.readAllPct := by
  have hinf := isInfinite_of_containsReads h
  unfold Workload.stored RawWorkload.store
  split <;> simp_all [WorkloadType.isInfinite]

theorem stored_containsReads (w : Workload) : w.stored.containsReads = .ok w.containsReads := by
  rw [RawWorkload.containsReads, stored_type, readCell_some, Workload.containsReads]
  cases hinf : w.type.isInfinite
  · simp [bind, Except.bind, hinf, pure, Except.pure]
  · simp [bind, Except.bind, hinf, stored_readPct hinf, pure, Except.pure]

theorem stored_containsWrites (w : Workload) : w.stored.containsWrites = .ok w.containsWrites := by
  rw [RawWorkload.containsWrites, stored_type, readCell_some, Workload.containsWrites]
  unfold Workload.stored RawWorkload.store
  cases w.type <;> simp [bind, Except.bind, pure, Except.pure, bne, beq_eq_decide]

theorem stored_containsUdfs (w : Workload) : w.stored.containsUdfs = .ok w.containsUdfs := by
  rw [RawWorkload.containsUdfs, stored_type]
  rfl

/-- The default of the share of all bins is stored where it is used. -/
theorem stored_setReadAllPct (h : w.containsReads = true) (p : FpNum) :
    { w.stored with readAllPct := some p } = Workload.stored { w with readAllPct := p } := by
  have hinf := isInfinite_of_containsReads h
  unfold Workload.stored RawWorkload.store
  cases htype : w.type <;> simp_all [WorkloadType.isInfinite]

theorem stored_setWriteAllPct (w : Workload) (p : FpNum) :
    { w.stored with writeAllPct := some p } = Workload.stored { w with writeAllPct := p } := by
  unfold Workload.stored RawWorkload.store
  cases w.type <;> simp

/-- What is assigned does not depend on what the memory held. -/
theorem parseWorkloadType_stored (w₀ w₁ : Workload) (str : Text) :
    (parseWorkloadType w₀ str).map Workload.stored = (parseWorkloadType w₁ str).map Workload.stored := by
  have htwo : ∀ type, type = .ru ∨ type = .rr →
      (parseTwoWay type w₀ str).map Workload.stored = (parseTwoWay type w₁ str).map Workload.stored := by
    intro type htype
    unfold parseTwoWay
    cases percentagesAfter str (str.drop 2) with
    | error e => rfl
    | ok pcts =>
      rcases htype with rfl | rfl <;> rcases pcts with _ | _ | ⟨r, more⟩ <;> simp only [bind, Except.bind, check] <;> try rfl
      all_goals split <;> rfl
  unfold parseWorkloadType
  split_ifs
  · rfl
  · rfl
  · rfl
  · exact htwo .ru (.inl rfl)
  · exact htwo .rr (.inr rfl)
  · rfl
  · rfl

/-! ## Up to the object spec -/

/-- Another workload in the stage. -/
def StageSetUp.withWorkload (u : StageSetUp) (x : RawWorkload) : StageSetUp := { u with stage := { u.stage with workload := x } }

theorem setReadAllPct_stored (u : StageSetUp) (w : Workload) :
    (u.withWorkload w.stored).setReadAllPct d = .ok (u.withWorkload (w.setReadAllPct d.readBinsStr).stored) := by
  unfold StageSetUp.setReadAllPct StageSetUp.withWorkload Workload.setReadAllPct
  dsimp only
  rw [stored_containsReads]
  cases hreads : w.containsReads
  · rfl
  · rw [stored_readAllPct hreads]
    cases hunset : w.readAllPct.eq unsetPct
    · simp [bind, Except.bind, pure, Except.pure, hunset]
    · simp [bind, Except.bind, pure, Except.pure, hunset, stored_setReadAllPct hreads]

theorem setWriteAllPct_stored (u : StageSetUp) (w : Workload) :
    (u.withWorkload w.stored).setWriteAllPct d = .ok (u.withWorkload (w.setWriteAllPct d.writeBinsStr).stored) := by
  unfold StageSetUp.setWriteAllPct StageSetUp.withWorkload Workload.setWriteAllPct
  dsimp only
  rw [stored_containsWrites, stored_writeAllPct]
  cases w.containsWrites
  · rfl
  · cases hunset : w.writeAllPct.eq unsetPct
    · simp [bind, Except.bind, pure, Except.pure, hunset]
    · simp [bind, Except.bind, pure, Except.pure, hunset, stored_setWriteAllPct]

/-- What holds of a stage before its bins are selected; `w` is its workload and `failed` and `prev` are those at its start. -/
structure SpecSet (R : AsRandom) (args : StageArgs) (i : Nat) (failed : Bool) (prev : ObjSpec) (d : StageDef) (w : Workload)
    (u : StageSetUp) : Prop where
  workload : u.stage.workload = w.stored
  passed : u.failed = false → d.specWithoutError R args i (if failed then none else some prev) w = some u.prev
  failed : u.failed = true → d.specWithoutError R args i (if failed then none else some prev) w = none
  nBins : u.stage.objSpec.nBinSpecs = if d.objSpecStr ≠ none ∧ u.failed = true then none else some u.prev.nBinSpecs
  free : u.stage.objSpec.free .objSpec = .ok ()
  readBins : u.stage.readBins = {}
  writeBins : u.stage.writeBins = {}
  udfFnArgs : u.stage.udfFnArgs = {}

/-- The steps for a stage before its bins are selected. -/
def setUpSpec (R : AsRandom) (args : StageArgs) (i : Nat) (failed : Bool) (prev : ObjSpec) (d : StageDef) : Except StageField StageSetUp := do
  let u ← StageSetUp.setKeys args d ⟨{}, failed, prev⟩
  let u ← u.setBatchSizes i d
  let u ← (u.setWorkload d).checkRandom
  let u ← u.setReadAllPct d
  let u ← u.setWriteAllPct d
  let u ← u.setDuration d
  return u.setObjSpec R d

theorem setUpStage_eq (failed : Bool) (prev : ObjSpec) : setUpStage R args i failed prev d = (do
    let u ← setUpSpec R args i failed prev d
    let u ← u.setReadBins args d
    let u ← u.setWriteBins d
    u.setUdf R d) := by
  simp only [setUpStage, setUpSpec, bind_assoc, pure_bind]

theorem checkRandom_stored {random : Bool} (h : u.stage.random = some random) :
    (u.withWorkload w.stored).checkRandom =
      .ok (StageSetUp.withWorkload { u with failed := u.failed || decide (w.type = .d ∧ random = true) } w.stored) := by
  unfold StageSetUp.checkRandom StageSetUp.withWorkload
  dsimp only
  rw [stored_type, h]
  by_cases htype : w.type = .d <;> simp [bind, Except.bind, pure, Except.pure, htype]

theorem setDuration_stored (u : StageSetUp) (w : Workload) (d : StageDef) :
    ∃ n, (u.withWorkload w.stored).setDuration d =
      .ok (StageSetUp.withWorkload { u with stage := { u.stage with duration := some n } } w.stored) := by
  unfold StageSetUp.setDuration StageSetUp.withWorkload
  dsimp only
  rw [stored_type]
  split_ifs
  · exact ⟨_, rfl⟩
  · exact ⟨_, rfl⟩

/-- The object spec, after the checks before it. -/
theorem setObjSpec_specSet {failed : Bool} {prev : ObjSpec} (hworkload : u.stage.workload = w.stored)
    (hfailed : u.failed = true ↔ failed = true ∨
      ¬ (d.startKey args < d.endKey args ∧ d.stageIdx = i + 1 ∧ ¬ (w.type = .d ∧ d.random = true)))
    (hprev : u.prev = prev) (hobjSpec : u.stage.objSpec = {}) (hreadBins : u.stage.readBins = {}) (hwriteBins : u.stage.writeBins = {})
    (hudf : u.stage.udfFnArgs = {}) : SpecSet R args i failed prev d w (u.setObjSpec R d) := by
  have hspec : d.specWithoutError R args i (if failed then none else some prev) w =
      if u.failed then none else (stageSpec R prev d.objSpecStr).toOption := by
    unfold StageDef.specWithoutError
    by_cases hf : u.failed = true
    · rw [if_pos hf]
      rcases hfailed.mp hf with h | h
      · simp [h]
      · simp only [if_neg h]
        cases failed <;> rfl
    · have hnot := mt hfailed.mpr hf
      rw [not_or, not_not] at hnot
      rw [if_neg hf, if_neg hnot.1]
      exact if_pos hnot.2
  unfold StageSetUp.setObjSpec
  cases hstr : d.objSpecStr with
  | none =>
    rw [hstr] at hspec
    refine ⟨hworkload, ?_, ?_, by simp [hstr], rfl, hreadBins, hwriteBins, hudf⟩
    · intro h
      rw [hspec, if_neg (by simpa using h)]
      exact congrArg some hprev.symm
    · intro h
      rw [hspec, if_pos h]
  | some str =>
    rw [hstr] at hspec
    dsimp only
    by_cases hf : u.failed = true
    · rw [if_pos hf] at hspec ⊢
      exact ⟨hworkload, fun h => absurd (hf.symm.trans h) (by simp), fun _ => hspec, by simp [hstr, hf, hobjSpec], rfl, hreadBins,
        hwriteBins, hudf⟩
    · rw [if_neg hf] at hspec ⊢
      rw [stageSpec, parseStageSpec] at hspec
      unfold RawSpec.parse
      cases hparse : objSpecParse R str with
      | ok o =>
        rw [hparse] at hspec
        exact ⟨hworkload, fun _ => hspec, by simp, by simp [hstr], rfl, hreadBins, hwriteBins, hudf⟩
      | error e =>
        rw [hparse] at hspec
        exact ⟨hworkload, by simp, fun _ => hspec, by simp [hstr, hobjSpec], rfl, hreadBins, hwriteBins, hudf⟩

theorem withDefaults_type (d : StageDef) (parsed : Workload) : (d.withDefaults parsed).type = parsed.type := by
  rw [StageDef.withDefaults, setWriteAllPct_type, setReadAllPct_type]

/-- A stage with a workload is set up to its bins. -/
theorem setUpSpec_ok (R : AsRandom) (args : StageArgs) (i : Nat) (failed : Bool) (prev : ObjSpec) {parsed : Workload}
    (h : parsedWorkload d.workloadStr = .ok parsed) :
    ∃ u, setUpSpec R args i failed prev d = .ok u ∧ SpecSet R args i failed prev d (d.withDefaults parsed) u := by
  obtain ⟨u, hu, hfailed, hprev, hrandom, hworkload, hobjSpec, hreadBins, hwriteBins, hudf⟩ :
      ∃ u, (StageSetUp.setKeys args d ⟨{}, failed, prev⟩ >>= StageSetUp.setBatchSizes i d) = .ok u ∧
        u.failed = (failed || decide (d.endKey args ≤ d.startKey args) || decide (d.stageIdx ≠ i + 1)) ∧ u.prev = prev ∧
        u.stage.random = some d.random ∧ u.stage.workload = {} ∧ u.stage.objSpec = {} ∧ u.stage.readBins = {} ∧
        u.stage.writeBins = {} ∧ u.stage.udfFnArgs = {} := ⟨_, rfl, rfl, rfl, rfl, rfl, rfl, rfl, rfl, rfl⟩
  have hset : u.setWorkload d = u.withWorkload parsed.stored := by
    rw [StageSetUp.setWorkload, h, StageSetUp.withWorkload, hworkload]
    rfl
  obtain ⟨n, hn⟩ := setDuration_stored { u with failed := u.failed || decide (parsed.type = .d ∧ d.random = true) }
    (d.withDefaults parsed) d
  have hrun : ∃ v : StageSetUp, setUpSpec R args i failed prev d = .ok (v.setObjSpec R d) ∧
      v = StageSetUp.withWorkload { u with
        stage := { u.stage with duration := some n }, failed := u.failed || decide (parsed.type = .d ∧ d.random = true) }
        (d.withDefaults parsed).stored := by
    refine ⟨_, ?_, rfl⟩
    unfold setUpSpec
    rw [← bind_assoc, hu, ok_bind, hset, checkRandom_stored hrandom, ok_bind, setReadAllPct_stored, ok_bind, setWriteAllPct_stored,
      ok_bind]
    change (StageSetUp.setDuration d (StageSetUp.withWorkload _ (d.withDefaults parsed).stored) >>= _) = _
    rw [hn, ok_bind]
    rfl
  obtain ⟨v, hrun, rfl⟩ := hrun
  refine ⟨_, hrun, setObjSpec_specSet rfl ?_ hprev hobjSpec hreadBins hwriteBins hudf⟩
  rw [withDefaults_type]
  simp only [StageSetUp.withWorkload, hfailed, Bool.or_eq_true, decide_eq_true_eq]
  rw [not_and_or, not_and_or, not_not, not_lt, or_assoc, or_assoc]

/-- A stage whose workload string is rejected has no type when it is asked for. -/
theorem setUpSpec_unknown {e : ConfigError} (h : parsedWorkload d.workloadStr = .error e) (failed : Bool) (prev : ObjSpec) :
    setUpSpec R args i failed prev d = .error (.workload .type) := by
  simp only [setUpSpec, StageSetUp.setWorkload, h]
  rfl

/-! ## Bins -/

section Bins

variable {α : Type} {given : Option Text} {c : Bool} {p : FpNum} {contains : Except StageField Bool} {allPct : Except StageField FpNum}
  {parse : Nat → Text → Except ConfigError (BinList α)} {name : StageField} {nBins : Option Nat} {r : RawBins α × Bool}

theorem binsStr_eq (hcontains : contains = .ok c) (hpct : c = true → allPct = .ok p) :
    StageSetUp.binsStr given contains allPct = .ok (selectionStr given c p) := by
  subst hcontains
  cases given with
  | some str => rfl
  | none =>
    cases c with
    | false => rfl
    | true =>
      rw [hpct rfl]
      simp only [StageSetUp.binsStr, selectionStr, ok_bind, if_true, Bool.true_and]
      split <;> rfl

/-- A selection is stored if the operations are there and the number of bins is known, or if there is none to make. -/
theorem selectBins_assigned_iff (hcontains : contains = .ok c) (hpct : c = true → allPct = .ok p) :
    (∃ r, StageSetUp.selectBins given contains allPct (readCell name nBins) parse {} = .ok r ∧ r.1.bins ≠ none) ↔
      (given ≠ none → c = true) ∧ (nBins = none → selectionStr given c p = none) := by
  unfold StageSetUp.selectBins
  rw [binsStr_eq hcontains hpct, ok_bind]
  subst hcontains
  cases hstr : selectionStr given c p with
  | none =>
    have hgiven : given = none := by
      cases given with
      | none => rfl
      | some str => cases hstr
    simp [hgiven, pure, Except.pure]
  | some str =>
    cases c with
    | false =>
      have hgiven : given ≠ none := by
        rintro rfl
        cases hstr
      simp [hgiven, bind, Except.bind, pure, Except.pure]
    | true =>
      cases nBins with
      | none => simp [bind, Except.bind]
      | some n =>
        cases hparse : parse n str <;> simp [bind, Except.bind, pure, Except.pure, hparse]

/-- The selection is in order if that of the accepted stage is. -/
theorem selectBins_inOrder_iff {n : Nat} {e : ConfigError} {old : RawBins α} (hcontains : contains = .ok c)
    (hpct : c = true → allPct = .ok p)
    (hmode : ∀ str, (∃ l, parse n str = .ok l) ↔ ∃ sel, parseBinsSelection n str = .ok sel)
    (h : StageSetUp.selectBins given contains allPct (readCell name (some n)) parse old = .ok r) :
    r.2 = true ↔ ∃ sel, stageBins given c p n e = .ok sel := by
  unfold StageSetUp.selectBins at h
  rw [binsStr_eq hcontains hpct, ok_bind] at h
  subst hcontains
  have hparsed : ∀ str, selectionStr given c p = some str → c = true →
      (r.2 = true ↔ ∃ sel, (parseBinsSelection n str).map some = .ok sel) := by
    intro str hstr hc
    rw [hstr] at h
    subst hc
    simp only [ok_bind, if_true, readCell_some] at h
    have hiff := hmode str
    cases hparse : parse n str with
    | ok l =>
      rw [hparse] at h hiff
      cases h
      obtain ⟨sel, hsel⟩ := hiff.mp ⟨l, rfl⟩
      simp [hsel, Except.map]
    | error err =>
      rw [hparse] at h hiff
      cases h
      cases hsel : parseBinsSelection n str with
      | ok sel => simp [hsel] at hiff
      | error err' => simp [Except.map]
  cases given with
  | some str =>
    cases c with
    | true => simpa [stageBins, check, bind, Except.bind] using hparsed str rfl rfl
    | false =>
      cases h
      simp [stageBins, check, bind, Except.bind]
  | none =>
    simp only [stageBins]
    split_ifs with hlt
    · rw [Bool.and_eq_true] at hlt
      exact hparsed ['1'] (by simp [selectionStr, hlt]) hlt.1
    · have hstr : selectionStr none c p = none := if_neg hlt
      rw [hstr] at h
      cases h
      simp

end Bins

/-! ## UDFs -/

/-- What holds of a stage `v` after its UDF; `u` is the stage before. -/
structure UdfSet (R : AsRandom) (mem : Stage) (d : StageDef) (w : Workload) (u v : StageSetUp) : Prop where
  workload : v.stage.workload = u.stage.workload
  objSpec : v.stage.objSpec = u.stage.objSpec
  readBins : v.stage.readBins = u.stage.readBins
  writeBins : v.stage.writeBins = u.stage.writeBins
  prev : v.prev = u.prev
  failed : v.failed = false ↔ u.failed = false ∧ ∃ udf, stageUdf R mem d w = .ok udf
  free : (w.type = .ruf → ReadsAssigned (v.stage.udfFnArgs.free .udfFnArgs)) ↔
    (w.type = .ruf → d.udfFnName ≠ none → d.udfPackageName ≠ none → u.failed = false)

theorem setUdf_udfSet (mem : Stage) (hworkload : u.stage.workload = w.stored) (hargs : u.stage.udfFnArgs = {}) :
    ∃ v, u.setUdf R d = .ok v ∧ UdfSet R mem d w u v := by
  unfold StageSetUp.setUdf
  rw [hworkload, stored_containsUdfs, ok_bind]
  cases hudfs : w.containsUdfs with
  | false =>
    have htype : w.type ≠ .ruf := by simpa [Workload.containsUdfs] using hudfs
    simp only [Bool.false_eq_true, if_false]
    split_ifs with hnone
    · refine ⟨u, rfl, rfl, rfl, rfl, rfl, rfl, ?_, by simp [htype]⟩
      simp [stageUdf, hudfs, hnone]
    · refine ⟨_, rfl, rfl, rfl, rfl, rfl, rfl, ?_, by simp [htype]⟩
      simp [stageUdf, hudfs, hnone]
  | true =>
    have htype : w.type = .ruf := by simpa [Workload.containsUdfs] using hudfs
    simp only [if_true]
    cases hfn : d.udfFnName with
    | none =>
      refine ⟨_, rfl, rfl, rfl, rfl, rfl, rfl, ?_, ?_⟩
      · simp [stageUdf, hudfs, hfn]
      · simp [hfn, RawSpec.free, bind, Except.bind, pure, Except.pure, ReadsAssigned]
    | some fn =>
      cases hpackage : d.udfPackageName with
      | none =>
        refine ⟨_, rfl, rfl, rfl, rfl, rfl, rfl, ?_, ?_⟩
        · simp [stageUdf, hudfs, hfn, hpackage]
        · simp [hpackage, RawSpec.free, bind, Except.bind, pure, Except.pure, ReadsAssigned]
      | some package =>
        cases hfailed : u.failed with
        | true =>
          refine ⟨u, rfl, rfl, rfl, rfl, rfl, rfl, ?_, ?_⟩
          · simp [hfailed]
          · simp [htype, hfn, hpackage, hfailed, hargs, RawSpec.free, bind, Except.bind, ReadsAssigned]
        | false =>
          simp only [Bool.false_eq_true, if_false]
          refine ⟨_, rfl, rfl, rfl, rfl, rfl, rfl, ?_, ?_⟩
          · cases hparse : objSpecParse R (d.udfFnArgs.getD []) <;>
              simp [stageUdf, hudfs, hfn, hpackage, hfailed, RawSpec.parse, parseStageSpec, hparse, Except.map]
          · cases hparse : objSpecParse R (d.udfFnArgs.getD []) <;>
              simp [hfailed, RawSpec.parse, hparse, RawSpec.free, bind, Except.bind, pure, Except.pure, ReadsAssigned]

/-! ## A stage -/

section Stage

variable {failed : Bool} {prev : ObjSpec}

/-- The selection of the read bins of a stage that has been set up to its object spec. -/
def readSelection (args : StageArgs) (d : StageDef) (w : Workload) (nBins : Option Nat) :
    Except StageField (RawBins (Option Text) × Bool) :=
  StageSetUp.selectBins d.readBinsStr w.stored.containsReads (readCell (.workload .readAllPct) w.stored.readAllPct)
    (readCell (.objSpec .nBinSpecs) nBins) (parseBinsStr args.binName) {}

/-- The selection of its write bins. -/
def writeSelection (d : StageDef) (w : Workload) (nBins : Option Nat) : Except StageField (RawBins Nat × Bool) :=
  StageSetUp.selectBins d.writeBinsStr w.stored.containsWrites (readCell (.workload .writeAllPct) w.stored.writeAllPct)
    (readCell (.objSpec .nBinSpecs) nBins) parseBinsInt {}

/-- The stage with its bins. -/
def StageSetUp.withBins (u : StageSetUp) (r : RawBins (Option Text) × Bool) (wr : RawBins Nat × Bool) : StageSetUp :=
  { u with stage := { u.stage with readBins := r.1, writeBins := wr.1 }, failed := u.failed || !r.2 || !wr.2 }

theorem setUpStage_bins (R : AsRandom) (args : StageArgs) (i : Nat) (failed : Bool) (prev : ObjSpec) {parsed : Workload}
    (h : parsedWorkload d.workloadStr = .ok parsed) :
    ∃ u, SpecSet R args i failed prev d (d.withDefaults parsed) u ∧
      setUpStage R args i failed prev d = (do
        let r ← readSelection args d (d.withDefaults parsed) u.stage.objSpec.nBinSpecs
        let wr ← writeSelection d (d.withDefaults parsed) u.stage.objSpec.nBinSpecs
        (u.withBins r wr).setUdf R d) := by
  obtain ⟨u, hu, hset⟩ := setUpSpec_ok R args i failed prev h
  refine ⟨u, hset, ?_⟩
  rw [setUpStage_eq, hu, ok_bind, readSelection, writeSelection, ← hset.workload, ← hset.readBins, ← hset.writeBins]
  simp only [StageSetUp.setReadBins, StageSetUp.setWriteBins, bind_assoc, pure_bind]
  rfl

theorem readSelection_assigned_iff {nBins : Option Nat} :
    (∃ r, readSelection args d w nBins = .ok r ∧ r.1.bins ≠ none) ↔
      (d.readBinsStr ≠ none → w.containsReads = true) ∧
        (nBins = none → selectionStr d.readBinsStr w.containsReads w.readAllPct = none) := by
  refine selectBins_assigned_iff (stored_containsReads w) ?_
  intro hreads
  rw [stored_readAllPct hreads, readCell_some]

theorem writeSelection_assigned_iff {nBins : Option Nat} :
    (∃ r, writeSelection d w nBins = .ok r ∧ r.1.bins ≠ none) ↔
      (d.writeBinsStr ≠ none → w.containsWrites = true) ∧
        (nBins = none → selectionStr d.writeBinsStr w.containsWrites w.writeAllPct = none) := by
  refine selectBins_assigned_iff (stored_containsWrites w) ?_
  intro _
  rw [stored_writeAllPct, readCell_some]

/-- There is no error up to the bins of a stage exactly if its spec is there and the selections are in order. -/
theorem withBins_failed_iff (hset : SpecSet R args i failed prev d w u) {r : RawBins (Option Text) × Bool} {wr : RawBins Nat × Bool}
    (hr : readSelection args d w u.stage.objSpec.nBinSpecs = .ok r) (hwr : writeSelection d w u.stage.objSpec.nBinSpecs = .ok wr) :
    (u.withBins r wr).failed = false ↔ ∃ spec,
      d.specWithoutError R args i (if failed then none else some prev) w = some spec ∧ d.BinsSelected i w spec.nBinSpecs := by
  cases hfailed : u.failed with
  | true => simp [StageSetUp.withBins, hfailed, hset.failed hfailed]
  | false =>
    have hn : u.stage.objSpec.nBinSpecs = some u.prev.nBinSpecs := by
      rw [hset.nBins, if_neg]
      simp [hfailed]
    rw [hn] at hr hwr
    have hread : r.2 = true ↔ _ := selectBins_inOrder_iff (e := .readBinsWithoutReads (i + 1)) (stored_containsReads w)
      (fun hreads => by rw [stored_readAllPct hreads, readCell_some]) (fun _ => parseBinList_ok_iff) hr
    have hwrite : wr.2 = true ↔ _ := selectBins_inOrder_iff (e := .writeBinsWithoutWrites (i + 1)) (stored_containsWrites w)
      (fun _ => by rw [stored_writeAllPct, readCell_some]) (fun _ => parseBinList_ok_iff) hwr
    simp [StageSetUp.withBins, hfailed, hset.passed hfailed, StageDef.BinsSelected, hread, hwrite]

/-- What `free_workload_config` needs of a stage. -/
theorem free_readsAssigned_iff {s : RawStage} (hworkload : s.workload = w.stored) (hspec : s.objSpec.free .objSpec = .ok ()) :
    ReadsAssigned s.free ↔ s.readBins.bins ≠ none ∧ s.writeBins.bins ≠ none ∧
      (w.type = .ruf → ReadsAssigned (s.udfFnArgs.free .udfFnArgs)) := by
  unfold RawStage.free
  rw [hspec, ok_bind, readsAssigned_bind]
  cases s.readBins.bins with
  | none => simp
  | some readBins =>
    cases s.writeBins.bins with
    | none => simp [readsAssigned_bind]
    | some writeBins =>
      simp only [readCell_some, ok_bind, hworkload, stored_containsUdfs, Workload.containsUdfs, beq_iff_eq]
      by_cases htype : w.type = .ruf
      · simp [htype]
      · simp [htype, ReadsAssigned, pure, Except.pure]

theorem setUpStage_unknown {e : ConfigError} (h : parsedWorkload d.workloadStr = .error e) :
    setUpStage R args i failed prev d = .error (.workload .type) := by
  rw [setUpStage_eq, setUpSpec_unknown h]
  rfl

end Stage

end AerospikeBenchmark
