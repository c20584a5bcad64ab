import AerospikeBenchmark.Lemmas.ParseRun
import AerospikeBenchmark.ObjectSpec.Conform
import AerospikeBenchmark.Workload.Parse

/-!
# What acceptance gives

Facts about object specs accepted by `obj_spec_parse` and stages accepted by `stages_set_defaults_and_parse`, for the proofs about
what is done with them.
-/

namespace AerospikeBenchmark

open CText Results SpecTree

variable {R : AsRandom}

/-- The temporary list spec over the bins of an accepted text is valid. -/
theorem valid_of_accepted {s : Text} {o : ObjSpec} (h : objSpecParse R s = .ok o) :
    (BinSpec.list 1 o.nBinSpecs o.binSpecs).Valid ∧ ∀ c ∈ scalarsList o.binSpecs, c.InRange := by
  obtain ⟨ts, s', hreads, htot, rfl⟩ := objSpecParse_ok_iff.mp h
  have hwf := hreads.wfList
  simp only [BinSpec.Valid, ← buildList_eq_map]
  refine ⟨⟨?_, htot, hwf.valid⟩, hwf.inRange⟩
  rw [buildList_eq_map, totalRepeats_map_build]

/-! ## Checks in sequence -/

theorem check_eq_ok {p : Prop} [Decidable p] {e : ConfigError} {u : Unit} : check p e = .ok u ↔ p := by
  unfold check
  split <;> simp_all

/-! ## Workloads -/

theorem parseThreeWay_type {type : WorkloadType} {str : Text} {w : Workload} (h : parseThreeWay type str = .ok w) :
    w.type = type := by
  unfold parseThreeWay at h
  obtain ⟨pcts, -, h⟩ := bind_eq_ok.mp h
  split at h
  · cases h
    rfl
  · simp only [bind_eq_ok] at h
    obtain ⟨-, -, -, -, hw⟩ := h
    cases hw
    rfl
  · cases h

theorem parseTwoWay_type {type : WorkloadType} {w₀ w : Workload} {str : Text} (h : parseTwoWay type w₀ str = .ok w) :
    w.type = type := by
  unfold parseTwoWay at h
  obtain ⟨pcts, -, h⟩ := bind_eq_ok.mp h
  split at h
  · cases h
    rfl
  · obtain ⟨-, -, hw⟩ := bind_eq_ok.mp h
    cases hw
    rfl
  · cases h

/-- A bin-delete workload says nothing on the share of all bins. -/
theorem parseWorkloadType_delete {w₀ w : Workload} {str : Text} (h : parseWorkloadType w₀ str = .ok w) (ht : w.type = .d) :
    w.writeAllPct = unsetPct := by
  unfold parseWorkloadType at h
  split_ifs at h
  · cases h
    rfl
  · rw [parseThreeWay_type h] at ht
    cases ht
  · rw [parseThreeWay_type h] at ht
    cases ht
  · rw [parseTwoWay_type h] at ht
    cases ht
  · rw [parseTwoWay_type h] at ht
    cases ht
  · cases h
    rfl

/-! ## Bin selections -/

/-- The bins selected are in ascending order, after the last one read and below the number of bins. -/
theorem parseBinsLoop_sorted {nBins : Nat} : ∀ {fuel seen prev : Nat} {str : Text} {sel : List Nat},
    parseBinsLoop nBins fuel seen prev str = .ok sel → sel.Pairwise (· < ·) ∧ ∀ i ∈ sel, prev ≤ i ∧ i < nBins
  | 0, _, _, _, _, h => by cases h
  | fuel + 1, seen, prev, str, sel, h => by
    unfold parseBinsLoop at h
    split at h
    · cases h
      exact ⟨.nil, nofun⟩
    split at h
    · cases h
    next r _ =>
      split_ifs at h with h1 h2 h3 h4
      obtain ⟨rest, hrest, rfl⟩ := map_eq_ok.mp h
      obtain ⟨hsorted, hbound⟩ := parseBinsLoop_sorted hrest
      refine ⟨List.pairwise_cons.mpr ⟨?_, hsorted⟩, ?_⟩
      · intro i hi
        have := (hbound i hi).1
        omega
      · intro i hi
        rcases List.mem_cons.mp hi with rfl | hi
        · omega
        · have := hbound i hi
          omega

theorem stageBins_sorted {given : Option Text} {contains : Bool} {allPct : FpNum} {nBins : Nat} {e : ConfigError} {sel : List Nat}
    (h : stageBins given contains allPct nBins e = .ok (some sel)) : sel.Pairwise (· < ·) ∧ ∀ i ∈ sel, i < nBins := by
  have hsel : ∃ str, parseBinsSelection nBins str = .ok sel := by
    cases given with
    | some str =>
      obtain ⟨-, -, h⟩ := bind_eq_ok.mp h
      obtain ⟨a, ha, heq⟩ := map_eq_ok.mp h
      cases heq
      exact ⟨str, ha⟩
    | none =>
      simp only [stageBins] at h
      split at h
      · obtain ⟨a, ha, heq⟩ := map_eq_ok.mp h
        cases heq
        exact ⟨_, ha⟩
      · cases h
  obtain ⟨str, hstr⟩ := hsel
  obtain ⟨hsorted, hbound⟩ := parseBinsLoop_sorted hstr
  exact ⟨hsorted, fun i hi => (hbound i hi).2⟩

/-- A selection is given only with operations that use it. -/
theorem contains_of_stageBins {given : Option Text} {contains : Bool} {allPct : FpNum} {nBins : Nat} {e : ConfigError}
    {bins : Option (List Nat)} (h : stageBins given contains allPct nBins e = .ok bins) (hgiven : given ≠ none) : contains = true := by
  obtain ⟨str, rfl⟩ := Option.ne_none_iff_exists'.mp hgiven
  obtain ⟨u, hcheck, -⟩ := bind_eq_ok.mp h
  exact check_eq_ok.mp hcheck

/-- With the default share of all bins there is a selection exactly when one is given. -/
theorem stageBins_default {given : Option Text} {contains : Bool} {nBins : Nat} {e : ConfigError} {bins : Option (List Nat)}
    (h : stageBins given contains (defaultAllPct given) nBins e = .ok bins) :
    (bins = none ∧ defaultAllPct given = .num 100) ∨ ∃ sel, bins = some sel ∧ defaultAllPct given = .num 0 := by
  cases given with
  | none =>
    have hnone : bins = none := by simpa [stageBins, defaultAllPct, FpNum.lt] using h.symm
    exact .inl ⟨hnone, rfl⟩
  | some str =>
    obtain ⟨-, -, hsel⟩ := bind_eq_ok.mp h
    obtain ⟨sel, -, rfl⟩ := map_eq_ok.mp hsel
    exact .inr ⟨sel, rfl, rfl⟩

/-! ## Stages -/

/-- The counts of a spec agree with its bins. -/
def ObjSpec.Valid (o : ObjSpec) : Prop := (BinSpec.list 1 o.nBinSpecs o.binSpecs).Valid

/-- What acceptance gives about a stage. -/
structure Stage.WellFormed (s : Stage) : Prop where
  spec : s.objSpec.Valid
  fixedDelete : s.workload.type = .d → s.random = false
  deleteAll : s.workload.type = .d → (s.writeBins = none ∧ s.workload.writeAllPct = .num 100) ∨
    ∃ sel, s.writeBins = some sel ∧ s.workload.writeAllPct = .num 0
  writeBins : ∀ sel, s.writeBins = some sel → sel.Pairwise (· < ·) ∧ ∀ i ∈ sel, i < s.objSpec.nBinSpecs

theorem stageSpec_valid {prev o : ObjSpec} {str : Option Text} (hprev : prev.Valid) (h : stageSpec R prev str = .ok o) :
    o.Valid := by
  cases str with
  | none =>
    cases h
    exact hprev
  | some str =>
    simp only [stageSpec, parseStageSpec] at h
    split at h
    · next hparse =>
      cases h
      exact (valid_of_accepted hparse).1
    · cases h

theorem setReadAllPct_type (w : Workload) (str : Option Text) : (w.setReadAllPct str).type = w.type := by
  unfold Workload.setReadAllPct
  split <;> rfl

theorem setReadAllPct_writeAllPct (w : Workload) (str : Option Text) : (w.setReadAllPct str).writeAllPct = w.writeAllPct := by
  unfold Workload.setReadAllPct
  split <;> rfl

theorem setWriteAllPct_type (w : Workload) (str : Option Text) : (w.setWriteAllPct str).type = w.type := by
  unfold Workload.setWriteAllPct
  split <;> rfl

/-- The default share of all bins of a bin-delete workload. -/
theorem setWriteAllPct_delete {w : Workload} (ht : w.type = .d) (hw : w.writeAllPct = unsetPct) (str : Option Text) :
    (w.setWriteAllPct str).writeAllPct = defaultAllPct str := by
  have hcontains : w.containsWrites = true := by simp [Workload.containsWrites, ht]
  have hunset : w.writeAllPct.eq unsetPct = true := by
    rw [hw]
    decide
  simp [Workload.setWriteAllPct, hcontains, hunset]

/-- What is in a stage that was accepted; `parsed` is what its workload string gives. -/
structure ParsedStage (R : AsRandom) (args : StageArgs) (mem : Stage) (i : Nat) (prev : ObjSpec) (d : StageDef) (parsed : Workload)
    (s : Stage) : Prop where
  keyStart : s.keyStart = d.startKey args
  keyEnd : s.keyEnd = d.endKey args
  keyRange : s.keyStart < s.keyEnd
  batchSize : s.batchSize = max d.batchSize 1
  batchReadSize : s.batchReadSize = if d.batchReadSize = 0 then s.batchSize else d.batchReadSize
  batchWriteSize : s.batchWriteSize = if d.batchWriteSize = 0 then s.batchSize else d.batchWriteSize
  batchDeleteSize : s.batchDeleteSize = if d.batchDeleteSize = 0 then s.batchSize else d.batchDeleteSize
  parse : parseWorkloadType mem.workload d.workloadStr = .ok parsed
  workload : s.workload = (parsed.setReadAllPct d.readBinsStr).setWriteAllPct d.writeBinsStr
  fixedDelete : parsed.type = .d → s.random = false
  spec : stageSpec R prev d.objSpecStr = .ok s.objSpec
  readBins : ∃ sel, s.readBins = sel.map (·.map (genBinName args.binName)) ∧
    stageBins d.readBinsStr s.workload.containsReads s.workload.readAllPct s.objSpec.nBinSpecs (.readBinsWithoutReads (i + 1)) = .ok sel
  writeBins : stageBins d.writeBinsStr s.workload.containsWrites s.workload.writeAllPct s.objSpec.nBinSpecs
    (.writeBinsWithoutWrites (i + 1)) = .ok s.writeBins
  udf : stageUdf R mem d s.workload = .ok (s.udfPackageName, s.udfFnName, s.udfFnArgs)

theorem parsedStage_of_ok {args : StageArgs} {mem s : Stage} {i : Nat} {prev : ObjSpec} {d : StageDef}
    (h : parseStage R args mem i prev d = .ok s) : ∃ parsed, ParsedStage R args mem i prev d parsed s := by
  unfold parseStage at h
  simp only [bind_eq_ok, check_eq_ok] at h
  obtain ⟨-, hkeys, -, -, parsed, hparsed, -, hrandom, spec, hspec, readBins, hread, writeBins, hwrite, udf, hudf, hs⟩ := h
  cases hs
  refine ⟨parsed, rfl, rfl, hkeys, rfl, rfl, rfl, rfl, hparsed, rfl, ?_, hspec, ⟨readBins, rfl, hread⟩, hwrite, hudf⟩
  intro ht
  by_contra hr
  exact hrandom ⟨ht, Bool.of_not_eq_false hr⟩

/-- A stage accepted after a valid spec is well formed. -/
theorem parseStage_wellFormed {args : StageArgs} {mem s : Stage} {i : Nat} {prev : ObjSpec} {d : StageDef} (hprev : prev.Valid)
    (h : parseStage R args mem i prev d = .ok s) : s.WellFormed := by
  obtain ⟨parsed, hs⟩ := parsedStage_of_ok h
  have htype : s.workload.type = parsed.type := by
    rw [hs.workload, setWriteAllPct_type, setReadAllPct_type]
  refine ⟨stageSpec_valid hprev hs.spec, fun ht => hs.fixedDelete (htype ▸ ht), ?_, ?_⟩
  · intro ht
    have hparsedType : parsed.type = .d := htype ▸ ht
    have hpct : s.workload.writeAllPct = defaultAllPct d.writeBinsStr := by
      rw [hs.workload]
      apply setWriteAllPct_delete
      · rw [setReadAllPct_type, hparsedType]
      · rw [setReadAllPct_writeAllPct, parseWorkloadType_delete hs.parse hparsedType]
    rcases stageBins_default (hpct ▸ hs.writeBins) with ⟨hnone, hall⟩ | ⟨sel, hsel, hall⟩
    · exact .inl ⟨hnone, hpct.trans hall⟩
    · exact .inr ⟨sel, hsel, hpct.trans hall⟩
  · intro sel hsel
    exact stageBins_sorted (hsel ▸ hs.writeBins)

theorem parseStages_cons_ok {args : StageArgs} {mem : Nat → Stage} {i : Nat} {prev : ObjSpec} {d : StageDef} {ds : List StageDef}
    {stages : List Stage} (h : parseStages R args mem i prev (d :: ds) = .ok stages) :
    ∃ s rest, parseStage R args (mem i) i prev d = .ok s ∧ parseStages R args mem (i + 1) s.objSpec ds = .ok rest ∧
      stages = s :: rest := by
  obtain ⟨s, hs, h⟩ := bind_eq_ok.mp h
  obtain ⟨rest, hrest, heq⟩ := bind_eq_ok.mp h
  cases heq
  exact ⟨s, rest, hs, hrest, rfl⟩

/-- Every accepted stage comes from one of the definitions, after a spec that is valid if the first one was. -/
theorem mem_parseStages {args : StageArgs} {mem : Nat → Stage} {i : Nat} {prev : ObjSpec} {defs : List StageDef}
    {stages : List Stage} (h : parseStages R args mem i prev defs = .ok stages) {s : Stage} (hs : s ∈ stages) :
    ∃ j spec, (prev.Valid → spec.Valid) ∧ ∃ d ∈ defs, parseStage R args (mem j) j spec d = .ok s := by
  induction defs generalizing i prev stages with
  | nil =>
    obtain rfl : [] = stages := by simpa [parseStages] using h
    exact absurd hs List.not_mem_nil
  | cons d ds ih =>
    obtain ⟨t, rest, ht, hrest, rfl⟩ := parseStages_cons_ok h
    rcases List.mem_cons.mp hs with rfl | hs
    · exact ⟨i, prev, id, d, List.mem_cons_self, ht⟩
    · obtain ⟨j, spec, hvalid, e, he, hparse⟩ := ih hrest hs
      exact ⟨j, spec, fun hprev => hvalid (parseStage_wellFormed hprev ht).spec, e, List.mem_cons_of_mem d he, hparse⟩

/-- Every accepted stage is well formed. -/
theorem parseStages_wellFormed {args : StageArgs} {mem : Nat → Stage} {i : Nat} {prev : ObjSpec} {defs : List StageDef}
    {stages : List Stage} (hprev : prev.Valid) (h : parseStages R args mem i prev defs = .ok stages) :
    ∀ s ∈ stages, s.WellFormed := by
  intro s hs
  obtain ⟨j, spec, hvalid, d, -, hparse⟩ := mem_parseStages h hs
  exact parseStage_wellFormed (hvalid hprev) hparse

/-- Operations without a selection of bins have a share on all bins that is not below 100. -/
theorem stageBins_none {given : Option Text} {contains : Bool} {allPct : FpNum} {nBins : Nat} {e : ConfigError}
    (h : stageBins given contains allPct nBins e = .ok none) (hcontains : contains = true) : allPct.lt (.num 100) = false := by
  cases given with
  | some str =>
    obtain ⟨-, -, h⟩ := bind_eq_ok.mp h
    obtain ⟨a, -, heq⟩ := map_eq_ok.mp h
    cases heq
  | none =>
    simp only [stageBins, hcontains, Bool.true_and] at h
    split at h
    · obtain ⟨a, -, heq⟩ := map_eq_ok.mp h
      cases heq
    · next hlt => exact Bool.of_not_eq_true hlt

/-- A stage with reads and without a selection of bins for them reads all bins by its percentage too. -/
theorem readAllPct_of_accepted {args : StageArgs} {mem : Nat → Stage} {i : Nat} {prev : ObjSpec} {defs : List StageDef}
    {stages : List Stage} (h : parseStages R args mem i prev defs = .ok stages) {s : Stage} (hs : s ∈ stages)
    (hreads : s.workload.containsReads = true) (hnone : s.readBins = none) : s.workload.readAllPct.lt (.num 100) = false := by
  obtain ⟨j, spec, -, d, -, hparse⟩ := mem_parseStages h hs
  obtain ⟨parsed, hs⟩ := parsedStage_of_ok hparse
  obtain ⟨sel, hsel, hread⟩ := hs.readBins
  obtain rfl : sel = none := by simpa [hsel] using hnone
  exact stageBins_none hread hreads

end AerospikeBenchmark
