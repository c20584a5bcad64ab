import AerospikeBenchmark.Lemmas.Accepted
import AerospikeBenchmark.Lib.Runs
import AerospikeBenchmark.Workload.StageSpecs

/-!
# Normalised stages

What `stages_set_defaults_and_parse` leaves in the stages when it succeeds: each field is the one given or its default, and the object
spec is the one of the nearest stage that gives one. A stage without a spec of its own holds a copy that does not own the array.
-/

namespace AerospikeBenchmark

open CText Results Runs

variable {R : AsRandom} {args : StageArgs}

/-- The numbers of the arguments are values of their C types. -/
structure StageArgs.Typed (args : StageArgs) : Prop where
  startKey : args.startKey < 2 ^ 64
  keys : args.keys < 2 ^ 64

/-- The numbers of a stage definition are values of their C types. -/
@[mk_iff typed_iff]
structure StageDef.Typed (d : StageDef) : Prop where
  duration : d.duration < 2 ^ 64
  tps : d.tps < 2 ^ 64
  ttl : d.ttl < 2 ^ 64
  keyStart : d.keyStart < 2 ^ 64
  keyEnd : d.keyEnd < 2 ^ 64
  pause : d.pause < 2 ^ 64
  batchSize : d.batchSize < 2 ^ 32
  batchReadSize : d.batchReadSize < 2 ^ 32
  batchWriteSize : d.batchWriteSize < 2 ^ 32
  batchDeleteSize : d.batchDeleteSize < 2 ^ 32
  stageIdx : d.stageIdx < 2 ^ 16

/-! ## Keys -/

/-- A sum that wraps is not above its first operand. -/
theorem add_lt_of_lt_mod {a b : Nat} (ha : a < 2 ^ 64) (hb : b < 2 ^ 64) (h : a < (a + b) % 2 ^ 64) : a + b < 2 ^ 64 := by
  omega

theorem startKey_lt {d : StageDef} (hargs : args.Typed) (hd : d.Typed) : d.startKey args < 2 ^ 64 := by
  unfold StageDef.startKey
  split
  · exact hargs.startKey
  · exact hd.keyStart

/-- The default end of the keys does not wrap in a stage that is accepted. -/
theorem endKey_of_range {d : StageDef} (hargs : args.Typed) (hd : d.Typed) (h : d.startKey args < d.endKey args)
    (hunset : d.keyEnd = unset64) : d.startKey args + args.keys < 2 ^ 64 ∧ d.endKey args = d.startKey args + args.keys := by
  unfold StageDef.endKey at h ⊢
  rw [if_pos hunset] at h ⊢
  have hsum := add_lt_of_lt_mod (startKey_lt hargs hd) hargs.keys h
  exact ⟨hsum, Nat.mod_eq_of_lt hsum⟩

/-! ## Shares of the operations on all bins -/

@[simp]
theorem containsReads_setReadAllPct (w : Workload) (str : Option Text) : (w.setReadAllPct str).containsReads = w.containsReads := by
  unfold Workload.setReadAllPct
  split <;> rfl

@[simp]
theorem containsReads_setWriteAllPct (w : Workload) (str : Option Text) : (w.setWriteAllPct str).containsReads = w.containsReads := by
  unfold Workload.setWriteAllPct
  split <;> rfl

@[simp]
theorem containsWrites_setWriteAllPct (w : Workload) (str : Option Text) :
    (w.setWriteAllPct str).containsWrites = w.containsWrites := by
  unfold Workload.setWriteAllPct
  split <;> rfl

@[simp]
theorem readAllPct_setWriteAllPct (w : Workload) (str : Option Text) : (w.setWriteAllPct str).readAllPct = w.readAllPct := by
  unfold Workload.setWriteAllPct
  split <;> rfl

theorem defaultAllPct_set (str : Option Text) : (defaultAllPct str).eq unsetPct = false := by
  unfold defaultAllPct
  split <;> decide

theorem readAllPct_set {w : Workload} (h : w.containsReads = true) (str : Option Text) :
    (w.setReadAllPct str).readAllPct.eq unsetPct = false := by
  unfold Workload.setReadAllPct
  split
  · exact defaultAllPct_set str
  · next hset => simpa [h] using hset

theorem writeAllPct_set {w : Workload} (h : w.containsWrites = true) (str : Option Text) :
    (w.setWriteAllPct str).writeAllPct.eq unsetPct = false := by
  unfold Workload.setWriteAllPct
  split
  · exact defaultAllPct_set str
  · next hset => simpa [h] using hset

/-- There is a selection of bins when one is given or not all operations use all bins. -/
theorem stageBins_ne_none {given : Option Text} {contains : Bool} {allPct : FpNum} {nBins : Nat} {e : ConfigError}
    {bins : Option (List Nat)} (h : stageBins given contains allPct nBins e = .ok bins) (hcontains : contains = true)
    (hneeded : allPct.lt (.num 100) = true ∨ given ≠ none) : bins ≠ none := by
  rintro rfl
  rcases hneeded with hlt | hgiven
  · rw [stageBins_none h hcontains] at hlt
    cases hlt
  · obtain ⟨str, rfl⟩ := Option.ne_none_iff_exists'.mp hgiven
    obtain ⟨-, -, h⟩ := bind_eq_ok.mp h
    obtain ⟨a, -, heq⟩ := map_eq_ok.mp h
    cases heq

/-! ## The fields of a stage -/

/-- Stage `s` is the normal form of the definition `d`. -/
structure Normal (args : StageArgs) (d : StageDef) (s : Stage) : Prop where
  keyStart : s.keyStart = if d.keyStart = unset64 then args.startKey else d.keyStart
  keyEnd : s.keyEnd = if d.keyEnd = unset64 then s.keyStart + args.keys else d.keyEnd
  /-- The sum of 64-bit numbers in `keyEnd` is one. -/
  noWrap : d.keyEnd = unset64 → s.keyStart + args.keys < 2 ^ 64
  keyRange : s.keyStart < s.keyEnd
  batchSize : 1 ≤ s.batchSize
  batchReadSize : s.batchReadSize = if d.batchReadSize ≠ 0 then d.batchReadSize else s.batchSize
  batchWriteSize : s.batchWriteSize = if d.batchWriteSize ≠ 0 then d.batchWriteSize else s.batchSize
  batchDeleteSize : s.batchDeleteSize = if d.batchDeleteSize ≠ 0 then d.batchDeleteSize else s.batchSize
  writes : s.workload.containsWrites = true → s.workload.writeAllPct.eq unsetPct = false ∧
    (s.workload.writeAllPct.lt (.num 100) = true ∨ d.writeBinsStr ≠ none → s.writeBins ≠ none)
  reads : s.workload.containsReads = true → s.workload.readAllPct.eq unsetPct = false ∧
    (s.workload.readAllPct.lt (.num 100) = true ∨ d.readBinsStr ≠ none → s.readBins ≠ none)
  fixedDelete : s.workload.type = .d → s.random = false

theorem normal_of_parse {mem s : Stage} {i : Nat} {prev : ObjSpec} {d : StageDef} (hargs : args.Typed) (hd : d.Typed)
    (h : parseStage R args mem i prev d = .ok s) : Normal args d s := by
  obtain ⟨parsed, hs⟩ := parsedStage_of_ok h
  have hrange : d.startKey args < d.endKey args := hs.keyStart ▸ hs.keyEnd ▸ hs.keyRange
  refine ⟨hs.keyStart, ?_, ?_, hs.keyRange, ?_, ?_, ?_, ?_, ?_, ?_, ?_⟩
  · rw [hs.keyStart, hs.keyEnd]
    split
    · next hunset => exact (endKey_of_range hargs hd hrange hunset).2
    · next hset => exact if_neg hset
  · intro hunset
    rw [hs.keyStart]
    exact (endKey_of_range hargs hd hrange hunset).1
  · rw [hs.batchSize]
    exact Nat.le_max_right d.batchSize 1
  · rw [hs.batchReadSize, ite_not]
  · rw [hs.batchWriteSize, ite_not]
  · rw [hs.batchDeleteSize, ite_not]
  · intro hwrites
    refine ⟨?_, stageBins_ne_none hs.writeBins hwrites⟩
    rw [hs.workload, containsWrites_setWriteAllPct] at hwrites
    rw [hs.workload]
    exact writeAllPct_set hwrites d.writeBinsStr
  · intro hreads
    obtain ⟨sel, hsel, hread⟩ := hs.readBins
    refine ⟨?_, fun hneeded hnone => ?_⟩
    · rw [hs.workload, containsReads_setWriteAllPct, containsReads_setReadAllPct] at hreads
      rw [hs.workload, readAllPct_setWriteAllPct]
      exact readAllPct_set hreads d.readBinsStr
    · exact stageBins_ne_none hread hreads hneeded (by simpa [hsel] using hnone)
  · intro ht
    rw [hs.workload, setWriteAllPct_type, setReadAllPct_type] at ht
    exact hs.fixedDelete ht

/-! ## The specs of the stages -/

/-- The spec that the first `n` definitions leave to be inherited: the one of the last of them that gives one, or the global one. -/
inductive NearestSpec (R : AsRandom) (args : StageArgs) (defs : List StageDef) (n : Nat) (o : ObjSpec) : Prop where
  | given (j : Nat) (d : StageDef) (str : Text) (hj : j < n) (hd : defs[j]? = some d) (hstr : d.objSpecStr = some str)
      (hlast : ∀ k e, j < k → k < n → defs[k]? = some e → e.objSpecStr = none) (hparse : objSpecParse R str = .ok o)
  | global (hnone : ∀ k e, k < n → defs[k]? = some e → e.objSpecStr = none) (ho : o = args.objSpec)

theorem parseStageSpec_eq_ok {str : Text} {o : ObjSpec} (h : parseStageSpec R str = .ok o) : objSpecParse R str = .ok o := by
  unfold parseStageSpec at h
  split at h
  · next hparse => rw [hparse, Except.ok.inj h]
  · cases h

/-- One more definition. -/
theorem NearestSpec.step {defs : List StageDef} {n : Nat} {prev o : ObjSpec} {d : StageDef} (h : NearestSpec R args defs n prev)
    (hd : defs[n]? = some d) (hspec : stageSpec R prev d.objSpecStr = .ok o) : NearestSpec R args defs (n + 1) o := by
  cases hstr : d.objSpecStr with
  | some str =>
    rw [hstr] at hspec
    exact .given n d str n.lt_succ_self hd hstr (fun k e hk hk' => by omega) (parseStageSpec_eq_ok hspec)
  | none =>
    rw [hstr] at hspec
    obtain rfl : prev = o := Except.ok.inj hspec
    have hself : ∀ k e, k = n → defs[k]? = some e → e.objSpecStr = none := by
      rintro k e rfl he
      rw [hd] at he
      exact Option.some.inj he ▸ hstr
    cases h with
    | given j dj str hj hdj hstrj hlast hparse =>
      refine .given j dj str (by omega) hdj hstrj (fun k e hjk hk he => ?_) hparse
      rcases Nat.lt_succ_iff_lt_or_eq.mp hk with hk | hk
      · exact hlast k e hjk hk he
      · exact hself k e hk he
    | global hnone ho =>
      refine .global (fun k e hk he => ?_) ho
      rcases Nat.lt_succ_iff_lt_or_eq.mp hk with hk | hk
      · exact hnone k e hk he
      · exact hself k e hk he

/-- Each accepted stage comes from its own definition, and has the nearest spec. -/
theorem parseStages_nearest {mem : Nat → Stage} {defs : List StageDef} {ds : List StageDef} {i : Nat} {prev : ObjSpec}
    {stages : List Stage} (hdefs : defs.drop i = ds) (hprev : NearestSpec R args defs i prev)
    (h : parseStages R args mem i prev ds = .ok stages) :
    stages.length = ds.length ∧ ∀ k d s, ds[k]? = some d → stages[k]? = some s →
      NearestSpec R args defs (i + k + 1) s.objSpec ∧ ∃ prev', parseStage R args (mem (i + k)) (i + k) prev' d = .ok s := by
  induction ds generalizing i prev stages with
  | nil =>
    obtain rfl : [] = stages := Except.ok.inj h
    refine ⟨rfl, fun k d s hd => ?_⟩
    rw [List.getElem?_nil] at hd
    cases hd
  | cons d ds ih =>
    obtain ⟨t, rest, ht, hrest, rfl⟩ := parseStages_cons_ok h
    obtain ⟨parsed, hparsed⟩ := parsedStage_of_ok ht
    have hd : defs[i]? = some d := by rw [← List.head?_drop, hdefs, List.head?_cons]
    have hnext : NearestSpec R args defs (i + 1) t.objSpec := hprev.step hd hparsed.spec
    obtain ⟨hlen, hstages⟩ := ih (by rw [← List.tail_drop, hdefs, List.tail_cons]) hnext hrest
    refine ⟨by rw [List.length_cons, hlen, List.length_cons], ?_⟩
    intro k e s he hs
    cases k with
    | zero =>
      cases he
      cases hs
      exact ⟨hnext, prev, ht⟩
    | succ k =>
      obtain ⟨hnear, hparse⟩ := hstages k e s he hs
      rw [show i + (k + 1) = i + 1 + k by omega]
      exact ⟨hnear, hparse⟩

/-! ## The handles of the stages -/

/-- Between two states the handles with a property stay as they are, and arrays are only added. -/
structure HandlesKept {η : Type} (P : η → Prop) (σ σ' : HandleState η) : Prop where
  handles : ∀ x, P x → σ'.handles x = σ.handles x
  arrays : σ.arrays <+: σ'.arrays

theorem HandlesKept.trans {η : Type} {P Q : η → Prop} {σ σ' σ'' : HandleState η} (h : HandlesKept P σ σ') (h' : HandlesKept Q σ' σ'')
    (himp : ∀ x, P x → Q x) : HandlesKept P σ σ'' where
  handles x hx := (h'.handles x (himp x hx)).trans (h.handles x hx)
  arrays := h.arrays.trans h'.arrays

theorem HandlesKept.holds {η : Type} {P : η → Prop} {σ σ' : HandleState η} (h : HandlesKept P σ σ') {x : η} (hx : P x) {o : ObjSpec}
    {valid : Bool} (hheld : σ.Holds x o valid) : σ'.Holds x o valid := by
  obtain ⟨array, hhandle, harray⟩ := hheld
  obtain ⟨more, hmore⟩ := h.arrays
  refine ⟨array, (h.handles x hx).trans hhandle, ?_⟩
  rw [← hmore, List.getElem?_append_left (List.getElem?_eq_some_iff.mp harray).1, harray]

section

variable {η : Type} [DecidableEq η]

theorem handlesKept_write (σ : HandleState η) (more : List (List BinSpec)) (x : η) (h : Handle) :
    HandlesKept (· ≠ x) σ ({ σ with arrays := σ.arrays ++ more }.write x h) where
  handles _ hy := Function.update_of_ne hy _ _
  arrays := List.prefix_append _ _

theorem handleParse_kept (R : AsRandom) (σ : HandleState η) (x : η) (str : Text) : HandlesKept (· ≠ x) σ (handleParse R σ x str) := by
  unfold handleParse
  split
  · exact handlesKept_write σ _ x _
  · simpa using handlesKept_write σ [] x _

theorem handleParse_holds {str : Text} {o : ObjSpec} (hparse : objSpecParse R str = .ok o) (σ : HandleState η) (x : η) :
    (handleParse R σ x str).Holds x o true := by
  simp only [handleParse, hparse]
  exact ⟨σ.arrays.length, Function.update_self _ _ _, by simp [HandleState.write]⟩

theorem handleShallowCopy_holds {σ : HandleState η} {src : η} {o : ObjSpec} {valid : Bool} (h : σ.Holds src o valid) (dst : η) :
    ∃ σ', handleShallowCopy σ dst src = some σ' ∧ HandlesKept (· ≠ dst) σ σ' ∧ σ'.Holds dst o false := by
  obtain ⟨array, hhandle, harray⟩ := h
  refine ⟨σ.write dst ⟨some ⟨array, o.nBinSpecs⟩, false⟩, by simp [handleShallowCopy, hhandle], ?_, array,
    Function.update_self _ _ _, harray⟩
  simpa using handlesKept_write σ [] dst _

end

/-- The places in the arguments and in the stages before the one with index `i`. -/
def SpecPlace.Before (i : Nat) : SpecPlace → Prop
  | .args => True
  | .objSpec k => k < i
  | .udfFnArgs k => k < i

theorem SpecPlace.Before.mono {i j : Nat} (hij : i ≤ j) {x : SpecPlace} (h : x.Before i) : x.Before j := by
  cases x with
  | args => trivial
  | objSpec k => exact Nat.lt_of_lt_of_le h hij
  | udfFnArgs k => exact Nat.lt_of_lt_of_le h hij

theorem SpecPlace.Before.ne_objSpec {i : Nat} {x : SpecPlace} (h : x.Before i) : x ≠ .objSpec i := by
  rintro rfl
  exact Nat.lt_irrefl i h

theorem SpecPlace.Before.ne_udfFnArgs {i : Nat} {x : SpecPlace} (h : x.Before i) : x ≠ .udfFnArgs i := by
  rintro rfl
  exact Nat.lt_irrefl i h

/-- The operation on the object spec of one stage. -/
theorem objSpecOp_run {prev o : ObjSpec} {str : Option Text} (hspec : stageSpec R prev str = .ok o) {σ : HandleState SpecPlace}
    {place : SpecPlace} {valid : Bool} (hheld : σ.Holds place prev valid) (x : SpecPlace) :
    ∃ σ', handleStep R σ (objSpecOp x place str) = some σ' ∧
      HandlesKept (· ≠ x) σ σ' ∧ σ'.Holds x o str.isSome := by
  cases str with
  | none =>
    obtain rfl : prev = o := Except.ok.inj hspec
    exact handleShallowCopy_holds hheld x
  | some str =>
    exact ⟨handleParse R σ x str, rfl, handleParse_kept R σ x str, handleParse_holds (parseStageSpec_eq_ok hspec) σ x⟩

/-- The operations for one stage write to its own places, and leave a spec for the next stage. -/
theorem stageSpecOps_run {prev : ObjSpec} {d : StageDef} {s : Stage} (hspec : stageSpec R prev d.objSpecStr = .ok s.objSpec)
    {σ : HandleState SpecPlace} {i : Nat} {place : SpecPlace} (hplace : place.Before i) {valid : Bool}
    (hheld : σ.Holds place prev valid) :
    ∃ σ', run (handleStep R) σ (stageSpecOps i place d s) = some σ' ∧ HandlesKept (·.Before i) σ σ' ∧
      σ'.Holds (.objSpec i) s.objSpec d.objSpecStr.isSome ∧ ∃ valid', σ'.Holds (nextSpecPlace i place d) s.objSpec valid' := by
  obtain ⟨τ, hstep, hkept, hheld'⟩ := objSpecOp_run hspec hheld (.objSpec i)
  -- the spec of the arguments of a UDF does not touch the object spec
  obtain ⟨σ', hrun, hkept'⟩ : ∃ σ', run (handleStep R) τ (if s.workload.containsUdfs then
      [.parse (.udfFnArgs i) (d.udfFnArgs.getD [])] else []) = some σ' ∧ HandlesKept (· ≠ .udfFnArgs i) τ σ' := by
    split
    · exact ⟨_, rfl, handleParse_kept R τ _ _⟩
    · exact ⟨τ, rfl, fun _ _ => rfl, List.prefix_rfl⟩
  have hown : σ'.Holds (.objSpec i) s.objSpec d.objSpecStr.isSome := hkept'.holds (by simp) hheld'
  have hbefore : HandlesKept (·.Before i) σ σ' := by
    have hobj : HandlesKept (·.Before i) σ τ := ⟨fun x hx => hkept.handles x hx.ne_objSpec, hkept.arrays⟩
    exact hobj.trans hkept' fun x hx => hx.ne_udfFnArgs
  refine ⟨σ', ?_, hbefore, hown, ?_⟩
  · simp only [stageSpecOps, run, hstep, Option.bind_some, hrun]
  · unfold nextSpecPlace
    split
    · next hnone =>
      rw [hnone] at hspec
      obtain rfl : prev = s.objSpec := Except.ok.inj hspec
      exact ⟨valid, hbefore.holds hplace hheld⟩
    · exact ⟨_, hown⟩

/-- The operations of the loop: every stage holds its spec, and owns it if it has a string for it. -/
theorem specOps_run {mem : Nat → Stage} {ds : List StageDef} {i : Nat} {prev : ObjSpec} {stages : List Stage}
    (h : parseStages R args mem i prev ds = .ok stages) {σ : HandleState SpecPlace} {place : SpecPlace} (hplace : place.Before i)
    {valid : Bool} (hheld : σ.Holds place prev valid) :
    ∃ σ', run (handleStep R) σ (specOps i place ds stages) = some σ' ∧ HandlesKept (·.Before i) σ σ' ∧
      ∀ k d s, ds[k]? = some d → stages[k]? = some s → σ'.Holds (.objSpec (i + k)) s.objSpec d.objSpecStr.isSome := by
  induction ds generalizing i prev stages σ place valid with
  | nil =>
    refine ⟨σ, rfl, ⟨fun _ _ => rfl, List.prefix_rfl⟩, fun k d s hd => ?_⟩
    rw [List.getElem?_nil] at hd
    cases hd
  | cons d ds ih =>
    obtain ⟨t, rest, ht, hrest, rfl⟩ := parseStages_cons_ok h
    obtain ⟨parsed, hparsed⟩ := parsedStage_of_ok ht
    obtain ⟨τ, hrun, hkept, hown, valid', hnext⟩ := stageSpecOps_run hparsed.spec hplace hheld
    have hplace' : (nextSpecPlace i place d).Before (i + 1) := by
      unfold nextSpecPlace
      split
      · exact hplace.mono (Nat.le_succ i)
      · exact Nat.lt_succ_self i
    obtain ⟨σ', hrun', hkept', hstages⟩ := ih hrest hplace' hnext
    refine ⟨σ', ?_, hkept.trans hkept' fun x hx => hx.mono (Nat.le_succ i), ?_⟩
    · rw [specOps, run_append, hrun, Option.bind_some, hrun']
    · intro k e s he hs
      cases k with
      | zero =>
        cases he
        cases hs
        exact hkept'.holds (x := .objSpec i) (Nat.lt_succ_self i) hown
      | succ k =>
        rw [show i + (k + 1) = i + 1 + k by omega]
        exact hstages k e s he hs

/-! ## Normalised stages -/

/-- When `stages_set_defaults_and_parse` succeeds there is one stage for each definition. Its fields are those of the normal form,
its object spec is the nearest one, and the object spec it holds after the operations of the loop is its own exactly if its
definition gives one. -/
theorem stages_normalised (R : AsRandom) (args : StageArgs) (mem : Nat → Stage) (defs : List StageDef) (stages : List Stage)
    (hargs : args.Typed) (hdefs : ∀ d ∈ defs, d.Typed) (h : stagesSetDefaultsAndParse R args mem defs = .ok stages) :
    stages.length = defs.length ∧
      ∃ σ, run (handleStep R) args.handles (specOps 0 .args defs stages) = some σ ∧
        ∀ i d s, defs[i]? = some d → stages[i]? = some s →
          Normal args d s ∧ NearestSpec R args defs (i + 1) s.objSpec ∧ σ.Holds (.objSpec i) s.objSpec d.objSpecStr.isSome := by
  obtain ⟨hlen, hstages⟩ := parseStages_nearest rfl (.global (fun k e hk => absurd hk k.not_lt_zero) rfl) h
  have hheld : args.handles.Holds .args args.objSpec true := ⟨0, by simp [StageArgs.handles], rfl⟩
  obtain ⟨σ, hrun, -, hown⟩ := specOps_run h (show SpecPlace.args.Before 0 from trivial) hheld
  refine ⟨hlen, σ, hrun, ?_⟩
  intro i d s hd hs
  obtain ⟨hnear, prev, hparse⟩ := hstages i d s hd hs
  rw [Nat.zero_add] at hnear
  exact ⟨normal_of_parse hargs (hdefs d (List.mem_of_getElem? hd)) hparse, hnear, Nat.zero_add i ▸ hown i d s hd hs⟩

/-- An insert stage with a spec of its own, and a stage after it that deletes bins. -/
theorem stages_normalised_two :
    ∃ σ, run (handleStep .littleEndian) StageArgs.defaults.handles
        (specOps 0 .args [{ StageDef.ofWorkload ['I'] with objSpecStr := some ['I'] }, { StageDef.ofWorkload ['D', 'B'] with stageIdx := 2 }]
          [.ofWorkload ⟨.i, .num 0, .num 0, .num 0, .num 100⟩ 1 1000001, .ofWorkload ⟨.d, .num 0, .num 0, .num 0, .num 100⟩ 1 1000001]) =
        some σ ∧
      σ.Holds (.objSpec 0) ⟨[.scalar 1 (.int 3)], 1⟩ true ∧ σ.Holds (.objSpec 1) ⟨[.scalar 1 (.int 3)], 1⟩ false := by
  obtain ⟨-, σ, hrun, hstages⟩ := stages_normalised .littleEndian .defaults
    (fun _ => .ofWorkload ⟨.d, .num 0, .num 0, .num 0, .num 0⟩ 0 0)
    [{ StageDef.ofWorkload ['I'] with objSpecStr := some ['I'] }, { StageDef.ofWorkload ['D', 'B'] with stageIdx := 2 }]
    [.ofWorkload ⟨.i, .num 0, .num 0, .num 0, .num 100⟩ 1 1000001, .ofWorkload ⟨.d, .num 0, .num 0, .num 0, .num 100⟩ 1 1000001]
    ⟨by decide, by decide⟩ (by simp [StageDef.ofWorkload, unset64, StageDef.typed_iff]) (by decide +kernel)
  exact ⟨σ, hrun, (hstages 0 _ _ rfl rfl).2.2, (hstages 1 _ _ rfl rfl).2.2⟩

end AerospikeBenchmark
