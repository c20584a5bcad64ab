import AerospikeBenchmark.Transaction.StageObjects
import AerospikeBenchmark.Workload.Parse

/-!
# The objects of a stage are created, used and destroyed

An operation uses only objects that `init_stage` initialised. `terminate_stage` destroys what was initialised unless the stage keeps
its objects and has no writes: `init_stage` asks whether the workload contains writes before it makes the records for them, and
`terminate_stage` does not.
-/

namespace AerospikeBenchmark

open CText

/-! ## What is initialised and destroyed -/

/-- The objects a stage initialises. -/
def Stage.initialises (s : Stage) : StageObject → Bool
  | .fixedFullRecord => !s.random && s.workload.containsWrites && !s.workload.writeAllPct.eq (.num 0)
  | .fixedPartialRecord => !s.random && s.workload.containsWrites && !s.workload.writeAllPct.eq (.num 100)
  | .fixedDeleteRecord => s.workload.containsDeletes
  | .fixedUdfFnArgs => !s.random && s.workload.containsUdfs

/-- The objects a stage destroys. -/
def Stage.destroys (s : Stage) : StageObject → Bool
  | .fixedFullRecord => !s.random && !s.workload.writeAllPct.eq (.num 0)
  | .fixedPartialRecord => !s.random && !s.workload.writeAllPct.eq (.num 100)
  | .fixedDeleteRecord => s.workload.containsDeletes
  | .fixedUdfFnArgs => !s.random && s.workload.containsUdfs

/-- No share is both 0 and 100. -/
theorem eq_hundred_of_eq_zero {pct : FpNum} (h : pct.eq (.num 0) = true) : pct.eq (.num 100) = false := by
  rw [FpNum.eq_of_eq h]
  decide +kernel

theorem mem_eventIf {test : Bool} {e e' : ObjectEvent} : e ∈ eventIf test e' ↔ test = true ∧ e = e' := by
  cases test <;> simp [eventIf]

theorem count_eventIf (test : Bool) (e e' : ObjectEvent) :
    (eventIf test e').count e = if e' = e then if test then 1 else 0 else 0 := by
  cases test <;> simp [eventIf, List.count_singleton]

theorem init_mem_initDeleteRecords {w : Workload} {o : StageObject} :
    .init o ∈ initDeleteRecords w ↔ o = .fixedDeleteRecord ∧ w.containsDeletes = true := by
  -- a bin-delete stage makes the record for all bins, for the selected ones, or for both
  have hshare : w.writeAllPct.eq (.num 0) = true → w.writeAllPct.eq (.num 100) = false := eq_hundred_of_eq_zero
  unfold initDeleteRecords
  cases w.containsDeletes with
  | false => simp
  | true =>
    simp only [if_true, List.mem_append, mem_eventIf, ObjectEvent.init.injEq, and_true]
    rw [bne]
    cases w.type == .d <;> cases hzero : w.writeAllPct.eq (.num 0) <;> simp_all

theorem init_mem_initStage (s : Stage) (o : StageObject) : .init o ∈ initStage s ↔ s.initialises o = true := by
  unfold initStage initWriteRecords
  cases hrandom : s.random <;> cases hwrites : s.workload.containsWrites <;> cases o <;>
    simp [init_mem_initDeleteRecords, mem_eventIf, Stage.initialises, hrandom, hwrites]

theorem count_terminateStage (s : Stage) (o : StageObject) :
    (terminateStage s).count (.destroy o) = if s.destroys o then 1 else 0 := by
  unfold terminateStage
  cases hrandom : s.random <;> cases hdeletes : s.workload.containsDeletes <;> cases o <;>
    simp [count_eventIf, Stage.destroys, hrandom, hdeletes]

/-! ## What is used -/

theorem use_mem_useRecord {o : StageObject} {rec : Option StageObject} : .use o ∈ useRecord rec ↔ rec = some o := by
  cases rec <;> simp [useRecord, eq_comm]

theorem use_not_mem_destroyRecord (s : Stage) (rec : Option StageObject) (o : StageObject) : .use o ∉ destroyRecord s rec := by
  unfold destroyRecord
  split <;> simp

/-- The record of a write is initialised when its share of the writes is not empty. -/
theorem initialises_of_genRecord {cast : FpNum → Nat} {s : Stage} {word : Nat} {o : StageObject}
    (hwrites : s.workload.containsWrites = true) (h : genRecord cast s word = some o) : s.initialises o = true := by
  unfold genRecord at h
  split at h
  · next hdie =>
    have hzero : s.workload.writeAllPct.eq (.num 0) = false := by
      by_contra heq
      rw [FpNum.eq_of_eq (Bool.of_not_eq_false heq), pctToFp_zero] at hdie
      omega
    cases hr : s.random with
    | true => simp [hr] at h
    | false =>
      obtain rfl : .fixedFullRecord = o := by simpa [hr] using h
      simp [Stage.initialises, hr, hwrites, hzero]
  · next hdie =>
    have hhundred : s.workload.writeAllPct.eq (.num 100) = false := by
      by_contra heq
      rw [FpNum.eq_of_eq (Bool.of_not_eq_false heq), pctToFp_hundred] at hdie
      exact hdie (randomFp_lt word)
    cases hr : s.random with
    | true => simp [hr] at h
    | false =>
      obtain rfl : .fixedPartialRecord = o := by simpa [hr] using h
      simp [Stage.initialises, hr, hwrites, hhundred]

theorem initialises_of_writeEvents {cast : FpNum → Nat} {s : Stage} {word : Nat} {o : StageObject}
    (hwrites : s.workload.containsWrites = true) (h : .use o ∈ writeEvents cast s word) : s.initialises o = true := by
  rcases List.mem_append.mp h with h | h
  · exact initialises_of_genRecord hwrites (use_mem_useRecord.mp h)
  · exact absurd h (use_not_mem_destroyRecord s _ o)

theorem eq_of_deleteEvents {s : Stage} {o : StageObject} (h : .use o ∈ deleteEvents s) : o = .fixedDeleteRecord := by
  have hnil (h : .use o ∈ useRecord genNilRecord) : o = .fixedDeleteRecord := (Option.some.inj (use_mem_useRecord.mp h)).symm
  unfold deleteEvents at h
  split at h
  · rcases List.mem_append.mp h with h | h
    · exact hnil h
    · split at h
      · simp at h
      · exact absurd h (use_not_mem_destroyRecord s _ o)
  · obtain ⟨-, -, h⟩ := List.mem_flatMap.mp h
    exact hnil h

/-- Every object that an operation uses is one the stage initialises. -/
theorem initialises_of_operation {cast : FpNum → Nat} {s : Stage} {words : OperationWords} {o : StageObject}
    (h : .use o ∈ operationEvents cast s words) : s.initialises o = true := by
  unfold operationEvents at h
  cases hkind : s.workload.choose cast (randomFp words.kind) with
  | read => simp [hkind] at h
  | write =>
    have hwrites := Workload.containsWrites_of_choose (randomFp_lt words.kind) hkind
    simp only [hkind] at h
    split at h
    · exact initialises_of_writeEvents hwrites h
    · obtain ⟨i, -, h⟩ := List.mem_flatMap.mp h
      exact initialises_of_writeEvents hwrites h
  | delete =>
    simp only [hkind] at h
    obtain rfl := eq_of_deleteEvents h
    have hchosen := s.workload.chosen_choose cast (randomFp words.kind)
    rw [hkind] at hchosen
    rcases hchosen with ht | ht <;> simp [Stage.initialises, Workload.containsDeletes, ht]
  | udf =>
    have hudfs := Workload.containsUdfs_of_choose hkind
    simp only [hkind, udfEvents] at h
    cases hr : s.random with
    | true => simp [hr] at h
    | false =>
      obtain rfl : o = .fixedUdfFnArgs := by simpa [hr] using h
      simp [Stage.initialises, hr, hudfs]

/-! ## Consistency -/

/-- The objects of a stage are kept consistently along a sequence of operations: each object used was initialised, and
`terminate_stage` destroys each object that was initialised once and no other. -/
structure KeepsObjects (cast : FpNum → Nat) (s : Stage) (ops : List OperationWords) : Prop where
  used : ∀ op ∈ ops, ∀ o, .use o ∈ operationEvents cast s op → .init o ∈ initStage s
  destroyed : ∀ o, (terminateStage s).count (.destroy o) = if .init o ∈ initStage s then 1 else 0

/-- The objects of a stage are kept consistently, along any sequence of operations, exactly when the stage is random or contains
writes. -/
theorem keeps_objects_iff (cast : FpNum → Nat) (s : Stage) (ops : List OperationWords) :
    KeepsObjects cast s ops ↔ s.random = true ∨ s.workload.containsWrites = true := by
  constructor
  · intro h
    by_contra hneither
    simp only [not_or, Bool.not_eq_true] at hneither
    obtain ⟨hrandom, hwrites⟩ := hneither
    -- of the two records for writes one is destroyed at least, and none has been initialised
    have hnone {o : StageObject} (hdestroys : s.destroys o = true) (hinit : s.initialises o = false) : False := by
      have hcount := h.destroyed o
      rw [count_terminateStage, if_pos hdestroys, if_neg] at hcount
      · exact absurd hcount (by decide)
      · rw [init_mem_initStage, hinit]
        exact Bool.false_ne_true
    cases hzero : s.workload.writeAllPct.eq (.num 0) with
    | false =>
      exact hnone (o := .fixedFullRecord) (by simp [Stage.destroys, hrandom, hzero]) (by simp [Stage.initialises, hwrites])
    | true =>
      have hhundred := eq_hundred_of_eq_zero hzero
      exact hnone (o := .fixedPartialRecord) (by simp [Stage.destroys, hrandom, hhundred]) (by simp [Stage.initialises, hwrites])
  · intro h
    refine ⟨fun op _ o huse => (init_mem_initStage s o).mpr (initialises_of_operation huse), fun o => ?_⟩
    have hsame : s.destroys o = s.initialises o := by
      rcases h with h | h <;> cases o <;> simp [Stage.destroys, Stage.initialises, h]
    rw [count_terminateStage, hsame]
    simp only [init_mem_initStage]

theorem destroy_not_mem_initStage (s : Stage) (o : StageObject) : .destroy o ∉ initStage s := by
  unfold initStage
  cases s.random <;> cases hw : s.workload.containsWrites <;> cases hd : s.workload.containsDeletes <;>
    simp [initWriteRecords, initDeleteRecords, mem_eventIf, hw, hd]

/-- The operations of a stage that keeps its objects destroy none of them. -/
theorem destroy_not_mem_operation {cast : FpNum → Nat} {s : Stage} (hkeeps : s.random = false) (words : OperationWords)
    (o : StageObject) : .destroy o ∉ operationEvents cast s words := by
  have hrec (rec : Option StageObject) : destroyRecord s rec = [] := by simp [destroyRecord, hkeeps]
  have huse (rec : Option StageObject) : .destroy o ∉ useRecord rec := by simp [useRecord]
  unfold operationEvents
  split
  · simp
  · split <;> simp [writeEvents, hrec, huse]
  · unfold deleteEvents
    split <;> simp [hrec, huse]
  · simp [udfEvents, hkeeps]

/-- Over the whole of a stage that keeps its objects and contains writes, each object is destroyed as often as it should be. -/
theorem count_destroy_stageEvents (cast : FpNum → Nat) {s : Stage} (hkeeps : s.random = false)
    (hwrites : s.workload.containsWrites = true) (ops : List OperationWords) (o : StageObject) :
    (stageEvents cast s ops).count (.destroy o) = if s.initialises o then 1 else 0 := by
  have hops : .destroy o ∉ ops.flatMap (operationEvents cast s) := by
    intro h
    obtain ⟨op, -, h⟩ := List.mem_flatMap.mp h
    exact destroy_not_mem_operation hkeeps op o h
  have hsame : s.destroys o = s.initialises o := by
    cases o <;> simp [Stage.destroys, Stage.initialises, hwrites]
  rw [stageEvents, List.count_append, List.count_append, List.count_eq_zero.mpr (destroy_not_mem_initStage s o),
    List.count_eq_zero.mpr hops, count_terminateStage, hsame, Nat.add_zero, Nat.zero_add]

/-- A stage that only reads. -/
def readStage : Stage := Stage.ofWorkload ⟨.ru, .num 100, .nan, .num 100, .num (-1)⟩ 1 1000001

/-- The stage is accepted, and it destroys two records that it never initialised. -/
theorem unmade_records_destroyed :
    stagesSetDefaultsAndParse .littleEndian .defaults (fun _ => readStage) [StageDef.ofWorkload ['R', 'U', ',', '1', '0', '0']] =
      .ok [readStage] ∧
    initStage readStage = [] ∧ terminateStage readStage = [.destroy .fixedFullRecord, .destroy .fixedPartialRecord] ∧
    ¬ KeepsObjects (fun _ => 0) readStage [] := by
  refine ⟨by decide +kernel, by decide +kernel, by decide +kernel, ?_⟩
  intro h
  exact absurd (h.destroyed .fixedFullRecord) (by decide +kernel)

end AerospikeBenchmark
