import AerospikeBenchmark.Transaction.Async
import AerospikeBenchmark.Workload.Parse

/-!
# Asynchronous operations are accounted under their own kind

Every routine that issues an operation sets the tag of its item, but for the batched deletes of a random workload, which leave the
tag of the item's last operation. So operations are accounted under their own kind as long as those find a tag of a write or a
delete.
-/

namespace AerospikeBenchmark

open CText

/-- The tags of an operation's own kind. -/
def OpKind.Owns : OpKind → Option OpTag → Prop
  | .read, op => op = some .readOp
  | .write, op | .delete, op => op = some .writeOp ∨ op = some .deleteOp
  | .udf, op => op = some .udfOp

theorem OpKind.Owns.tagClass_eq {k : OpKind} {op : Option OpTag} (h : k.Owns op) : tagClass op = k.opClass := by
  cases k with
  | read | udf =>
    obtain rfl := h
    rfl
  | write | delete => rcases h with rfl | rfl <;> rfl

/-- The deletes that leave the tag of their item. -/
def Stage.KeepsTag (s : Stage) (k : OpKind) : Prop := k = .delete ∧ s.workload.type ≠ .d ∧ 1 < s.batchDeleteSize

theorem issueAsync_keeps {s : Stage} {k : OpKind} (h : s.KeepsTag k) (now : Nat) (a : AsyncData) :
    (issueAsync s k now a).op = a.op := by
  obtain ⟨rfl, ht, hb⟩ := h
  simp [issueAsync, ht, randomDeleteAsync, Nat.not_le.mpr hb]

theorem issueAsync_owns {s : Stage} {k : OpKind} (h : ¬ s.KeepsTag k) (now : Nat) (a : AsyncData) :
    k.Owns (issueAsync s k now a).op := by
  cases k with
  | read | udf => rfl
  | write => exact .inl rfl
  | delete =>
    by_cases ht : s.workload.type = .d
    · exact .inr (by simp [issueAsync, ht, linearDeleteAsync])
    · have hb : s.batchDeleteSize ≤ 1 := by
        by_contra hb
        exact h ⟨rfl, ht, by omega⟩
      exact .inl (by simp [issueAsync, ht, randomDeleteAsync, hb])

/-- The condition on a step: a delete that leaves the tag of its item finds one of its own kind. -/
def TagReady {n : Nat} (cast : FpNum → Nat) (s : Stage) (st : AsyncState n) : AsyncEvent n → Prop
  | .issue word _ => ∀ i ∈ st.queue.head?, s.KeepsTag (s.workload.choose cast (randomFp word)) → OpKind.delete.Owns (st.items i).op
  | .complete _ _ _ => True

/-- Every operation under way or completed carries its own tag, and counters and latencies are those of the completed operations,
each under its own kind. -/
structure Accounted {n : Nat} (cd : CData) (st : AsyncState n) : Prop where
  inFlight : ∀ i k, st.inFlight i = some k → k.Owns (st.items i).op
  completed : ∀ c ∈ st.completed, c.kind.Owns c.op
  cdata : st.cdata = (st.completed.map Completion.result).foldl accountAsync cd

theorem accounted_init {n : Nat} (items : Fin n → AsyncData) (cd : CData) : Accounted cd (AsyncState.init items cd) where
  inFlight := by
    intro i k h
    cases h
  completed := by
    intro c h
    cases h
  cdata := rfl

/-- An operation goes out with its own tag. -/
theorem Accounted.issue {n : Nat} {cd : CData} {st : AsyncState n} (h : Accounted cd st) (s : Stage) (i : Fin n)
    (rest : List (Fin n)) (k : OpKind) (now : Nat) (hk : k.Owns (issueAsync s k now (st.items i)).op) :
    Accounted cd (st.issue s i rest k now) where
  inFlight := by
    intro j k' hj
    by_cases hji : j = i
    · subst hji
      simp only [AsyncState.issue, Function.update_self, Option.some.injEq] at hj ⊢
      exact hj ▸ hk
    · simp only [AsyncState.issue, Function.update_of_ne hji] at hj ⊢
      exact h.inFlight j k' hj
  completed := h.completed
  cdata := h.cdata

/-- The listener depends on the tag only through its class. -/
theorem asyncListener_owns {k : OpKind} {op : Option OpTag} (h : k.Owns op) (status : AsStatus) (dtUs : Nat) (cd : CData) :
    asyncListener op status.err dtUs cd = accountAsync cd ⟨k.opClass, status, dtUs⟩ := by
  unfold accountAsync asyncListener
  rw [tagClass_tag, h.tagClass_eq]

theorem Accounted.complete {n : Nat} {cd : CData} {st : AsyncState n} (h : Accounted cd st) {i : Fin n} {k : OpKind}
    (hi : st.inFlight i = some k) (status : AsStatus) (now : Nat) : Accounted cd (st.complete i k status now) where
  inFlight := by
    intro j k' hj
    by_cases hji : j = i
    · subst hji
      simp [AsyncState.complete] at hj
    · simp only [AsyncState.complete, Function.update_of_ne hji] at hj
      exact h.inFlight j k' hj
  completed := by
    intro c hc
    rcases List.mem_append.mp hc with hc | hc
    · exact h.completed c hc
    · obtain rfl := List.mem_singleton.mp hc
      exact h.inFlight i k hi
  cdata := by
    simp only [AsyncState.complete, List.map_append, List.map_cons, List.map_nil, List.foldl_append, List.foldl_cons, List.foldl_nil]
    rw [asyncListener_owns (h.inFlight i k hi), h.cdata]
    rfl

/-- A step that meets the condition keeps the accounting right. -/
theorem accounted_step {n : Nat} {cast : FpNum → Nat} {s : Stage} {cd : CData} (st : AsyncState n) (e : AsyncEvent n)
    (st' : AsyncState n) (h : Accounted cd st) (hready : TagReady cast s st e) (hstep : asyncStep cast s st e = some st') :
    Accounted cd st' := by
  rcases asyncStep_cases hstep with ⟨word, now, i, rest, rfl, hq, rfl⟩ | ⟨i, status, now, k, rfl, hi, rfl⟩
  · refine h.issue s i rest _ now ?_
    by_cases hkeeps : s.KeepsTag (s.workload.choose cast (randomFp word))
    · rw [issueAsync_keeps hkeeps, hkeeps.1]
      exact hready i (by simp [hq]) hkeeps
    · exact issueAsync_owns hkeeps now _
  · exact h.complete hi status now

/-- A step after which the accounting is right met the condition. -/
theorem tagReady_of_accounted {n : Nat} {cast : FpNum → Nat} {s : Stage} {cd : CData} (st : AsyncState n) (e : AsyncEvent n)
    (h : ∀ st', asyncStep cast s st e = some st' → Accounted cd st') : TagReady cast s st e := by
  cases e with
  | complete i status now => trivial
  | issue word now =>
    intro i hi hkeeps
    cases hq : st.queue with
    | nil => simp [hq] at hi
    | cons j rest =>
      obtain rfl : j = i := by simpa [hq] using hi
      have hstep : asyncStep cast s st (.issue word now) =
          some (st.issue s j rest (s.workload.choose cast (randomFp word)) now) := by simp only [asyncStep, hq]
      have hafter := (h _ hstep).inFlight j _ (Function.update_self ..)
      simp only [AsyncState.issue, Function.update_self] at hafter
      rwa [issueAsync_keeps hkeeps, hkeeps.1] at hafter

/-- In a run of an asynchronous stage, with any number of items and whatever their memory held, all operations are accounted under
their own kind throughout exactly when every batched delete of a random workload is issued with an item whose tag is that of a
write or a delete. -/
theorem async_accounted_iff {n : Nat} (cast : FpNum → Nat) (s : Stage) (items : Fin n → AsyncData) (cd : CData)
    (es : List (AsyncEvent n)) :
    Runs.Throughout (asyncStep cast s) (Accounted cd) (AsyncState.init items cd) es ↔
      Runs.Along (asyncStep cast s) (TagReady cast s) (AsyncState.init items cd) es := by
  constructor
  · exact Runs.along_of_throughout tagReady_of_accounted
  · exact Runs.throughout_of_along accounted_step (accounted_init items cd)

/-- An asynchronous random stage with batched deletes. -/
def batchDeleteStage : Stage :=
  { Stage.ofWorkload ⟨.rud, .num 40, .num 40, .num 100, .num 100⟩ 1 1000001 with async := true, batchDeleteSize := 2 }

/-- The stage is accepted; with one item, a read and then a batched delete that both succeed are counted as two reads. -/
theorem batched_delete_counted_as_read :
    stagesSetDefaultsAndParse .littleEndian .defaults (fun _ => batchDeleteStage)
      [{ StageDef.ofWorkload ['R', 'U', 'D'] with async := true, batchDeleteSize := 2 }] = .ok [batchDeleteStage] ∧
    (Runs.run (asyncStep (fun _ => 0) batchDeleteStage) (AsyncState.init (n := 1) (fun _ => ⟨none, 0⟩) CData.cleared)
      [.issue 0 10, .complete 0 .ok 15, .issue (2 ^ 24 - 1) 20, .complete 0 .ok 26]).map
        (fun st => (st.completed, st.cdata.counters)) =
      some ([⟨.read, some .readOp, .ok, 5⟩, ⟨.delete, some .readOp, .ok, 6⟩], { readHitCount := 2 }) := by
  decide +kernel

end AerospikeBenchmark
