import AerospikeBenchmark.Lemmas.StageCounts

/-!
# Stages do their work, and their reports add up

Whatever the interleaving of the threads and the answers of the database: a linear stage is over only when every key of its range has
been operated on; every answer is counted once and reported once, unless it comes too late for the last report of its stage; and no
answer comes too late in a linear stage of synchronous calls, so that its reports add up to the calls it made.
-/

namespace AerospikeBenchmark

variable {c : RunConfig} {T : Nat} {setup : LatencySetup} {s : WorkState T}

/-! ## A run -/

/-- A stage that inserts two keys. -/
def insertTwo : RunConfig where
  stages := [Stage.ofWorkload ⟨.i, .num 0, .num 0, .num 100, .num 100⟩ 1 3]
  nonempty := List.cons_ne_nil _ _

theorem insertTwo_fits : insertTwo.Fits 1 := by
  intro st hst _
  obtain rfl := List.mem_singleton.mp hst
  exact ⟨by decide, by decide, by decide, by decide, by decide, by decide⟩

/-- A setup without latency output. -/
def noLatency : LatencySetup := ⟨false, false, ⟨false, false, false⟩, ⟨false, false, false⟩, ⟨false, false, false⟩⟩

/-- One worker inserts both keys, the second insert times out, the output worker reports and the coordinator ends the stage. -/
def insertTwoRun : List (WorkChoice 1) :=
  let w : WorkChoice 1 := .worker ⟨0, Nat.one_pos⟩ ⟨.write, none⟩
  let o : WorkChoice 1 := .output false
  [w, w, w, .answer 0 .ok 5, w, .answer 0 .errTimeout 9, w, w, w, w, o] ++ List.replicate 6 .coord ++ List.replicate 13 o ++
    List.replicate 2 .coord

theorem insertTwo_run : ∃ s : WorkState 1, WorkReachable insertTwo noLatency s ∧ s.base.coord.stageIdx = 1 ∧
    s.reported 0 .write = 1 ∧ s.reported 0 .writeTimeout = 1 := by
  have hend : ((WorkState.init 1 noLatency).run insertTwo insertTwoRun).map (fun s =>
      (s.base.coord.stageIdx, s.reported 0 .write, s.reported 0 .writeTimeout)) = some (1, 1, 1) := by decide
  obtain ⟨s, hs, heq⟩ := Option.map_eq_some_iff.mp hend
  simp only [Prod.mk.injEq] at heq
  exact ⟨s, WorkReachable.run .refl insertTwoRun hs, heq⟩

/-! ## Stages that are over -/

/-- A worker is past the stages that the coordinator has left behind. -/
theorem ProtocolInv.worker_past {b : ProtocolState T} (h : ProtocolInv c b) {j : Nat} (hj : j < b.coord.stageIdx) (w : Fin T) :
    j < (b.worker w).iter ∨ (j = (b.worker w).iter ∧ (b.worker w).pc.Past) := by
  have hidx := h.coord.stageIdx
  have hcoord := (h.agree.synced.passed_le .coord).1
  have hworker := (h.agree.synced.passed_le (.worker w)).2
  have hfree := h.agree.synced.free (.worker w)
  simp only [ProtocolState.view, Coord.view, Worker.view] at hcoord hworker hfree
  have hlate : b.coord.pc.late ≤ b.coord.pc.half := by
    cases b.coord.pc <;> simp [CoordPc.late, CoordPc.half]
  have hone : b.coord.pc.late ≤ 1 := by
    cases b.coord.pc <;> simp [CoordPc.late]
  rcases Nat.lt_or_ge j (b.worker w).iter with hlt | hge
  · exact Or.inl hlt
  · right
    cases hpc : (b.worker w).pc with
    | arrive2 =>
      simp only [hpc, WorkerPc.half] at hworker
      exact ⟨by omega, trivial⟩
    | wait2 r =>
      simp only [hpc, WorkerPc.half] at hworker
      exact ⟨by omega, trivial⟩
    | wait1 r =>
      simp only [hpc, WorkerPc.half] at hworker
      exact ⟨by omega, trivial⟩
    | _ =>
      simp only [hpc, WorkerPc.half, WorkerPc.wait, forall_const] at hworker hfree
      omega

/-- No keys of such a stage are ahead of a worker. -/
theorem KeysInv.keysOf_past (h : KeysInv c s) {j : Nat} (hj : j < s.base.coord.stageIdx) (w : Fin T) :
    s.keysOf w j = c.stageKeys T w j := by
  have hnone : (s.base.worker w).keysAhead c T w j = [] := by
    rcases h.base.worker_past hj w with hlt | ⟨rfl, hpast⟩
    · simp [Worker.keysAhead, hlt]
    · exact Worker.keysAhead_past hpast
  have hkeys := h.keys w j
  rwa [hnone, List.append_nil] at hkeys

/-- No call of such a stage is under way. -/
theorem CallsInv.none_past (h : CallsInv c s) (hb : ProtocolInv c s.base) {j : Nat} (hj : j < s.base.coord.stageIdx) :
    s.underWay.countP (·.stage = j) = 0 := by
  rw [List.countP_eq_zero]
  intro u hu
  have := h.stage hb hu
  simp only [decide_eq_true_eq]
  omega

/-! ## The keys of a stage -/

theorem beginStage_sync {st : Stage} (hlin : st.workload.type = .i ∨ st.workload.type = .d) (hsync : st.async = false) (w j : Nat) :
    beginStage T st w j = .linear j (st.tStart T w) (st.tEnd T w) := by
  unfold beginStage
  rw [if_neg (by simp [hsync])]
  rcases hlin with h | h
  · rw [h]
    dsimp only
    rw [if_neg (by simp [hsync])]
    rfl
  · rw [h]
    dsimp only
    rw [if_neg (by simp [hsync])]
    rfl

/-- The keys of a synchronous linear stage. -/
theorem stageKeys_sync {j : Nat} {st : Stage} (hst : c.stages[j]? = some st) (hlin : st.workload.type = .i ∨ st.workload.type = .d)
    (hsync : st.async = false) (w : Nat) : c.stageKeys T w j = st.syncKeys T w := by
  unfold RunConfig.stageKeys Stage.syncKeys
  rw [hst, Option.map_some, Option.getD_some, beginStage_sync hlin hsync, WorkerPc.keysAhead, RunConfig.batch_eq hst]

/-- The keys of an asynchronous linear stage: all of them are those of the first worker. -/
theorem stageKeys_async {j : Nat} {st : Stage} (hst : c.stages[j]? = some st) (hlin : st.workload.type = .i ∨ st.workload.type = .d)
    (hasync : st.async = true) (w : Nat) :
    c.stageKeys T w j = if w = 0 then
      List.range' st.keyStart (st.linearBatchSize * batches (st.keyEnd - st.keyStart) st.linearBatchSize) else [] := by
  by_cases hw : w = 0
  · have hbegin : beginStage T st w j = .linear j st.keyStart st.keyEnd := by
      unfold beginStage
      rw [if_neg (by simp [hw])]
      rcases hlin with h | h <;> simp only [h, hasync, if_true]
    rw [if_pos hw]
    simp only [RunConfig.stageKeys, hst, Option.map_some, Option.getD_some, hbegin, WorkerPc.keysAhead, RunConfig.batch_eq hst]
  · have hbegin : beginStage T st w j = .completeLast j := by
      unfold beginStage
      rw [if_pos ⟨hasync, hw⟩]
    rw [if_neg hw]
    simp only [RunConfig.stageKeys, hst, Option.map_some, Option.getD_some, hbegin, WorkerPc.keysAhead]

/-- Every key of a range lies in one of its batches. -/
theorem mem_batches {key start stop b : Nat} (hb : 1 ≤ b) (hlo : start ≤ key) (hhi : key < stop) :
    key ∈ List.range' start (b * batches (stop - start) b) := by
  have hlen := le_mul_batches (n := stop - start) hb
  rw [List.mem_range'_1]
  omega

/-- Every key of a linear stage is one of the keys of some worker. -/
theorem LinearBounds.exists_worker {st : Stage} (hb : LinearBounds st T) {key : Nat} (hlo : st.keyStart ≤ key) (hhi : key < st.keyEnd) :
    ∃ t < T, key ∈ st.syncKeys T t := by
  obtain ⟨t, ht, hcut⟩ := exists_subrange (n := st.keyEnd - st.keyStart) hb.workers.1 hlo (by omega)
  rw [← (hb.subrange ht).1, ← (hb.subrange ht).2] at hcut
  exact ⟨t, ht, mem_batches hb.batch hcut.1 hcut.2⟩

/-- What the workers have done in a linear stage. -/
structure LinearStageDone (s : WorkState T) (j : Nat) (st : Stage) : Prop where
  /-- Each worker has gone through its sub-range, batch by batch. -/
  sync : st.async = false → ∀ w, s.keysOf w j = st.syncKeys T w
  /-- The first worker has gone through the whole range, the others have done nothing. -/
  async : st.async = true → ∀ w : Fin T, s.keysOf w j = if (w : Nat) = 0 then
    List.range' st.keyStart (st.linearBatchSize * batches (st.keyEnd - st.keyStart) st.linearBatchSize) else []
  covered : ∀ key, st.keyStart ≤ key → key < st.keyEnd → ∃ w, key ∈ s.keysOf w j

/-- In every interleaving every call has been counted under one counter or is still under way; and what was counted in a stage under
a counter has been reported for that stage, was cleared at its end, or is still in the counter, each exactly once, where a counter
of 64 bits turns over after `2 ^ 64` answers. -/
theorem answers_reported_once (c : RunConfig) (T : Nat) (setup : LatencySetup) (hc : c.Fits T) (s : WorkState T)
    (h : WorkReachable c setup s) (j : Nat) :
    s.calls.countP (·.stage = j) = s.accounted.countP (·.1 = j) + s.underWay.countP (·.stage = j) ∧
      ∀ k, ∃ turns, s.accounted.count (j, k) = s.reported j k + s.unreported j k + 2 ^ 64 * turns :=
  ⟨(h.callsInv hc).answered j, (h.balanceInv hc).balance j⟩

/-- In the run above one answer was counted as a write, and reported as such. -/
theorem insertTwo_reported_once : ∃ s : WorkState 1, WorkReachable insertTwo noLatency s ∧ s.reported 0 .write = 1 ∧
    s.calls.countP (·.stage = 0) = s.accounted.countP (·.1 = 0) + s.underWay.countP (·.stage = 0) ∧
      ∀ k, ∃ turns, s.accounted.count (0, k) = s.reported 0 k + s.unreported 0 k + 2 ^ 64 * turns := by
  obtain ⟨s, hreach, -, hwrite, -⟩ := insertTwo_run
  exact ⟨s, hreach, hwrite, answers_reported_once insertTwo 1 noLatency insertTwo_fits s hreach 0⟩

/-- The calls of a linear stage by a worker: as many as its keys make batches. -/
theorem CallsInv.calls_mul (h : CallsInv c s) {j : Nat} (hlin : c.Linear j) (w : Fin T) :
    (s.keysOf w j).length = c.batch j * s.calls.countP (fun call => call.worker = w ∧ call.stage = j) := by
  have hall : ∀ l : List (Call T), (∀ call ∈ l, call ∈ s.calls) →
      ((l.filter fun call => call.worker = w ∧ call.stage = j).flatMap Call.keys).length =
        c.batch j * l.countP fun call => call.worker = w ∧ call.stage = j := by
    intro l hl
    induction l with
    | nil => rfl
    | cons call l ih =>
      have hrest := ih fun call' hmem => hl call' (List.mem_cons_of_mem call hmem)
      by_cases hcall : call.worker = w ∧ call.stage = j
      · have hlen := h.batches call (hl call List.mem_cons_self) (hcall.2 ▸ hlin)
        rw [hcall.2] at hlen
        simp only [List.filter_cons, decide_eq_true_eq, hcall, and_self, if_true, List.flatMap_cons, List.length_append, hlen,
          List.countP_cons, Nat.mul_add, Nat.mul_one]
        rw [hrest]
        omega
      · simp only [List.filter_cons, decide_eq_true_eq, hcall, if_false, List.countP_cons, Nat.add_zero]
        exact hrest
  exact hall s.calls fun call hmem => hmem

/-- The calls of a stage, worker by worker. -/
theorem countP_workers (l : List (Call T)) (j : Nat) :
    l.countP (·.stage = j) = ∑ w : Fin T, l.countP fun call => call.worker = w ∧ call.stage = j := by
  induction l with
  | nil => simp
  | cons call l ih =>
    simp only [List.countP_cons, decide_eq_true_eq, Finset.sum_add_distrib, ← ih]
    by_cases hcall : call.stage = j
    · simp [hcall]
    · simp [hcall]

/-- A range needs at most as many batches as it has keys. -/
theorem batches_le {n b : Nat} (hb : 1 ≤ b) : batches n b ≤ n := by
  unfold batches
  rcases Nat.eq_zero_or_pos n with rfl | hn
  · rw [Nat.div_eq_of_lt (by omega)]
  · apply Nat.div_le_of_le_mul
    have hprod : b + n ≤ b * n + 1 := by nlinarith [Nat.mul_le_mul hb hn]
    omega

/-- The number of calls that a synchronous linear stage makes. -/
def Stage.syncCalls (st : Stage) (T : Nat) : Nat := ∑ t ∈ Finset.range T, batches (st.tEnd T t - st.tStart T t) st.linearBatchSize

theorem LinearBounds.syncCalls_lt {st : Stage} (hb : LinearBounds st T) : st.syncCalls T < 2 ^ 64 := by
  have hle : st.syncCalls T ≤ ∑ t ∈ Finset.range T, (cut st.keyStart (st.keyEnd - st.keyStart) T (t + 1) -
      cut st.keyStart (st.keyEnd - st.keyStart) T t) := by
    apply Finset.sum_le_sum
    intro t ht
    rw [(hb.subrange (Finset.mem_range.mp ht)).1, (hb.subrange (Finset.mem_range.mp ht)).2]
    exact batches_le hb.batch
  rw [Finset.sum_range_tsub fun t u htu => cut_mono _ _ _ htu, cut_zero, cut_last hb.workers.1] at hle
  have := hb.keyEnd_lt
  omega

/-- A synchronous linear stage that is over has made its calls. -/
theorem calls_of_syncLinear (hc : c.Fits T) (h : WorkReachable c setup s) {j : Nat} {st : Stage} (hst : c.stages[j]? = some st)
    (hlin : st.workload.type = .i ∨ st.workload.type = .d) (hsync : st.async = false) (hj : j < s.base.coord.stageIdx) :
    s.calls.countP (·.stage = j) = st.syncCalls T := by
  have hb := hc st (List.mem_of_getElem? hst) hlin
  rw [countP_workers, Stage.syncCalls, ← Fin.sum_univ_eq_sum_range
    fun t => batches (st.tEnd T t - st.tStart T t) st.linearBatchSize]
  apply Finset.sum_congr rfl
  intro w _
  have hmul := (h.callsInv hc).calls_mul ((RunConfig.linear_iff hst).mpr hlin) w
  rw [(h.keysInv hc).keysOf_past hj, stageKeys_sync hst hlin hsync, Stage.syncKeys, List.length_range',
    RunConfig.batch_eq hst] at hmul
  exact (Nat.eq_of_mul_eq_mul_left hb.batch hmul).symm

/-- Where all counters are those of writes, the answers of a stage are the sum of three. -/
theorem countP_ofWrites {l : List (Nat × CounterId)} {j : Nat} (h : ∀ a ∈ l, a.1 = j → a.2.ofWrites = true) :
    l.countP (·.1 = j) = l.count (j, .write) + l.count (j, .writeTimeout) + l.count (j, .writeError) ∧
      ∀ k, k.ofWrites = false → l.count (j, k) = 0 := by
  induction l with
  | nil => simp
  | cons a l ih =>
    obtain ⟨i, k'⟩ := a
    obtain ⟨hsum, hzero⟩ := ih fun a ha => h a (List.mem_cons_of_mem _ ha)
    by_cases hi : i = j
    · subst hi
      have hk' := h (i, k') List.mem_cons_self rfl
      refine ⟨?_, ?_⟩
      · simp only [List.countP_cons, List.count_cons, decide_true, if_true, beq_iff_eq, Prod.mk.injEq, true_and, hsum]
        cases k' <;> simp [CounterId.ofWrites] at hk' ⊢ <;> omega
      · intro k hk
        have hne : k' ≠ k := by
          rintro rfl
          rw [hk] at hk'
          cases hk'
        simp [hzero k hk, hne]
    · refine ⟨?_, ?_⟩
      · simpa [List.countP_cons, List.count_cons, hi] using hsum
      · intro k hk
        simpa [List.count_cons, hi] using hzero k hk

/-- The reports of a linear stage of synchronous calls. -/
structure ReportsAddUp (s : WorkState T) (j : Nat) (st : Stage) : Prop where
  /-- The writes, timeouts and errors reported for the stage are together its calls. -/
  total : s.reported j .write + s.reported j .writeTimeout + s.reported j .writeError = st.syncCalls T
  /-- Each was reported under the counter it was counted under. -/
  each : ∀ k, s.reported j k = s.accounted.count (j, k)
  /-- Nothing was cleared at the end of the stage. -/
  nothingCleared : ∀ k, s.unreported j k = 0
  noReads : ∀ k, k.ofWrites = false → s.reported j k = 0

/-- In every interleaving, when the coordinator has gone on from a linear stage of synchronous calls, the reports of the output
worker for this stage add up to the calls of the stage, with every answer under its own counter. -/
theorem linear_stage_reports_add_up (c : RunConfig) (T : Nat) (setup : LatencySetup) (hc : c.Fits T) (s : WorkState T)
    (h : WorkReachable c setup s) (j : Nat) (st : Stage) (hst : c.stages[j]? = some st)
    (hlin : st.workload.type = .i ∨ st.workload.type = .d) (hsync : st.async = false) (hj : j < s.base.coord.stageIdx) :
    ReportsAddUp s j st := by
  have hb := hc st (List.mem_of_getElem? hst) hlin
  have hlinear : c.Linear j := (RunConfig.linear_iff hst).mpr hlin
  have hcalls := h.callsInv hc
  have hbal := h.balanceInv hc
  have hnone := hcalls.none_past h.base.protocolInv hj
  have htotal : s.accounted.countP (·.1 = j) = st.syncCalls T := by
    have hanswered := hcalls.answered j
    rw [calls_of_syncLinear hc h hst hlin hsync hj, hnone, Nat.add_zero] at hanswered
    exact hanswered.symm
  have hcleared : ∀ k, s.unreported j k = 0 := by
    intro k
    have hlt : j < s.cleared.length := by
      rw [hbal.cleared]
      exact hj
    have hzero := (h.flushInv hc).cleared j _ (List.getElem?_eq_getElem hlt)
      ⟨hlinear, by rw [RunConfig.async_iff hst, hsync]; exact Bool.false_ne_true⟩ k
    simp only [WorkState.unreported, List.getElem?_eq_getElem hlt, hzero]
    rfl
  obtain ⟨hsum, hreads⟩ := countP_ofWrites fun a ha hj' => hcalls.writes a ha (hj'.symm ▸ hlinear)
  -- fewer than `2 ^ 64` answers, so no counter has turned over
  have heach : ∀ k, s.reported j k = s.accounted.count (j, k) := by
    intro k
    obtain ⟨turns, hq⟩ := hbal.balance j k
    have hle : s.accounted.count (j, k) ≤ s.accounted.countP (·.1 = j) := by
      rw [List.count_eq_countP]
      apply List.countP_mono_left
      intro a _ ha
      simpa using congrArg Prod.fst (beq_iff_eq.mp ha)
    have hlt := hb.syncCalls_lt
    rw [hcleared k] at hq
    omega
  refine ⟨?_, heach, hcleared, ?_⟩
  · rw [heach, heach, heach, ← hsum, htotal]
  · intro k hk
    rw [heach, hreads k hk]

/-- The two inserts of the run above are reported as one write and one timeout. -/
theorem insertTwo_reports_add_up : ∃ s : WorkState 1, WorkReachable insertTwo noLatency s ∧ s.reported 0 .write = 1 ∧
    s.reported 0 .writeTimeout = 1 ∧
    ReportsAddUp s 0 (Stage.ofWorkload ⟨.i, .num 0, .num 0, .num 100, .num 100⟩ 1 3) := by
  obtain ⟨s, hreach, hidx, hwrite, htimeout⟩ := insertTwo_run
  refine ⟨s, hreach, hwrite, htimeout,
    linear_stage_reports_add_up insertTwo 1 noLatency insertTwo_fits s hreach 0 _ rfl (Or.inl rfl) rfl ?_⟩
  rw [hidx]
  exact Nat.one_pos

end AerospikeBenchmark
