import AerospikeBenchmark.Lemmas.StageWork
import AerospikeBenchmark.Theorems.StageProtocol

/-!
# What becomes of the calls

Every call is under way or has been counted, under one counter; what was counted has been taken by the output worker, or cleared by
the coordinator, or is still in its counter.
-/

namespace AerospikeBenchmark

variable {c : RunConfig} {T : Nat} {setup : LatencySetup} {m : Shared T} {s s' : WorkState T}

/-! ## Calls under way -/

/-- A call under way belongs to the stage its worker is at: a worker waits for the answer of a synchronous call where it made it,
and the first worker stays at an asynchronous stage until all calls have been answered. -/
structure UnderWayOk (c : RunConfig) (pc : WorkerPc) (u : UnderWay T) : Prop where
  stage : pc.stage? = some u.stage
  working : ¬pc.Past
  sync : u.kind.isSync = true → ¬c.Async u.stage ∧ ((∃ key endKey, pc = .linear u.stage key endKey) ∨ pc = .random u.stage)
  async : u.kind.isSync = false → c.Async u.stage ∧ (u.worker : Nat) = 0
  writes : c.Linear u.stage → u.kind.opClass = .write

theorem Stage.linearKind_isSync (st : Stage) : st.linearKind.isSync = !st.async := by
  unfold Stage.linearKind
  cases st.async
  · simp only [Bool.false_eq_true, if_false]
    split <;> rfl
  · rfl

theorem Stage.linearKind_opClass (st : Stage) : st.linearKind.opClass = .write := by
  unfold Stage.linearKind
  split
  · split <;> rfl
  · split <;> rfl

theorem Stage.randomKind_isSync (st : Stage) (r : RandomCall) : (st.randomKind r).isSync = !st.async := by
  unfold Stage.randomKind
  cases st.async <;> rfl

/-- What a call is: that of a batch of a linear loop, or that of a random loop. -/
theorem madeCall_cases {w : Fin T} {x : Worker} {r : RandomCall} {call : Nat × List Nat × CallKind}
    (h : madeCall c w m x r = some call) :
    ∃ j st, c.stages[j]? = some st ∧
      ((∃ key endKey, x.pc = .linear j key endKey ∧ (m.doWork w.castSucc = true ∧ key < endKey) ∧
          call = (j, (linearBody st.linearBatchSize key).1, st.linearKind)) ∨
        (x.pc = .random j ∧ m.doWork w.castSucc = true ∧ call = (j, [], st.randomKind r))) := by
  unfold madeCall at h
  split at h
  · rename_i j key endKey hpc
    split at h
    · rename_i hgo
      obtain ⟨st, hst, rfl⟩ := Option.map_eq_some_iff.mp h
      exact ⟨j, st, hst, Or.inl ⟨key, endKey, hpc, hgo, rfl⟩⟩
    · cases h
  · rename_i j hpc
    split at h
    · rename_i hgo
      obtain ⟨st, hst, rfl⟩ := Option.map_eq_some_iff.mp h
      exact ⟨j, st, hst, Or.inr ⟨hpc, hgo, rfl⟩⟩
    · cases h
  · cases h

/-- The end of the work of the first worker on an asynchronous stage. -/
theorem endStage_drain {j : Nat} (h : c.Async j) : endStage c 0 j = .drain j := by
  obtain ⟨st, hst, hasync⟩ := h
  simp [endStage, hst, hasync]

/-- A worker that is not busy leaves its calls under way at their stage. -/
theorem UnderWayOk.worker {x : Worker} {u : UnderWay T} (hfree : s.busy u.worker = false)
    (hmove : WorkerMove c u.worker s.base.shared (s.base.worker u.worker) x) (hmem : u ∈ s.underWay)
    (hu : UnderWayOk c (s.base.worker u.worker).pc u) : UnderWayOk c x.pc u := by
  -- the call is asynchronous, and the worker is not yet waiting for its answer
  simp only [WorkState.busy, Bool.or_eq_false_iff, List.any_eq_false] at hfree
  have hasync : u.kind.isSync = false := by
    have := hfree.1 u hmem
    simpa using this
  have hdrain : ∀ j, (s.base.worker u.worker).pc ≠ .drain j := by
    intro j hpc
    have hnone := hfree.2
    rw [hpc] at hnone
    have := List.any_eq_false.mp hnone u hmem
    simp [hasync] at this
  have hsame : x.pc.stage? = some u.stage → ¬x.pc.Past → UnderWayOk c x.pc u := by
    intro hstage hpast
    refine ⟨hstage, hpast, ?_, hu.async, hu.writes⟩
    rw [hasync]
    exact nofun
  have hstage := hu.stage
  cases hmove with
  | enter hpc hpc' hiter =>
    rw [hpc] at hstage
    cases hstage
  | begin st hpc hst hpc' hiter =>
    rw [hpc] at hstage
    cases hstage
  | fault hpc hpc' =>
    rw [hpc] at hstage
    cases hstage
  | batch j key endKey hpc hwork hkey hpc' hiter =>
    rw [hpc] at hstage
    exact hsame (by rw [hpc']; exact hstage) (by rw [hpc']; exact id)
  | leave j key endKey hpc hend hpc' hiter =>
    rw [hpc] at hstage
    exact hsame (by rw [hpc']; exact hstage) (by rw [hpc']; exact id)
  | ready j hpc hpc' hiter =>
    rw [hpc] at hstage
    exact hsame (by rw [hpc']; exact hstage) (by rw [hpc']; exact id)
  | spin j hpc hwork hsame' =>
    rw [hsame']
    exact hu
  | finish j hpc hpc' hiter =>
    have hj : j = u.stage := by
      rcases hpc with hpc | ⟨hpc, -⟩ <;> rw [hpc] at hstage <;> exact Option.some.inj hstage
    subst hj
    obtain ⟨hasyncStage, hzero⟩ := hu.async hasync
    rw [hzero, endStage_drain hasyncStage] at hpc'
    exact hsame (by rw [hpc']; rfl) (by rw [hpc']; exact id)
  | drained j hpc hpc' hiter => exact absurd hpc (hdrain j)
  | past hpc hpc' hiter => exact absurd hpc hu.working
  | again hpc hpc' hiter => exact absurd hpc hu.working

/-- A call is under way at the place where it was made. -/
theorem UnderWayOk.made {w : Fin T} {x : Worker} {r : RandomCall} {call : Nat × List Nat × CallKind} (h : KeysInv c s)
    (hstep : workerStep c w s.base.shared (s.base.worker w) = some (m, x))
    (hcall : madeCall c w s.base.shared (s.base.worker w) r = some call) :
    UnderWayOk c x.pc (⟨w, call.1, call.2.2⟩ : UnderWay T) := by
  have hplaced := h.placed w
  -- both loops go on at the same stage, and the kind of the call is that of the stage
  have hkind : ∀ {j : Nat} {st : Stage} {kind : CallKind}, c.stages[j]? = some st → kind.isSync = !st.async →
      (kind.isSync = true → ¬c.Async j) ∧ (kind.isSync = false → c.Async j) := by
    intro j st kind hst hsync
    rw [RunConfig.async_iff hst, hsync]
    cases st.async <;> simp
  obtain ⟨j, st, hst, ⟨key, endKey, hpc, hgo, rfl⟩ | ⟨hpc, hgo, rfl⟩⟩ := madeCall_cases hcall
  · simp only [workerStep, hpc] at hstep
    rw [if_pos hgo] at hstep
    obtain ⟨-, rfl⟩ := Prod.mk.injEq _ _ _ _ ▸ Option.some.inj hstep
    rw [hpc] at hplaced
    obtain ⟨hs, ha⟩ := hkind hst st.linearKind_isSync
    exact ⟨rfl, id, fun h => ⟨hs h, Or.inl ⟨_, endKey, rfl⟩⟩, fun h => ⟨ha h, hplaced.2 (ha h)⟩, fun _ => st.linearKind_opClass⟩
  · simp only [workerStep, hpc, hgo, if_true, Option.some.injEq, Prod.mk.injEq] at hstep
    obtain ⟨-, rfl⟩ := hstep
    rw [hpc] at hplaced
    obtain ⟨hs, ha⟩ := hkind hst (st.randomKind_isSync r)
    exact ⟨rfl, id, fun h => ⟨hs h, Or.inr rfl⟩, fun h => ⟨ha h, hplaced.2 (ha h)⟩, fun hlinear => absurd hlinear hplaced.1⟩

/-- What holds of the calls: those under way are where they were made, the others have been counted, and in a linear stage each is a
batch and counted as a write. -/
structure CallsInv (c : RunConfig) (s : WorkState T) : Prop where
  underWay : ∀ u ∈ s.underWay, UnderWayOk c (s.base.worker u.worker).pc u
  batches : ∀ call ∈ s.calls, c.Linear call.stage → call.keys.length = c.batch call.stage
  answered : ∀ j, s.calls.countP (·.stage = j) = s.accounted.countP (·.1 = j) + s.underWay.countP (·.stage = j)
  writes : ∀ a ∈ s.accounted, c.Linear a.1 → a.2.ofWrites = true

/-- The number of calls under way when one is answered. -/
theorem countP_eraseIdx {α : Type} {l : List α} {i : Nat} {a : α} (h : l[i]? = some a) (p : α → Bool) :
    l.countP p = (l.eraseIdx i).countP p + if p a then 1 else 0 := by
  obtain ⟨hi, rfl⟩ := List.getElem?_eq_some_iff.mp h
  have hperm := (List.getElem_cons_eraseIdx_perm hi).countP_eq p
  rw [← hperm, List.countP_cons]

theorem CallsInv.worker (h : CallsInv c s) {w : Fin T} {x : Worker} (hfree : s.busy w = false)
    (hstep : workerStep c w s.base.shared (s.base.worker w) = some (m, x)) {u : UnderWay T} (hu : u ∈ s.underWay) :
    UnderWayOk c (Function.update s.base.worker w x u.worker).pc u := by
  by_cases hw : u.worker = w
  · subst hw
    rw [Function.update_self]
    exact (h.underWay u hu).worker hfree (workerStep_move hstep) hu
  · rw [Function.update_of_ne hw]
    exact h.underWay u hu

theorem callsInv_step (hk : KeysInv c s) (h : CallsInv c s) (hs : WorkStep c s s') : CallsInv c s' := by
  cases hs with
  | worker w r m x hfree hstep hno => exact ⟨fun u hu => h.worker hfree hstep hu, h.batches, h.answered, h.writes⟩
  | call w r m x call hfree hstep hcall =>
    refine ⟨?_, ?_, ?_, h.writes⟩
    · intro u hu
      rcases List.mem_append.mp hu with hu | hu
      · exact h.worker hfree hstep hu
      · obtain rfl := List.mem_singleton.mp hu
        simp only [WorkState.makeCall, WorkState.setWorker, Function.update_self]
        exact .made hk hstep hcall
    · intro call' hmem hlinear
      rcases List.mem_append.mp hmem with hmem | hmem
      · exact h.batches call' hmem hlinear
      · obtain rfl := List.mem_singleton.mp hmem
        obtain ⟨j, st, hst, ⟨key, endKey, hpc, hgo, rfl⟩ | ⟨hpc, hgo, rfl⟩⟩ := madeCall_cases hcall
        · have hfits := hk.fits w
          rw [hpc] at hfits
          have hbody := linearBody_eq hfits.1 (by have := hfits.2; omega : key + c.batch j < 2 ^ 64)
          rw [← RunConfig.batch_eq hst, hbody]
          exact List.length_range'
        · have hplaced := hk.placed w
          rw [hpc] at hplaced
          exact absurd hlinear hplaced.1
    · intro j
      simp only [WorkState.makeCall, WorkState.setWorker, List.countP_append, List.countP_singleton]
      have := h.answered j
      omega
  | answer i u status dtUs hu =>
    have hmem : u ∈ s.underWay := List.mem_of_getElem? hu
    refine ⟨?_, h.batches, ?_, ?_⟩
    · intro v hv
      exact h.underWay v (List.mem_of_mem_eraseIdx hv)
    · intro j
      simp only [WorkState.answer, List.countP_append, List.countP_singleton]
      have hcount := h.answered j
      rw [countP_eraseIdx hu] at hcount
      omega
    · intro a ha hlinear
      rcases List.mem_append.mp ha with ha | ha
      · exact h.writes a ha hlinear
      · obtain rfl := List.mem_singleton.mp ha
        exact CallKind.counter_ofWrites ((h.underWay u hmem).writes hlinear) status
  | take k ks htaking => exact ⟨h.underWay, h.batches, h.answered, h.writes⟩
  | output timeUp m x hfree hstep => exact ⟨h.underWay, h.batches, h.answered, h.writes⟩
  | coord m x hstep hpc => exact ⟨h.underWay, h.batches, h.answered, h.writes⟩
  | clear m x hstep hpc => exact ⟨h.underWay, h.batches, h.answered, h.writes⟩

theorem WorkReachable.callsInv (hc : c.Fits T) (h : WorkReachable c setup s) : CallsInv c s := by
  induction h with
  | refl => exact ⟨nofun, nofun, fun _ => rfl, nofun⟩
  | tail hreach hstep ih => exact callsInv_step (WorkReachable.keysInv hc hreach) ih hstep

/-! ## The balance of the counters -/

/-- What the output worker has taken from a counter for stage `j`. -/
def WorkState.reported (s : WorkState T) (j : Nat) (k : CounterId) : Nat :=
  ((s.taken.filter fun t => t.stage = j ∧ t.counter = k).map fun t => t.value.toNat).sum

/-- What was counted in stage `j` and not taken: it was cleared at the end of the stage, or is still in the counter. -/
def WorkState.unreported (s : WorkState T) (j : Nat) (k : CounterId) : Nat :=
  match s.cleared[j]? with
  | some n => (n.get k).toNat
  | none => if j = s.cleared.length then (s.cdata.counters.get k).toNat else 0

/-- What was counted has been taken, cleared or is still there, whole turns of the counters apart. -/
structure BalanceInv (s : WorkState T) : Prop where
  cleared : s.cleared.length = s.base.coord.stageIdx
  taking : s.taking ≠ [] → s.base.output.pc = .arrive1 ∨ s.base.output.pc = .sleep
  balance : ∀ j k, ∃ turns, s.accounted.count (j, k) = s.reported j k + s.unreported j k + 2 ^ 64 * turns

/-- A call under way belongs to the coordinator's stage. -/
theorem CallsInv.stage (h : CallsInv c s) (hb : ProtocolInv c s.base) {u : UnderWay T} (hu : u ∈ s.underWay) :
    u.stage = s.base.coord.stageIdx :=
  hb.working (h.underWay u hu).stage

/-- The output worker takes the counters for the coordinator's stage. -/
theorem ProtocolInv.output_stage {b : ProtocolState T} (h : ProtocolInv c b) (hpc : b.output.pc = .arrive1 ∨ b.output.pc = .sleep) :
    b.shared.stageIdx (Fin.last T) = b.coord.stageIdx := by
  have hplace : b.output.pc.wait = none ∧ b.output.pc.half = 0 ∧ b.output.iter < c.stages.length := by
    rcases hpc with hpc | hpc <;> rw [hpc] <;>
      exact ⟨rfl, rfl, h.output.inLoop (by simp [hpc]) (by simp [hpc])⟩
  have hround := h.agree.synced.free .output hplace.1
  simp only [ProtocolState.view, Output.view, hplace.2.1, Nat.add_zero] at hround
  rcases h.even_round hround.symm with ⟨-, -, hidx, -, hflags⟩ | ⟨hend, -⟩
  · rw [(hflags (Fin.last T)).1, hidx]
  · have := hplace.2.2
    omega

theorem reported_take (s : WorkState T) (l k : CounterId) (ls : List CounterId) (j : Nat) :
    (s.take l ls).reported j k =
      s.reported j k + if s.base.shared.stageIdx (Fin.last T) = j ∧ l = k then (s.cdata.counters.get l).toNat else 0 := by
  simp only [WorkState.reported, WorkState.take, List.filter_append, List.map_append, List.sum_append, List.filter_cons,
    List.filter_nil, decide_eq_true_eq]
  split <;> rfl

/-- Where nothing is written for the stage, nothing changes. -/
theorem unreported_congr {j : Nat} {k : CounterId} (hcleared : s'.cleared = s.cleared)
    (h : j = s.cleared.length → s'.cdata.counters.get k = s.cdata.counters.get k) : s'.unreported j k = s.unreported j k := by
  unfold WorkState.unreported
  rw [hcleared]
  cases s.cleared[j]? with
  | some n => rfl
  | none =>
    by_cases hj : j = s.cleared.length
    · simp only [h hj]
    · simp only [if_neg hj]

/-- The stage that has not been cleared yet. -/
theorem unreported_length (s : WorkState T) (k : CounterId) :
    s.unreported s.cleared.length k = (s.cdata.counters.get k).toNat := by
  simp [WorkState.unreported]

/-- An answer is counted in the stage that has not been cleared, where the counter may turn over. -/
theorem unreported_answer {i : Nat} {u : UnderWay T} (hu : u.stage = s.cleared.length) (status : AsStatus) (dtUs j : Nat)
    (k : CounterId) :
    ∃ turns, s.unreported j k + (if (u.stage, u.kind.counter status) = (j, k) then 1 else 0) =
      (s.answer i u status dtUs).unreported j k + 2 ^ 64 * turns := by
  have hget := u.kind.account_get status dtUs s.cdata k
  by_cases hjk : (u.stage, u.kind.counter status) = (j, k)
  · obtain ⟨rfl, rfl⟩ := Prod.mk.inj hjk
    rw [if_pos rfl] at hget
    have hnew : (s.answer i u status dtUs).unreported s.cleared.length (u.kind.counter status) =
        ((s.cdata.counters.get (u.kind.counter status)).toNat + 1) % 2 ^ 64 := by
      have hlen : s.cleared.length = (s.answer i u status dtUs).cleared.length := rfl
      rw [hlen, unreported_length]
      simp only [WorkState.answer, hget, UInt64.toNat_add]
      rfl
    rw [if_pos rfl, hu, unreported_length, hnew]
    exact ⟨_, (Nat.mod_add_div _ _).symm⟩
  · refine ⟨0, ?_⟩
    rw [if_neg hjk]
    have hsame : (s.answer i u status dtUs).unreported j k = s.unreported j k := by
      refine unreported_congr ?_ fun hj => ?_
      · rfl
      simp only [WorkState.answer, hget]
      rw [if_neg fun hk => hjk (by rw [hu, hk, hj])]
    rw [hsame]
    omega

/-- What is taken from a counter is not in it any more. -/
theorem reported_add_unreported_take (l : CounterId) (ls : List CounterId)
    (hstage : s.base.shared.stageIdx (Fin.last T) = s.cleared.length) (j : Nat) (k : CounterId) :
    (s.take l ls).reported j k + (s.take l ls).unreported j k = s.reported j k + s.unreported j k := by
  rw [reported_take, hstage]
  by_cases hjk : s.cleared.length = j ∧ l = k
  · obtain ⟨rfl, rfl⟩ := hjk
    have hlen : s.cleared.length = (s.take l ls).cleared.length := rfl
    rw [if_pos ⟨rfl, rfl⟩, unreported_length]
    rw [hlen, unreported_length]
    simp only [WorkState.take, WorkState.setCounters, Counters.get_set, if_true, UInt64.toNat_zero]
    rfl
  · have hsame : (s.take l ls).unreported j k = s.unreported j k := by
      refine unreported_congr ?_ fun hj => ?_
      · rfl
      simp only [WorkState.take, WorkState.setCounters, Counters.get_set]
      rw [if_neg fun hk => hjk ⟨hj.symm, hk.symm⟩]
    rw [if_neg hjk, hsame, Nat.add_zero]

/-- What is cleared is remembered as such. -/
theorem unreported_clear (s : WorkState T) (j : Nat) (k : CounterId) : s.clear.unreported j k = s.unreported j k := by
  simp only [WorkState.unreported, WorkState.clear, WorkState.setCounters]
  rcases Nat.lt_trichotomy j s.cleared.length with hj | rfl | hj
  · rw [List.getElem?_append_left hj, List.getElem?_eq_getElem hj]
  · simp
  · have hnone : (s.cleared ++ [s.cdata.counters])[j]? = none := List.getElem?_eq_none (by simpa using hj)
    have hnone' : s.cleared[j]? = none := List.getElem?_eq_none hj.le
    rw [hnone, hnone']
    simp only [List.length_append, List.length_singleton]
    rw [if_neg (Nat.ne_of_gt hj)]
    split
    · simp
    · rfl

/-- The output worker has counters to take when it has entered the body of its loop. -/
theorem taking_setOutput {timeUp : Bool} {x : Output} (h : outputStep timeUp s.base.shared s.base.output = some (m, x))
    (htaking : (s.setOutput m x).taking ≠ []) :
    (s.setOutput m x).taking = CounterId.order ∧ (x.pc = .arrive1 ∨ x.pc = .sleep) := by
  unfold WorkState.setOutput at htaking ⊢
  cases hpc : s.base.output.pc with
  | top interrupted =>
    simp only [outputStep, hpc, Option.some.injEq, Prod.mk.injEq] at h
    obtain ⟨rfl, rfl⟩ := h
    simp only [hpc] at htaking ⊢
    by_cases hfin : s.base.shared.finished (Fin.last T) = true
    · simp [hfin] at htaking
    · refine ⟨by simp [hfin], ?_⟩
      cases interrupted <;> simp [hfin]
  | _ => simp [hpc] at htaking

theorem balanceInv_step (hb : ProtocolInv c s.base) (hcalls : CallsInv c s) (h : BalanceInv s) (hs : WorkStep c s s') :
    BalanceInv s' := by
  cases hs with
  | worker w r m x hfree hstep hno => exact ⟨h.cleared, h.taking, h.balance⟩
  | call w r m x call hfree hstep hcall => exact ⟨h.cleared, h.taking, h.balance⟩
  | answer i u status dtUs hu =>
    refine ⟨h.cleared, h.taking, ?_⟩
    intro j k
    have hstage : u.stage = s.cleared.length := (hcalls.stage hb (List.mem_of_getElem? hu)).trans h.cleared.symm
    obtain ⟨turns, hq⟩ := h.balance j k
    obtain ⟨more, hmore⟩ := unreported_answer (i := i) hstage status dtUs j k
    have hcount : (s.answer i u status dtUs).accounted.count (j, k) =
        s.accounted.count (j, k) + if (u.stage, u.kind.counter status) = (j, k) then 1 else 0 := by
      simp only [WorkState.answer, List.count_append, List.count_singleton, beq_iff_eq]
    have hreported : (s.answer i u status dtUs).reported j k = s.reported j k := rfl
    exact ⟨turns + more, by rw [hcount, hreported]; omega⟩
  | take k ks htaking =>
    have hpc := h.taking (by simp [htaking])
    refine ⟨h.cleared, fun _ => hpc, ?_⟩
    intro j l
    obtain ⟨turns, hq⟩ := h.balance j l
    have hstage := (hb.output_stage hpc).trans h.cleared.symm
    have hmoved := reported_add_unreported_take k ks hstage j l
    exact ⟨turns, by rw [hmoved]; exact hq⟩
  | output timeUp m x hfree hstep =>
    exact ⟨h.cleared, fun htaking => (taking_setOutput hstep htaking).2, h.balance⟩
  | coord m x hstep hpc =>
    refine ⟨?_, h.taking, h.balance⟩
    have hsame : x.stageIdx = s.base.coord.stageIdx := by
      by_contra hne
      exact hpc (advance_of_stageIdx_ne hstep hne)
    exact h.cleared.trans hsame.symm
  | clear m x hstep hpc =>
    refine ⟨?_, h.taking, ?_⟩
    · simp only [coordStep, hpc, Option.some.injEq, Prod.mk.injEq] at hstep
      obtain ⟨-, rfl⟩ := hstep
      simp [WorkState.clear, WorkState.setCoord, WorkState.setCounters, h.cleared]
    · intro j k
      obtain ⟨turns, hq⟩ := h.balance j k
      exact ⟨turns, by rw [unreported_clear]; exact hq⟩

theorem WorkReachable.balanceInv (hc : c.Fits T) (h : WorkReachable c setup s) : BalanceInv s := by
  induction h with
  | refl =>
    refine ⟨rfl, fun h => absurd rfl h, ?_⟩
    intro j k
    exact ⟨0, by simp [WorkState.init, WorkState.reported, WorkState.unreported]⟩
  | tail hreach hstep ih =>
    exact balanceInv_step (WorkReachable.base hreach).protocolInv (WorkReachable.callsInv hc hreach) ih hstep

/-! ## The last report of a stage -/

theorem Move.round_le {n : Nat} {b b' : Barrier} {u u' : Int} {v v' : View} (hm : Move n b u v b' u' v') : b.round ≤ b'.round := by
  cases hm with
  | quiet => exact le_rfl
  | complete _ _ _ => exact le_rfl
  | arrive _ => exact b.round_le_arrive
  | leave _ _ _ => exact le_rfl

/-- What a step does to the barrier and the counter, seen from a process that does not take it. -/
theorem ProtocolInv.step_shared {b b' : ProtocolState T} (h : ProtocolInv c b) (hs : ProtocolStep c b b') :
    b.shared.barrier.round ≤ b'.shared.barrier.round ∧
      (b.shared.unfinishedThreads = 0 → b'.shared.unfinishedThreads = 0 ∨ b.shared.barrier.round % 2 = 1) := by
  cases hs with
  | worker w m x hstep =>
    obtain ⟨hmove, -, -⟩ := workerStep_spec (h.workers w) (h.worker_flags w) hstep
    exact ⟨hmove.round_le, fun hu => Or.inl (h.stays_zero (p := .worker w) hmove hu)⟩
  | output timeUp m x hstep =>
    obtain ⟨hmove, -, -⟩ := outputStep_spec h.output h.output_flags hstep
    exact ⟨hmove.round_le, fun hu => Or.inl (h.stays_zero (p := .output) hmove hu)⟩
  | coord m x hstep =>
    obtain ⟨-, hmove, -⟩ := coordStep_spec h.coord hstep
    rcases hmove with ⟨hmove, -⟩ | ⟨hpc, hb, -⟩
    · exact ⟨hmove.round_le, fun hu => Or.inl (h.stays_zero (p := .coord) hmove hu)⟩
    · refine ⟨by rw [hb], fun _ => Or.inr ?_⟩
      rw [h.round_of_second_half (by rw [hpc]; rfl) (by rw [hpc]; rfl)]
      omega

/-- The output worker has been woken by the end of the stage and is on its way to the barrier, in round `round`. -/
def OutputPc.Ends (round : Nat) : OutputPc → Prop
  | .top interrupted => interrupted = true
  | .arrive1 => True
  | .wait1 r => r = round
  | _ => False

/-- A round the output worker waits for has not ended when it has not ended a step later. -/
theorem ProtocolInv.held_round {b : ProtocolState T} (h : ProtocolInv c b) {r round : Nat} (hpc : b.output.pc.wait = some r)
    (hle : b.shared.barrier.round ≤ round) (hr : r = round) : r = b.shared.barrier.round := by
  have := (h.agree.synced.held .output r hpc).2
  omega

/-- While the output worker is on its way to the barrier, all parties have completed the stage. -/
theorem Reachable.ends {b : ProtocolState T} (h : Reachable c b) (hpc : b.output.pc.Ends b.shared.barrier.round) :
    b.shared.unfinishedThreads = 0 := by
  induction h with
  | refl => cases hpc
  | @tail b b' hreach hstep ih =>
    have hinv := Reachable.protocolInv hreach
    obtain ⟨hround, hzero⟩ := hinv.step_shared hstep
    -- a step of another process
    have hother : b'.output = b.output → b'.shared.unfinishedThreads = 0 := by
      intro hout
      rw [hout] at hpc
      have hbefore : b.output.pc.Ends b.shared.barrier.round := by
        cases hp : b.output.pc with
        | wait1 r =>
          rw [hp] at hpc
          exact hinv.held_round (by rw [hp]; rfl) hround hpc
        | _ =>
          rw [hp] at hpc
          exact hpc
      rcases hzero (ih hbefore) with hu | hodd
      · exact hu
      · -- in an odd round the output worker is behind the first barrier
        have hk : b.shared.barrier.round = 2 * (b.shared.barrier.round / 2) + 1 := by omega
        have hat := (hinv.odd_round_output hk).1
        cases hp : b.output.pc with
        | wait1 r =>
          rw [hp] at hbefore
          have hheld := (hinv.agree.synced.held .output r (by simp [ProtocolState.view, Output.view, hp, OutputPc.wait])).1
          simp only [ProtocolState.view, Output.view, hp, OutputPc.half] at hheld
          simp only [OutputPc.Ends] at hbefore
          omega
        | arrive2 =>
          rw [hp] at hbefore
          exact absurd hbefore id
        | wait2 r =>
          rw [hp] at hbefore
          exact absurd hbefore id
        | _ =>
          rw [hp] at hat
          cases hat
    cases hstep with
    | worker w m x hstep => exact hother rfl
    | coord m x hstep => exact hother rfl
    | output timeUp m x hstep =>
      cases hp : b.output.pc with
      | sleep =>
        simp only [outputStep, hp] at hstep
        split at hstep
        · rename_i hu
          obtain ⟨rfl, -⟩ := Prod.mk.injEq _ _ _ _ ▸ Option.some.inj hstep
          exact hu
        · split at hstep
          · obtain ⟨rfl, rfl⟩ := Prod.mk.injEq _ _ _ _ ▸ Option.some.inj hstep
            cases hpc
          · cases hstep
      | top interrupted =>
        simp only [outputStep, hp, Option.some.injEq, Prod.mk.injEq] at hstep
        obtain ⟨rfl, rfl⟩ := hstep
        cases interrupted with
        | true => exact ih (by rw [hp]; rfl)
        | false =>
          simp only [Bool.false_eq_true, if_false] at hpc
          split at hpc <;> exact absurd hpc id
      | arrive1 =>
        simp only [outputStep, hp, Option.some.injEq, Prod.mk.injEq] at hstep
        obtain ⟨rfl, rfl⟩ := hstep
        exact ih (by rw [hp]; trivial)
      | complete =>
        simp only [outputStep, hp, Option.some.injEq, Prod.mk.injEq] at hstep
        obtain ⟨rfl, rfl⟩ := hstep
        exact absurd hpc id
      | wait1 r =>
        simp only [outputStep, hp, Option.ite_none_left_eq_some, Option.some.injEq, Prod.mk.injEq] at hstep
        obtain ⟨-, rfl, rfl⟩ := hstep
        exact absurd hpc id
      | arrive2 =>
        simp only [outputStep, hp, Option.some.injEq, Prod.mk.injEq] at hstep
        obtain ⟨rfl, rfl⟩ := hstep
        exact absurd hpc id
      | wait2 r =>
        simp only [outputStep, hp, Option.ite_none_left_eq_some, Option.some.injEq, Prod.mk.injEq] at hstep
        obtain ⟨-, rfl, rfl⟩ := hstep
        exact absurd hpc id
      | check =>
        simp only [outputStep, hp, Option.some.injEq, Prod.mk.injEq] at hstep
        obtain ⟨rfl, rfl⟩ := hstep
        simp only at hpc
        split at hpc <;> exact absurd hpc id
      | exit => simp [outputStep, hp] at hstep

/-- The output worker is between its last report of a stage and the end of the second barrier, in round `round`. -/
def OutputPc.Flushes (round : Nat) : OutputPc → Prop
  | .arrive1 | .wait1 _ | .arrive2 => True
  | .wait2 r => r = round
  | _ => False

/-- The output worker comes there from the body of its loop, at the end of a stage. -/
theorem outputStep_flushes {timeUp : Bool} {m m' : Shared T} {x x' : Output} (h : outputStep timeUp m x = some (m', x')) {round : Nat}
    (hf : x'.pc.Flushes round) :
    (x.pc = .top true ∧ m.finished (Fin.last T) = false ∧ m' = m) ∨ (x.pc.Flushes m.barrier.round ∧ x'.iter = x.iter) := by
  cases hpc : x.pc with
  | top interrupted =>
    simp only [outputStep, hpc, Option.some.injEq, Prod.mk.injEq] at h
    obtain ⟨rfl, rfl⟩ := h
    by_cases hfin : m.finished (Fin.last T) = true
    · simp only [hfin, if_true] at hf
      exact absurd hf id
    · cases interrupted with
      | true => exact Or.inl ⟨rfl, by simpa using hfin, rfl⟩
      | false =>
        simp only [hfin, Bool.false_eq_true, if_false] at hf
        exact absurd hf id
  | arrive1 =>
    simp only [outputStep, hpc, Option.some.injEq, Prod.mk.injEq] at h
    obtain ⟨-, rfl⟩ := h
    exact Or.inr ⟨trivial, rfl⟩
  | wait1 r =>
    simp only [outputStep, hpc, Option.ite_none_left_eq_some, Option.some.injEq, Prod.mk.injEq] at h
    obtain ⟨-, -, rfl⟩ := h
    exact Or.inr ⟨trivial, rfl⟩
  | arrive2 =>
    simp only [outputStep, hpc, Option.some.injEq, Prod.mk.injEq] at h
    obtain ⟨-, rfl⟩ := h
    exact Or.inr ⟨trivial, rfl⟩
  | sleep =>
    simp only [outputStep, hpc] at h
    split at h
    · obtain ⟨-, rfl⟩ := Prod.mk.injEq _ _ _ _ ▸ Option.some.inj h
      exact absurd hf id
    · split at h
      · obtain ⟨-, rfl⟩ := Prod.mk.injEq _ _ _ _ ▸ Option.some.inj h
        exact absurd hf id
      · cases h
  | complete =>
    simp only [outputStep, hpc, Option.some.injEq, Prod.mk.injEq] at h
    obtain ⟨-, rfl⟩ := h
    exact absurd hf id
  | wait2 r =>
    simp only [outputStep, hpc, Option.ite_none_left_eq_some, Option.some.injEq, Prod.mk.injEq] at h
    obtain ⟨-, -, rfl⟩ := h
    exact absurd hf id
  | check =>
    simp only [outputStep, hpc, Option.some.injEq, Prod.mk.injEq] at h
    obtain ⟨-, rfl⟩ := h
    simp only at hf
    split at hf <;> exact absurd hf id
  | exit => simp [outputStep, hpc] at h

/-- A linear stage whose calls are synchronous. -/
def RunConfig.SyncLinear (c : RunConfig) (j : Nat) : Prop := c.Linear j ∧ ¬c.Async j

/-- After the last report of a synchronous linear stage nothing is left in the counters, so that nothing is cleared. -/
structure FlushInv (c : RunConfig) (s : WorkState T) : Prop where
  flushed : s.base.output.pc.Flushes s.base.shared.barrier.round → c.SyncLinear s.base.output.iter →
    ∀ k ∉ s.taking, s.cdata.counters.get k = 0
  cleared : ∀ j n, s.cleared[j]? = some n → c.SyncLinear j → ∀ k, n.get k = 0

/-- While a call of the stage is under way, the output worker is not there: a worker declares itself complete only when its
calls have been answered. -/
theorem no_call_under_way (hk : KeysInv c s) (hcalls : CallsInv c s) (hreach : Reachable c s.base)
    (hf : s.base.output.pc.Flushes s.base.shared.barrier.round) (hj : c.SyncLinear s.base.output.iter) : s.underWay = [] := by
  rw [List.eq_nil_iff_forall_not_mem]
  intro u hu
  have hb := hk.base
  have hok := hcalls.underWay u hu
  obtain ⟨hwait, hhalf, htop, hexit⟩ := WorkerPc.free_of_stage hok.stage
  have hround := hb.round_of_worker hwait hhalf
  have hiter := (hb.workers u.worker).stage _ hok.stage
  have hlt := (hb.workers u.worker).inLoop htop hexit
  have hheld := hb.agree.synced.held .output
  have hfree := hb.agree.synced.free .output
  simp only [ProtocolState.view, Output.view] at hheld hfree
  -- the round is even, so the output worker has not passed the first barrier, and its stage is that of the call
  have hends : s.base.output.pc.Ends s.base.shared.barrier.round ∧ s.base.output.iter = (s.base.worker u.worker).iter := by
    cases hpc : s.base.output.pc with
    | arrive1 =>
      simp only [hpc, OutputPc.wait, OutputPc.half, forall_const] at hfree
      exact ⟨trivial, by omega⟩
    | wait1 r =>
      have hr := hheld r (by rw [hpc]; rfl)
      simp only [hpc, OutputPc.half] at hr
      simp only [OutputPc.Ends]
      omega
    | arrive2 =>
      simp only [hpc, OutputPc.wait, OutputPc.half, forall_const] at hfree
      omega
    | wait2 r =>
      have hr := hheld r (by rw [hpc]; rfl)
      simp only [hpc, OutputPc.half] at hr
      rw [hpc] at hf
      simp only [OutputPc.Flushes] at hf
      omega
    | _ =>
      rw [hpc] at hf
      exact absurd hf id
  have hzero := hreach.ends hends.1
  rw [hends.2, ← hiter] at hj
  -- the call is synchronous, so its worker is in the loop and has not completed the stage
  have hsync : u.kind.isSync = true := by
    by_contra hasync
    exact hj.2 (hok.async (by simpa using hasync)).1
  have hdone : (s.base.worker u.worker).pc.done = 0 := by
    rcases (hok.sync hsync).2 with ⟨key, endKey, hpc⟩ | hpc
    · rw [hpc]
      rfl
    · have hplaced := hk.placed u.worker
      rw [hpc] at hplaced
      exact absurd hj.1 hplaced.1
  have hcomp := (hb.workers u.worker).completions
  have hopen : s.base.coord.opened = (s.base.worker u.worker).iter := by
    rcases hb.even_round hround with ⟨-, hopen, -⟩ | ⟨hend, -⟩
    · exact hopen
    · omega
  refine hb.unfinished (p := .worker u.worker) ?_ hzero
  simp only [ProtocolState.view, Worker.view]
  omega

/-- Seen from the steps of the others, the output worker was there before. -/
theorem ProtocolInv.flushes_before {b : ProtocolState T} (h : ProtocolInv c b) {round : Nat} (hle : b.shared.barrier.round ≤ round)
    (hf : b.output.pc.Flushes round) : b.output.pc.Flushes b.shared.barrier.round := by
  cases hpc : b.output.pc with
  | wait2 r =>
    rw [hpc] at hf
    exact h.held_round (by rw [hpc]; rfl) hle hf
  | _ =>
    rw [hpc] at hf
    exact hf

/-- When the coordinator clears the counters, the output worker has reported the stage. -/
theorem ProtocolInv.flushes_of_advance {b : ProtocolState T} (h : ProtocolInv c b) (hpc : b.coord.pc = .advance) :
    b.output.pc.Flushes b.shared.barrier.round ∧ b.output.pc.atBarrier = true ∧ b.output.iter = b.coord.stageIdx := by
  have hround := h.round_of_second_half (by rw [hpc]; rfl) (by rw [hpc]; rfl)
  obtain ⟨hat, hcomp⟩ := h.odd_round_output hround
  have hidx := h.coord.stageIdx
  have hok := h.output.completions
  have hheld := h.agree.synced.held .output
  simp only [ProtocolState.view, Output.view] at hheld
  simp only [hpc, CoordPc.late, Nat.add_zero] at hidx
  refine ⟨?_, hat, ?_⟩
  · cases hp : b.output.pc with
    | wait2 r =>
      have hr := hheld r (by rw [hp]; rfl)
      simp only [hp, OutputPc.half, OutputPc.done] at hr hok
      simp only [OutputPc.Flushes]
      omega
    | wait1 r => trivial
    | arrive2 => trivial
    | _ =>
      rw [hp] at hat
      cases hat
  · have hdone : b.output.pc.done = 1 := by
      cases hp : b.output.pc <;> rw [hp] at hat <;> first | rfl | cases hat
    omega

theorem flushInv_step (hk : KeysInv c s) (hcalls : CallsInv c s) (hbal : BalanceInv s) (hreach : Reachable c s.base)
    (h : FlushInv c s) (hs : WorkStep c s s') : FlushInv c s' := by
  have hb := hk.base
  cases hs with
  | worker w r m x hfree hstep hno =>
    have hround := (hb.step_shared (.worker w m x hstep)).1
    exact ⟨fun hf => h.flushed (hb.flushes_before hround hf), h.cleared⟩
  | call w r m x call hfree hstep hcall =>
    have hround := (hb.step_shared (.worker w m x hstep)).1
    exact ⟨fun hf => h.flushed (hb.flushes_before hround hf), h.cleared⟩
  | answer i u status dtUs hu =>
    refine ⟨?_, h.cleared⟩
    intro hf hj
    have hnone := no_call_under_way hk hcalls hreach hf hj
    rw [hnone] at hu
    cases hu
  | take k ks htaking =>
    refine ⟨?_, h.cleared⟩
    intro hf hj l hl
    simp only [WorkState.take, WorkState.setCounters, Counters.get_set]
    split
    · rfl
    · rename_i hne
      apply h.flushed hf hj
      rw [htaking]
      exact fun hmem => (List.mem_cons.mp hmem).elim hne hl
  | output timeUp m x hfree hstep =>
    refine ⟨?_, h.cleared⟩
    intro hf hj k hk'
    rcases outputStep_flushes hstep hf with ⟨hpc, hfin, rfl⟩ | ⟨hbefore, hiter⟩
    · -- the last report has just begun: all counters are to be taken
      simp only [WorkState.setOutput, hpc, hfin, Bool.false_eq_true, if_false] at hk'
      exact absurd (by cases k <;> simp [CounterId.order]) hk'
    · simp only [WorkState.setOutput, hiter] at hj
      exact h.flushed hbefore hj k (by rw [hfree]; exact List.not_mem_nil)
  | coord m x hstep hpc =>
    have hround := (hb.step_shared (.coord m x hstep)).1
    exact ⟨fun hf => h.flushed (hb.flushes_before hround hf), h.cleared⟩
  | clear m x hstep hpc =>
    refine ⟨fun _ _ k _ => Counters.get_zero k, ?_⟩
    intro j n hn hj k
    obtain ⟨hf, hat, hiter⟩ := hb.flushes_of_advance hpc
    rcases Nat.lt_or_ge j s.cleared.length with hlt | hge
    · refine h.cleared j n ?_ hj k
      simpa [WorkState.clear, WorkState.setCoord, WorkState.setCounters, List.getElem?_append_left hlt] using hn
    · -- the stage that is cleared now
      have htaking : s.taking = [] := by
        by_contra hne
        rcases hbal.taking hne with hp | hp <;> rw [hp] at hat <;> cases hat
      have hlast : j = s.cleared.length ∧ n = s.cdata.counters := by
        simp only [WorkState.clear, WorkState.setCoord, WorkState.setCounters, List.getElem?_append_right hge,
          List.getElem?_singleton] at hn
        split at hn
        · exact ⟨by omega, (Option.some.inj hn).symm⟩
        · cases hn
      obtain ⟨rfl, rfl⟩ := hlast
      refine h.flushed hf ?_ k (by rw [htaking]; exact List.not_mem_nil)
      rw [hiter, ← hbal.cleared]
      exact hj

theorem WorkReachable.flushInv (hc : c.Fits T) (h : WorkReachable c setup s) : FlushInv c s := by
  induction h with
  | refl => exact ⟨fun hf => absurd hf id, nofun⟩
  | tail hreach hstep ih =>
    exact flushInv_step (WorkReachable.keysInv hc hreach) (WorkReachable.callsInv hc hreach) (WorkReachable.balanceInv hc hreach)
      (WorkReachable.base hreach) ih hstep

end AerospikeBenchmark
