import AerospikeBenchmark.Coordinator.Work
import AerospikeBenchmark.Lemmas.StageProgress

/-!
# The invariant of the work

Where the calls under way come from, which keys are left to the workers, and what has become of the answers that were counted.
-/

namespace AerospikeBenchmark

variable {c : RunConfig} {T : Nat} {m m' : Shared T}

/-! ## Counting an answer -/

theorem CallKind.account_counters (kind : CallKind) (status : AsStatus) (dtUs : Nat) (cd : CData) :
    (kind.account status dtUs cd).counters =
      cd.counters.set (kind.counter status) (cd.counters.get (kind.counter status) + 1) := by
  cases kind with
  | sync kind => cases kind <;> cases status <;> rfl
  | async op =>
    rcases op with _ | op
    · cases status <;> rfl
    · cases op <;> cases status <;> rfl

/-- An answer is counted under one counter. -/
theorem CallKind.account_get (kind : CallKind) (status : AsStatus) (dtUs : Nat) (cd : CData) (k : CounterId) :
    (kind.account status dtUs cd).counters.get k =
      if k = kind.counter status then cd.counters.get k + 1 else cd.counters.get k := by
  rw [kind.account_counters, Counters.get_set]
  split
  · rename_i hk
    rw [hk]
  · rfl

/-- The counters of writes. -/
def CounterId.ofWrites : CounterId → Bool
  | .write | .writeTimeout | .writeError => true
  | _ => false

theorem CallKind.counter_ofWrites {kind : CallKind} (h : kind.opClass = .write) (status : AsStatus) :
    (kind.counter status).ofWrites = true := by
  unfold CallKind.counter
  split
  · rw [h]
    rfl
  · rw [h]
    rfl
  · split
    · rename_i hread
      rw [hread] at h
      cases h
    · split
      · rename_i hudf
        rw [hudf] at h
        cases h
      · rw [h]
        rfl
  · rw [h]
    rfl
  · rw [h]
    rfl

/-! ## The steps of a worker -/

/-- A place behind the work on the stage. -/
def WorkerPc.Past : WorkerPc → Prop
  | .check _ | .arrive1 | .wait1 _ | .arrive2 | .wait2 _ | .exit => True
  | _ => False

/-- What a step of a worker does to its place, as far as its work is concerned. -/
inductive WorkerMove (c : RunConfig) (w : Fin T) (m : Shared T) (x x' : Worker) : Prop where
  | enter (hpc : x.pc = .top) (hpc' : x'.pc = .readStage ∨ x'.pc = .exit) (hiter : x'.iter = x.iter)
  | begin (st : Stage) (hpc : x.pc = .readStage) (hst : c.stages[m.stageIdx w.castSucc]? = some st)
      (hpc' : x'.pc = beginStage T st w (m.stageIdx w.castSucc)) (hiter : x'.iter = x.iter)
  | fault (hpc : x.pc = .readStage) (hpc' : x'.pc = .fault)
  | batch (j key endKey : Nat) (hpc : x.pc = .linear j key endKey) (hwork : m.doWork w.castSucc = true) (hkey : key < endKey)
      (hpc' : x'.pc = .linear j (linearBody (c.batch j) key).2 endKey) (hiter : x'.iter = x.iter)
  | leave (j key endKey : Nat) (hpc : x.pc = .linear j key endKey) (hend : ¬(m.doWork w.castSucc = true ∧ key < endKey))
      (hpc' : x'.pc = .completeLast j) (hiter : x'.iter = x.iter)
  | ready (j : Nat) (hpc : x.pc = .completeFirst j) (hpc' : x'.pc = .random j) (hiter : x'.iter = x.iter)
  | spin (j : Nat) (hpc : x.pc = .random j) (hwork : m.doWork w.castSucc = true) (hsame : x' = x)
  | finish (j : Nat) (hpc : x.pc = .completeLast j ∨ (x.pc = .random j ∧ m.doWork w.castSucc = false))
      (hpc' : x'.pc = endStage c w j) (hiter : x'.iter = x.iter)
  | drained (j : Nat) (hpc : x.pc = .drain j) (hpc' : x'.pc = .check j) (hiter : x'.iter = x.iter)
  | past (hpc : x.pc.Past) (hpc' : x'.pc.Past) (hiter : x'.iter = x.iter)
  | again (hpc : x.pc.Past) (hpc' : x'.pc = .top) (hiter : x'.iter = x.iter + 1)

theorem workerStep_move {w : Fin T} {x x' : Worker} (h : workerStep c w m x = some (m', x')) : WorkerMove c w m x x' := by
  obtain ⟨pc, iter, completions, log⟩ := x
  cases pc with
  | top =>
    simp only [workerStep, Option.some.injEq, Prod.mk.injEq] at h
    obtain ⟨-, rfl⟩ := h
    refine .enter rfl ?_ rfl
    split
    · exact Or.inr rfl
    · exact Or.inl rfl
  | readStage =>
    simp only [workerStep] at h
    split at h <;> simp only [Option.some.injEq, Prod.mk.injEq] at h <;> obtain ⟨-, rfl⟩ := h
    · exact .fault rfl rfl
    · rename_i st hst
      exact .begin st rfl hst rfl rfl
  | linear j key endKey =>
    simp only [workerStep] at h
    split at h <;> simp only [Option.some.injEq, Prod.mk.injEq] at h <;> obtain ⟨-, rfl⟩ := h
    · rename_i hgo
      exact .batch j key endKey rfl hgo.1 hgo.2 rfl rfl
    · rename_i hstop
      exact .leave j key endKey rfl hstop rfl rfl
  | completeLast j =>
    simp only [workerStep, Option.some.injEq, Prod.mk.injEq] at h
    obtain ⟨-, rfl⟩ := h
    exact .finish j (Or.inl rfl) rfl rfl
  | completeFirst j =>
    simp only [workerStep, Option.some.injEq, Prod.mk.injEq] at h
    obtain ⟨-, rfl⟩ := h
    exact .ready j rfl rfl rfl
  | random j =>
    simp only [workerStep, Option.some.injEq, Prod.mk.injEq] at h
    obtain ⟨-, rfl⟩ := h
    by_cases hwork : m.doWork w.castSucc = true
    · exact .spin j rfl hwork (by rw [if_pos hwork])
    · exact .finish j (Or.inr ⟨rfl, Bool.not_eq_true _ ▸ hwork⟩) (by rw [if_neg hwork]) rfl
  | drain j =>
    simp only [workerStep, Option.some.injEq, Prod.mk.injEq] at h
    obtain ⟨-, rfl⟩ := h
    exact .drained j rfl rfl rfl
  | check j =>
    simp only [workerStep, Option.some.injEq, Prod.mk.injEq] at h
    obtain ⟨-, rfl⟩ := h
    refine .past trivial ?_ rfl
    split <;> trivial
  | arrive1 =>
    simp only [workerStep, Option.some.injEq, Prod.mk.injEq] at h
    obtain ⟨-, rfl⟩ := h
    exact .past trivial trivial rfl
  | wait1 r =>
    simp only [workerStep, Option.ite_none_left_eq_some, Option.some.injEq, Prod.mk.injEq] at h
    obtain ⟨-, -, rfl⟩ := h
    exact .past trivial trivial rfl
  | arrive2 =>
    simp only [workerStep, Option.some.injEq, Prod.mk.injEq] at h
    obtain ⟨-, rfl⟩ := h
    exact .past trivial trivial rfl
  | wait2 r =>
    simp only [workerStep, Option.ite_none_left_eq_some, Option.some.injEq, Prod.mk.injEq] at h
    obtain ⟨-, -, rfl⟩ := h
    exact .again trivial rfl rfl
  | exit => simp [workerStep] at h
  | fault => simp [workerStep] at h

/-! ## Where a worker calls -/

/-- Stage `j` is linear. -/
def RunConfig.Linear (c : RunConfig) (j : Nat) : Prop :=
  ∃ st, c.stages[j]? = some st ∧ (st.workload.type = .i ∨ st.workload.type = .d)

/-- Stage `j` is asynchronous. -/
def RunConfig.Async (c : RunConfig) (j : Nat) : Prop := ∃ st, c.stages[j]? = some st ∧ st.async = true

theorem RunConfig.linear_iff {j : Nat} {st : Stage} (hst : c.stages[j]? = some st) :
    c.Linear j ↔ st.workload.type = .i ∨ st.workload.type = .d := by
  simp [RunConfig.Linear, hst]

theorem RunConfig.async_iff {j : Nat} {st : Stage} (hst : c.stages[j]? = some st) : c.Async j ↔ st.async = true := by
  simp [RunConfig.Async, hst]

/-- Linear loops belong to linear stages, random loops to the others, and the calls of an asynchronous stage are made by the first
worker. -/
def WorkerPc.Placed (c : RunConfig) (w : Nat) : WorkerPc → Prop
  | .linear j _ _ => c.Linear j ∧ (c.Async j → w = 0)
  | .completeFirst j | .random j => ¬c.Linear j ∧ (c.Async j → w = 0)
  | _ => True

theorem beginStage_placed {w j : Nat} {st : Stage} (hst : c.stages[j]? = some st) : (beginStage T st w j).Placed c w := by
  unfold beginStage
  split
  · trivial
  · rename_i hfirst
    have hzero : c.Async j → w = 0 := by
      intro hasync
      by_contra hw
      exact hfirst ⟨(RunConfig.async_iff hst).mp hasync, hw⟩
    split
    · rename_i htype
      split <;> exact ⟨(RunConfig.linear_iff hst).mpr (Or.inl htype), hzero⟩
    · rename_i htype
      split <;> exact ⟨(RunConfig.linear_iff hst).mpr (Or.inr htype), hzero⟩
    all_goals
      rename_i htype
      refine ⟨fun hl => ?_, hzero⟩
      rcases (RunConfig.linear_iff hst).mp hl with h | h <;> rw [htype] at h <;> cases h

theorem WorkerPc.Past.placed {pc : WorkerPc} (h : pc.Past) (w : Nat) : pc.Placed c w := by
  cases pc <;> trivial

theorem endStage_past_or_drain (w j : Nat) : (endStage c w j).Past ∨ endStage c w j = .drain j := by
  rcases endStage_cases c w j with he | he
  · exact Or.inr he
  · rw [he]
    exact Or.inl trivial

theorem WorkerMove.placed {w : Fin T} {x x' : Worker} (h : WorkerMove c w m x x') (hp : x.pc.Placed c w) : x'.pc.Placed c w := by
  cases h with
  | enter hpc hpc' hiter => rcases hpc' with hpc' | hpc' <;> rw [hpc'] <;> trivial
  | begin st hpc hst hpc' hiter =>
    rw [hpc']
    exact beginStage_placed hst
  | fault hpc hpc' =>
    rw [hpc']
    trivial
  | batch j key endKey hpc hwork hkey hpc' hiter =>
    rw [hpc] at hp
    rw [hpc']
    exact hp
  | leave j key endKey hpc hend hpc' hiter =>
    rw [hpc']
    trivial
  | ready j hpc hpc' hiter =>
    rw [hpc] at hp
    rw [hpc']
    exact hp
  | spin j hpc hwork hsame =>
    rw [hsame]
    exact hp
  | finish j hpc hpc' hiter =>
    rw [hpc']
    rcases endStage_past_or_drain (c := c) w j with he | he
    · exact he.placed _
    · rw [he]
      trivial
  | drained j hpc hpc' hiter =>
    rw [hpc']
    trivial
  | past hpc hpc' hiter => exact hpc'.placed _
  | again hpc hpc' hiter =>
    rw [hpc']
    trivial

/-! ## The keys ahead of a worker -/

/-- The keys left to a linear routine: whole batches up to the end of its range. -/
def WorkerPc.keysAhead (c : RunConfig) : WorkerPc → List Nat
  | .linear j key endKey => List.range' key (c.batch j * batches (endKey - key) (c.batch j))
  | _ => []

/-- The keys that worker `w` operates on in stage `j`, none when the stage is random. -/
def RunConfig.stageKeys (c : RunConfig) (T w j : Nat) : List Nat :=
  (c.stages[j]?.map fun st => (beginStage T st w j).keysAhead c).getD []

/-- The keys of stage `j` that a worker has not operated on. -/
def Worker.keysAhead (c : RunConfig) (T w : Nat) (x : Worker) (j : Nat) : List Nat :=
  if j < x.iter then []
  else if x.iter < j then c.stageKeys T w j
  else
    match x.pc with
    | .top | .readStage => c.stageKeys T w j
    | pc => pc.keysAhead c

/-- The keys of a call for stage `j`. -/
def keysMade (call : Option (Nat × List Nat × CallKind)) (j : Nat) : List Nat :=
  match call with
  | some (i, keys, _) => if i = j then keys else []
  | none => []

/-- The keys ahead agree on all stages when they agree on the stage of the iteration. -/
theorem Worker.keysAhead_congr {w : Nat} {x x' : Worker} (hiter : x'.iter = x.iter)
    (h : x.keysAhead c T w x.iter = x'.keysAhead c T w x.iter) (j : Nat) : x.keysAhead c T w j = x'.keysAhead c T w j := by
  by_cases hj : j = x.iter
  · rw [hj]
    exact h
  · simp only [Worker.keysAhead, hiter]
    by_cases hlt : j < x.iter
    · rw [if_pos hlt, if_pos hlt]
    · rw [if_neg hlt, if_neg hlt, if_pos (by omega), if_pos (by omega)]

theorem Worker.keysAhead_iter {w : Nat} {x : Worker} (h1 : x.pc ≠ .top) (h2 : x.pc ≠ .readStage) :
    x.keysAhead c T w x.iter = x.pc.keysAhead c := by
  simp only [Worker.keysAhead, lt_irrefl, if_false]

/-- Behind the work on a stage no key of it is left. -/
theorem Worker.keysAhead_past {w : Nat} {x : Worker} (h : x.pc.Past) : x.keysAhead c T w x.iter = [] := by
  cases hpc : x.pc <;> simp_all [WorkerPc.Past, Worker.keysAhead, WorkerPc.keysAhead]

/-- One batch of the keys left. -/
theorem range_batches {b key endKey : Nat} (hb : 1 ≤ b) (hkey : key < endKey) :
    List.range' key (b * batches (endKey - key) b) =
      List.range' key b ++ List.range' (key + b) (b * batches (endKey - (key + b)) b) := by
  have hstep := batches_step hb (Nat.sub_pos_of_lt hkey)
  have hrest : endKey - key - b = endKey - (key + b) := by omega
  rw [hstep, hrest, Nat.mul_add, Nat.mul_one, Nat.add_comm (b * _), List.range'_append_1]

/-- A step of a worker takes the keys of its call from those ahead; the loop of a linear routine is not left before all keys of its
range have been operated on, as long as the worker may work. -/
theorem WorkerMove.keysAhead {w : Fin T} {x x' : Worker} (h : WorkerMove c w m x x') (hok : WorkerOk c.stages.length x)
    (hok' : WorkerOk c.stages.length x') (hfits : x.pc.Fits c)
    (hflags : x.pc.wait = none → x.pc.half = 0 → FlagsAt c.stages.length m w.castSucc x.iter)
    (hwork : ∀ j key endKey, x.pc = .linear j key endKey → m.doWork w.castSucc = true) (r : RandomCall) (j : Nat) :
    x.keysAhead c T w j = keysMade (madeCall c w m x r) j ++ x'.keysAhead c T w j := by
  have hnone : (∀ i key endKey, x.pc ≠ .linear i key endKey) → keysMade (madeCall c w m x r) j = [] := by
    intro hpc
    unfold madeCall
    split
    · rename_i i key endKey hlin
      exact absurd hlin (hpc i key endKey)
    · rename_i i hrand
      split
      · cases c.stages[i]? <;> simp [keysMade]
      · rfl
    · rfl
  cases h with
  | enter hpc hpc' hiter =>
    rw [hnone (by simp [hpc]), List.nil_append]
    apply Worker.keysAhead_congr hiter
    rcases hpc' with hpc' | hpc'
    · simp [Worker.keysAhead, hpc, hpc', hiter]
    · have hend : x.iter = c.stages.length := hiter ▸ hok'.exit hpc'
      simp [Worker.keysAhead, hpc, hpc', hiter, WorkerPc.keysAhead, RunConfig.stageKeys, hend]
  | begin st hpc hst hpc' hiter =>
    rw [hnone (by simp [hpc]), List.nil_append]
    apply Worker.keysAhead_congr hiter
    have hidx : m.stageIdx w.castSucc = x.iter := by
      rcases hflags (by rw [hpc]; rfl) (by rw [hpc]; rfl) with ⟨-, hidx, -⟩ | ⟨hend, -⟩
      · exact hidx
      · have := hok.inLoop (by simp [hpc]) (by simp [hpc])
        omega
    rw [hidx] at hst hpc'
    have hbegin : x'.keysAhead c T w x'.iter = x'.pc.keysAhead c := by
      apply Worker.keysAhead_iter
      · rcases beginStage_cases T st w x.iter with ⟨key, endKey, he⟩ | he | he <;> simp [hpc', he]
      · rcases beginStage_cases T st w x.iter with ⟨key, endKey, he⟩ | he | he <;> simp [hpc', he]
    rw [← hiter, hbegin, hpc', hiter]
    simp [Worker.keysAhead, hpc, RunConfig.stageKeys, hst]
  | fault hpc hpc' => exact absurd hpc' hok'.noFault
  | batch i key endKey hpc hgo hkey hpc' hiter =>
    have hi : i = x.iter := hok.stage i (by rw [hpc]; rfl)
    have hlt : i < c.stages.length := hi ▸ hok.inLoop (by simp [hpc]) (by simp [hpc])
    have hst : c.stages[i]? = some c.stages[i] := List.getElem?_eq_getElem hlt
    rw [hpc] at hfits
    have hbody := linearBody_eq hfits.1 (by have := hfits.2; omega : key + c.batch i < 2 ^ 64)
    have hmade : madeCall c w m x r = some (i, List.range' key (c.batch i), c.stages[i].linearKind) := by
      unfold madeCall
      simp only [hpc]
      rw [if_pos ⟨hgo, hkey⟩, hst, Option.map_some, ← RunConfig.batch_eq hst, hbody]
    rw [hmade]
    by_cases hj : j = i
    · subst hj
      have hx : x.keysAhead c T w j = x.pc.keysAhead c := by
        rw [hi]
        exact Worker.keysAhead_iter (by simp [hpc]) (by simp [hpc])
      have hx' : x'.keysAhead c T w j = x'.pc.keysAhead c := by
        rw [hi, ← hiter]
        exact Worker.keysAhead_iter (by simp [hpc']) (by simp [hpc'])
      rw [hx, hx', hpc, hpc', hbody]
      simp only [WorkerPc.keysAhead, keysMade, if_true]
      exact range_batches hfits.1 hkey
    · simp only [keysMade, Ne.symm hj, if_false, List.nil_append, Worker.keysAhead, hiter, hpc, hpc']
      by_cases hlt : j < x.iter
      · rw [if_pos hlt, if_pos hlt]
      · rw [if_neg hlt, if_neg hlt, if_pos (by omega), if_pos (by omega)]
  | leave i key endKey hpc hend hpc' hiter =>
    have hstop : ¬key < endKey := fun hkey => hend ⟨hwork i key endKey hpc, hkey⟩
    rw [hpc] at hfits
    have hmade : madeCall c w m x r = none := by
      unfold madeCall
      simp only [hpc]
      rw [if_neg hend]
    rw [hmade]
    simp only [keysMade, List.nil_append]
    apply Worker.keysAhead_congr hiter
    have hzero : endKey - key = 0 := by omega
    simp [Worker.keysAhead, hpc, hpc', hiter, WorkerPc.keysAhead, hzero, batches_zero hfits.1]
  | ready i hpc hpc' hiter =>
    rw [hnone (by simp [hpc]), List.nil_append]
    apply Worker.keysAhead_congr hiter
    simp [Worker.keysAhead, hpc, hpc', hiter, WorkerPc.keysAhead]
  | spin i hpc hgo hsame =>
    rw [hnone (by simp [hpc]), List.nil_append, hsame]
  | finish i hpc hpc' hiter =>
    have hpcs : x.pc.keysAhead c = [] ∧ x.pc ≠ .top ∧ x.pc ≠ .readStage ∧ ∀ i key endKey, x.pc ≠ .linear i key endKey := by
      rcases hpc with hpc | ⟨hpc, -⟩ <;> simp [hpc, WorkerPc.keysAhead]
    have hpcs' : x'.pc.keysAhead c = [] ∧ x'.pc ≠ .top ∧ x'.pc ≠ .readStage := by
      rcases endStage_cases c w i with he | he <;> simp [hpc', he, WorkerPc.keysAhead]
    rw [hnone hpcs.2.2.2, List.nil_append]
    apply Worker.keysAhead_congr hiter
    rw [Worker.keysAhead_iter hpcs.2.1 hpcs.2.2.1, ← hiter, Worker.keysAhead_iter hpcs'.2.1 hpcs'.2.2, hpcs.1, hpcs'.1]
  | drained i hpc hpc' hiter =>
    rw [hnone (by simp [hpc]), List.nil_append]
    apply Worker.keysAhead_congr hiter
    simp [Worker.keysAhead, hpc, hpc', hiter, WorkerPc.keysAhead]
  | past hpc hpc' hiter =>
    rw [hnone (by rintro i key endKey he; rw [he] at hpc; exact hpc), List.nil_append]
    apply Worker.keysAhead_congr hiter
    rw [Worker.keysAhead_past hpc, ← hiter, Worker.keysAhead_past hpc']
  | again hpc hpc' hiter =>
    rw [hnone (by rintro i key endKey he; rw [he] at hpc; exact hpc), List.nil_append]
    -- behind the stage of this iteration nothing is left of it, and all of the later ones
    rcases Nat.lt_trichotomy j x.iter with hj | rfl | hj
    · simp [Worker.keysAhead, hiter, hj, Nat.lt_succ_of_lt hj]
    · rw [Worker.keysAhead_past hpc]
      simp [Worker.keysAhead, hiter]
    · simp only [Worker.keysAhead, hiter, hpc']
      rw [if_neg (by omega), if_pos hj, if_neg (by omega)]
      split <;> rfl

/-! ## The keys along a run -/

variable {setup : LatencySetup} {s s' : WorkState T}

/-- The keys that a worker has operated on in stage `j`, in order. -/
def WorkState.keysOf (s : WorkState T) (w : Fin T) (j : Nat) : List Nat :=
  (s.calls.filter fun call => call.worker = w ∧ call.stage = j).flatMap Call.keys

/-- What holds of the workers and their keys. -/
structure KeysInv (c : RunConfig) (s : WorkState T) : Prop where
  base : ProtocolInv c s.base
  fits : ∀ w, (s.base.worker w).pc.Fits c
  placed : ∀ w, (s.base.worker w).pc.Placed c w
  keys : ∀ w j, s.keysOf w j ++ (s.base.worker w).keysAhead c T w j = c.stageKeys T w j

/-- The keys operated on after a call. -/
theorem keysOf_makeCall (s : WorkState T) (w v : Fin T) (call : Nat × List Nat × CallKind) (j : Nat) :
    (s.makeCall w call).keysOf v j = s.keysOf v j ++ if v = w then keysMade (some call) j else [] := by
  obtain ⟨i, keys, kind⟩ := call
  simp only [WorkState.keysOf, WorkState.makeCall, List.filter_append, List.flatMap_append, keysMade]
  congr 1
  by_cases hv : v = w
  · subst hv
    by_cases hi : i = j <;> simp [hi]
  · simp [hv, Ne.symm hv]

/-- A worker in the loop of a linear routine has not completed its stage, so it may work. -/
theorem KeysInv.may_work (h : KeysInv c s) {w : Fin T} {j key endKey : Nat} (hpc : (s.base.worker w).pc = .linear j key endKey) :
    s.base.shared.doWork w.castSucc = true := by
  apply h.base.may_work
  · rw [hpc]
    rfl
  · rw [hpc]
    rfl
  · rw [hpc]
    rfl
  · exact (h.base.workers w).inLoop (by simp [hpc]) (by simp [hpc])

/-- What a step of a worker does to its keys. -/
theorem KeysInv.worker (hc : c.Fits T) (h : KeysInv c s) {w : Fin T} {x : Worker}
    (hstep : workerStep c w s.base.shared (s.base.worker w) = some (m, x)) (r : RandomCall) :
    x.pc.Fits c ∧ x.pc.Placed c w ∧ ∀ j, (s.base.worker w).keysAhead c T w j =
      keysMade (madeCall c w s.base.shared (s.base.worker w) r) j ++ x.keysAhead c T w j := by
  have hflags := h.base.worker_flags w
  have hmove := workerStep_move hstep
  refine ⟨(workerStep_progress hc (h.base.workers w) (h.fits w) hflags hstep).1, hmove.placed (h.placed w), ?_⟩
  exact hmove.keysAhead (h.base.workers w) (workerStep_spec (h.base.workers w) hflags hstep).2.2 (h.fits w) hflags
    (fun j key endKey hpc => h.may_work hpc) r

theorem keysInv_step (hc : c.Fits T) (h : KeysInv c s) (hs : WorkStep c s s') : KeysInv c s' := by
  have hbase : ProtocolInv c s'.base := by
    rcases hs.base with heq | hstep
    · rw [heq]
      exact h.base
    · exact protocolInv_step h.base hstep
  -- a step of worker `w`, with the keys of its call, if it makes one
  have hworker : ∀ (w : Fin T) (x : Worker), x.pc.Fits c → x.pc.Placed c w → s'.base.worker = Function.update s.base.worker w x →
      (∀ v j, s'.keysOf v j ++ (Function.update s.base.worker w x v).keysAhead c T v j = c.stageKeys T v j) → KeysInv c s' := by
    intro w x hfits hplaced hw hkeys
    refine ⟨hbase, ?_, ?_, ?_⟩
    · intro v
      rw [hw]
      by_cases hv : v = w
      · subst hv
        simpa using hfits
      · simpa [hv] using h.fits v
    · intro v
      rw [hw]
      by_cases hv : v = w
      · subst hv
        simpa using hplaced
      · simpa [hv] using h.placed v
    · intro v j
      rw [hw]
      exact hkeys v j
  cases hs with
  | worker w r m x hfree hstep hno =>
    obtain ⟨hfits, hplaced, hahead⟩ := h.worker hc hstep r
    refine hworker w x hfits hplaced rfl ?_
    intro v j
    by_cases hv : v = w
    · subst hv
      have hj := hahead j
      rw [hno] at hj
      simp only [keysMade, List.nil_append] at hj
      rw [Function.update_self, ← hj]
      exact h.keys v j
    · rw [Function.update_of_ne hv]
      exact h.keys v j
  | call w r m x call hfree hstep hcall =>
    obtain ⟨hfits, hplaced, hahead⟩ := h.worker hc hstep r
    refine hworker w x hfits hplaced rfl ?_
    intro v j
    rw [keysOf_makeCall]
    by_cases hv : v = w
    · subst hv
      have hj := hahead j
      rw [hcall] at hj
      rw [if_pos rfl, Function.update_self, List.append_assoc, ← hj]
      exact h.keys v j
    · rw [if_neg hv, List.append_nil, Function.update_of_ne hv]
      exact h.keys v j
  | answer i u status dtUs hu => exact ⟨hbase, h.fits, h.placed, h.keys⟩
  | take k ks htaking => exact ⟨hbase, h.fits, h.placed, h.keys⟩
  | output timeUp m x hfree hstep => exact ⟨hbase, h.fits, h.placed, h.keys⟩
  | coord m x hstep hpc => exact ⟨hbase, h.fits, h.placed, h.keys⟩
  | clear m x hstep hpc => exact ⟨hbase, h.fits, h.placed, h.keys⟩

theorem WorkReachable.keysInv (hc : c.Fits T) (h : WorkReachable c setup s) : KeysInv c s := by
  induction h with
  | refl =>
    refine ⟨protocolInv_init c T, fun _ => trivial, fun _ => trivial, ?_⟩
    intro w j
    rcases Nat.eq_zero_or_pos j with rfl | hj
    · rfl
    · simp [WorkState.keysOf, WorkState.init, ProtocolState.init, Worker.keysAhead, hj]
  | tail _ hstep ih => exact keysInv_step hc ih hstep

end AerospikeBenchmark
