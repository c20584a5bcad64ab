import AerospikeBenchmark.Lemmas.StageInvariant

/-!
# The stage protocol is safe

What the coordinator, the workers and the output worker may rely on, in every state that some interleaving of their steps leads to.
-/

namespace AerospikeBenchmark

variable {c : RunConfig} {T : Nat} {s s' : ProtocolState T}

/-- How often a party has declared itself complete: it has completed stage `k` when it has done so more than `k` times. -/
def ProtocolState.completions (s : ProtocolState T) : Party T → Nat
  | .worker w => (s.worker w).completions
  | .output => s.output.completions
  | .coord => s.coord.completions

/-- The stage the parties are to complete. It is the coordinator's `stage_idx`, but for the moments between the increment of
`stage_idx` and the reset of the counter, and after the last increment: then it is the stage before. -/
def ProtocolState.currentStage (s : ProtocolState T) : Nat :=
  match s.coord.pc with
  | .setStage _ | .reset | .terminate _ | .arriveEnd | .waitEnd _ | .exit => s.coord.stageIdx - 1
  | _ => s.coord.stageIdx

/-- The safety of the protocol in a state. -/
structure StageSafe (c : RunConfig) (s : ProtocolState T) : Prop where
  /-- The counter is the number of parties that have not completed the current stage. -/
  counter : s.shared.unfinishedThreads = (Finset.univ.filter fun p => s.completions p ≤ s.currentStage).card
  nonneg : 0 ≤ s.shared.unfinishedThreads
  /-- `stage_idx` is advanced only when all parties have completed the stage and all others are at the barrier. -/
  advance : ∀ s', ProtocolStep c s s' → s'.coord.stageIdx ≠ s.coord.stageIdx →
    s.shared.unfinishedThreads = 0 ∧ (∀ w, (s.worker w).pc.atBarrier = true) ∧ s.output.pc.atBarrier = true
  /-- A worker executes no other stage than the coordinator's. -/
  working : ∀ w j, (s.worker w).pc.stage? = some j → j = s.coord.stageIdx
  /-- A worker has begun the stages in order, none twice. -/
  inOrder : ∀ w, (s.worker w).log = List.range (s.worker w).log.length
  /-- A worker that has returned has executed every stage. -/
  executedAll : ∀ w, (s.worker w).pc = .exit → (s.worker w).log = List.range c.stages.length
  /-- After the last stage a worker is at the head of its loop, with nothing to do but to return, or has returned. -/
  leaves : ∀ w, (s.worker w).iter = c.stages.length →
    (s.worker w).pc = .exit ∨ ((s.worker w).pc = .top ∧ s.shared.finished w.castSucc = true)
  noFault : ∀ w, (s.worker w).pc ≠ .fault

theorem completions_eq (s : ProtocolState T) (p : Party T) : s.completions p = (s.view p).completions := by
  cases p <;> rfl

theorem ProtocolInv.currentStage_eq (h : ProtocolInv c s) : s.currentStage = s.coord.opened := by
  have hidx := h.coord.stageIdx
  unfold ProtocolState.currentStage Coord.opened
  cases hpc : s.coord.pc <;> simp only [hpc, CoordPc.late] at hidx <;> simp only [CoordPc.ahead, hidx] <;> omega

/-- Only the step at `stage_idx++` changes the coordinator's stage. -/
theorem advance_of_stageIdx_ne {m m' : Shared T} {x x' : Coord} (h : coordStep c m x = some (m', x'))
    (hne : x'.stageIdx ≠ x.stageIdx) : x.pc = .advance := by
  by_contra hpc
  apply hne
  unfold coordStep overThreads at h
  split at h
  case h_7 hadv => exact absurd hadv hpc
  all_goals
    (try split at h) <;> simp only [Option.some.injEq, Prod.mk.injEq, reduceCtorEq] at h <;> (try obtain ⟨-, rfl⟩ := h) <;> rfl

theorem ProtocolInv.advance (h : ProtocolInv c s) (hs : ProtocolStep c s s') (hne : s'.coord.stageIdx ≠ s.coord.stageIdx) :
    s.shared.unfinishedThreads = 0 ∧ (∀ w, (s.worker w).pc.atBarrier = true) ∧ s.output.pc.atBarrier = true := by
  cases hs with
  | worker w m x hstep => exact absurd rfl hne
  | output timeUp m x hstep => exact absurd rfl hne
  | coord m x hstep =>
    have hpc := advance_of_stageIdx_ne hstep hne
    have hround := h.round_of_second_half (by rw [hpc]; rfl) (by rw [hpc]; rfl)
    refine ⟨h.drained (by rw [hpc]; rfl), ?_, (h.odd_round_output hround).1⟩
    intro w
    exact (h.odd_round_worker hround w).1

/-- A worker that is not waiting, in the first half of its iteration, holds the barrier in the even round of its stage. -/
theorem ProtocolInv.round_of_worker (h : ProtocolInv c s) {w : Fin T} (hw : (s.worker w).pc.wait = none)
    (hhalf : (s.worker w).pc.half = 0) : s.shared.barrier.round = 2 * (s.worker w).iter := by
  have hfree := h.agree.synced.free (.worker w) hw
  simp only [ProtocolState.view, Worker.view, hhalf, Nat.add_zero] at hfree
  exact hfree.symm

/-- A worker that executes a stage is free and in the first half of its iteration. -/
theorem WorkerPc.free_of_stage {pc : WorkerPc} {j : Nat} (h : pc.stage? = some j) :
    pc.wait = none ∧ pc.half = 0 ∧ pc ≠ .top ∧ pc ≠ .exit := by
  cases pc <;> simp only [stage?, reduceCtorEq, Option.some.injEq] at h <;> exact ⟨rfl, rfl, nofun, nofun⟩

theorem ProtocolInv.working (h : ProtocolInv c s) {w : Fin T} {j : Nat} (hj : (s.worker w).pc.stage? = some j) :
    j = s.coord.stageIdx := by
  obtain ⟨hw, hhalf, htop, hexit⟩ := WorkerPc.free_of_stage hj
  have hiter := (h.workers w).inLoop htop hexit
  rw [(h.workers w).stage j hj]
  rcases h.even_round (h.round_of_worker hw hhalf) with ⟨-, -, hidx, -⟩ | ⟨hend, -⟩
  · exact hidx.symm
  · omega

theorem ProtocolInv.leaves (h : ProtocolInv c s) {w : Fin T} (hiter : (s.worker w).iter = c.stages.length) :
    (s.worker w).pc = .exit ∨ ((s.worker w).pc = .top ∧ s.shared.finished w.castSucc = true) := by
  by_cases hexit : (s.worker w).pc = .exit
  · exact Or.inl hexit
  · have htop : (s.worker w).pc = .top := by
      by_contra htop
      have := (h.workers w).inLoop htop hexit
      omega
    have hround := h.round_of_worker (by rw [htop]; rfl) (by rw [htop]; rfl)
    rcases h.even_round hround with ⟨hlt, -⟩ | ⟨-, -, hfin⟩
    · omega
    · exact Or.inr ⟨htop, hfin _⟩

/-- The stage protocol is safe: whatever the stages, the number of workers and the interleaving. -/
theorem stage_protocol_safe (c : RunConfig) (T : Nat) (s : ProtocolState T) (h : Reachable c s) : StageSafe c s := by
  have hinv := h.protocolInv
  have hcounter : s.shared.unfinishedThreads = (Finset.univ.filter fun p => s.completions p ≤ s.currentStage).card := by
    simp only [hinv.currentStage_eq, completions_eq]
    exact hinv.agree.counted
  refine ⟨hcounter, ?_, ?_, ?_, ?_, ?_, ?_, ?_⟩
  · rw [hcounter]
    exact Int.natCast_nonneg _
  · intro s' hs hne
    exact hinv.advance hs hne
  · intro w j hj
    exact hinv.working hj
  · intro w
    rw [(hinv.workers w).log, List.length_range]
  · intro w hexit
    rw [(hinv.workers w).log, (hinv.workers w).exit hexit, hexit]
    rfl
  · intro w hiter
    exact hinv.leaves hiter
  · intro w
    exact (hinv.workers w).noFault

/-- A run of one insert stage over one key. -/
def oneKeyRun : RunConfig where
  stages := [Stage.ofWorkload ⟨.i, .num 0, .num 0, .num 100, .num 100⟩ 1 2]
  nonempty := by simp

/-- A schedule of one worker that goes through the stage to the end of the run. -/
def wholeRun : List (Choice 1) :=
  let w : Choice 1 := .worker 0
  let o : Choice 1 := .output false
  let c : Choice 1 := .coord
  [w, w, w, w, w, w, w, o, c, c, c, c, c, c, o, o, o, o, o, c, c, c, c, c, c, w, w, w, w, o, o, c]

/-- The whole run can be executed, and the state at its end is safe. -/
theorem stage_protocol_safe_run :
    ∃ s : ProtocolState 1, (ProtocolState.init 1).run oneKeyRun wholeRun = some s ∧ (s.worker 0).pc = .exit ∧
      s.coord.pc = .exit ∧ s.output.pc = .exit ∧ StageSafe oneKeyRun s := by
  have hend : ((ProtocolState.init 1).run oneKeyRun wholeRun).map (fun s => ((s.worker 0).pc, s.coord.pc, s.output.pc)) =
      some (.exit, .exit, .exit) := by decide
  obtain ⟨s, hs, hpcs⟩ := Option.map_eq_some_iff.mp hend
  simp only [Prod.mk.injEq] at hpcs
  have hreach : Reachable oneKeyRun s := Reachable.run .refl wholeRun hs
  exact ⟨s, hs, hpcs.1, hpcs.2.1, hpcs.2.2, stage_protocol_safe oneKeyRun 1 s hreach⟩

end AerospikeBenchmark
