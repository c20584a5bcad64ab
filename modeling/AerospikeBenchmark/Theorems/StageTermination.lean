import AerospikeBenchmark.Lemmas.StageProgress

/-!
# The stage protocol comes to its end

Under every schedule that does not neglect a process for ever, all processes return, and the workers have then executed all stages:
no interleaving leads to a state in which the coordinator, a worker or the output worker waits for something that never happens.
Durations are taken to be over at some time, and asynchronous calls to be answered.
-/

namespace AerospikeBenchmark

variable {c : RunConfig} {T : Nat} {s s' : ProtocolState T}

/-- The process that takes a step. -/
def Choice.party : Choice T → Party T
  | .worker w => .worker w
  | .output _ => .output
  | .coord => .coord

/-- All processes have returned. -/
structure ProtocolState.Ended (s : ProtocolState T) : Prop where
  workers : ∀ w, (s.worker w).pc = .exit
  output : s.output.pc = .exit
  coord : s.coord.pc = .exit

/-- How many steps are left at most, those of spinning processes apart. -/
def ProtocolState.rank (c : RunConfig) (s : ProtocolState T) : Nat :=
  (∑ w : Fin T, workerRank c T w (s.worker w)) + outputRank c.stages.length s.shared.unfinishedThreads s.output + coordRank c T s.coord

/-- A process that can step and does not spin. -/
def Helpful (c : RunConfig) (s : ProtocolState T) : Party T → Prop
  | .worker w => workerStep c w s.shared (s.worker w) ≠ none ∧ ¬(s.worker w).Spins w s.shared
  | .output => outputStep false s.shared s.output ≠ none ∧ ¬s.output.Spins s.shared
  | .coord => coordStep c s.shared s.coord ≠ none

/-- The invariant of the protocol with what its progress depends on. -/
structure ProgressInv (c : RunConfig) (s : ProtocolState T) : Prop where
  inv : ProtocolInv c s
  fits : ∀ w, (s.worker w).pc.Fits c
  notAll : s.shared.barrier.arrived < s.shared.barrier.count

/-! ## Blocked processes -/

theorem workerStep_none {w : Fin T} {m : Shared T} {x : Worker} (h : workerStep c w m x = none) :
    x.pc.wait = some m.barrier.round ∨ x.pc = .exit ∨ x.pc = .fault := by
  unfold workerStep at h
  cases hpc : x.pc with
  | readStage =>
    simp only [hpc] at h
    split at h <;> cases h
  | linear j key endKey =>
    simp only [hpc] at h
    split at h <;> cases h
  | wait1 r =>
    simp only [hpc, ite_eq_left_iff, reduceCtorEq, imp_false, not_not] at h
    exact Or.inl (by rw [h]; rfl)
  | wait2 r =>
    simp only [hpc, ite_eq_left_iff, reduceCtorEq, imp_false, not_not] at h
    exact Or.inl (by rw [h]; rfl)
  | exit => exact Or.inr (Or.inl rfl)
  | fault => exact Or.inr (Or.inr rfl)
  | _ => simp [hpc] at h

theorem outputStep_none {m : Shared T} {x : Output} (h : outputStep false m x = none) :
    x.pc.wait = some m.barrier.round ∨ x.pc = .exit ∨ (x.pc = .sleep ∧ m.unfinishedThreads ≠ 0) := by
  unfold outputStep at h
  cases hpc : x.pc with
  | sleep =>
    simp only [hpc, Bool.false_eq_true, if_false, ite_eq_right_iff, reduceCtorEq, imp_false] at h
    exact Or.inr (Or.inr ⟨rfl, h⟩)
  | wait1 r =>
    simp only [hpc, ite_eq_left_iff, reduceCtorEq, imp_false, not_not] at h
    exact Or.inl (by rw [h]; rfl)
  | wait2 r =>
    simp only [hpc, ite_eq_left_iff, reduceCtorEq, imp_false, not_not] at h
    exact Or.inl (by rw [h]; rfl)
  | exit => exact Or.inr (Or.inl rfl)
  | _ => simp [hpc] at h

theorem coordStep_none {m : Shared T} {x : Coord} (h : coordStep c m x = none) :
    x.pc.wait = some m.barrier.round ∨ x.pc = .exit ∨ (x.pc = .waiting ∧ m.unfinishedThreads ≠ 0) := by
  unfold coordStep at h
  cases hpc : x.pc with
  | waiting =>
    simp only [hpc, ite_eq_right_iff, reduceCtorEq, imp_false] at h
    exact Or.inr (Or.inr ⟨rfl, h⟩)
  | wait1 r =>
    simp only [hpc, ite_eq_left_iff, reduceCtorEq, imp_false, not_not] at h
    exact Or.inl (by rw [h]; rfl)
  | wait2 r =>
    simp only [hpc, ite_eq_left_iff, reduceCtorEq, imp_false, not_not] at h
    exact Or.inl (by rw [h]; rfl)
  | waitEnd r =>
    simp only [hpc, ite_eq_left_iff, reduceCtorEq, imp_false, not_not] at h
    exact Or.inl (by rw [h]; rfl)
  | exit => exact Or.inr (Or.inl rfl)
  | _ => simp [hpc] at h

/-! ## Some process is helpful -/

/-- A worker that is not helpful waits for the round to end, has returned, or spins. -/
theorem ProgressInv.worker_idle (h : ProgressInv c s) {w : Fin T} (hw : ¬Helpful c s (.worker w)) :
    (s.worker w).pc.wait = some s.shared.barrier.round ∨ (s.worker w).pc = .exit ∨ (s.worker w).Spins w s.shared := by
  by_cases hstep : workerStep c w s.shared (s.worker w) = none
  · rcases workerStep_none hstep with hwait | hexit | hfault
    · exact Or.inl hwait
    · exact Or.inr (Or.inl hexit)
    · exact absurd hfault (h.inv.workers w).noFault
  · by_contra hne
    exact hw ⟨hstep, fun hspins => hne (Or.inr (Or.inr hspins))⟩

/-- The output worker, when it is not helpful, waits for the round to end, has returned, or spins. -/
theorem output_idle (hw : ¬Helpful c s .output) :
    s.output.pc.wait = some s.shared.barrier.round ∨ s.output.pc = .exit ∨ s.output.Spins s.shared := by
  by_cases hstep : outputStep false s.shared s.output = none
  · rcases outputStep_none hstep with hwait | hexit | ⟨hsleep, hne⟩
    · exact Or.inl hwait
    · exact Or.inr (Or.inl hexit)
    · exact Or.inr (Or.inr ⟨Or.inl hsleep, hne⟩)
  · by_contra hne
    exact hw ⟨hstep, fun hspins => hne (Or.inr (Or.inr hspins))⟩

/-- The rounds a worker has passed, when it is not helpful: all that are over. -/
theorem ProgressInv.worker_passed (h : ProgressInv c s) {w : Fin T} (hw : ¬Helpful c s (.worker w)) :
    2 * (s.worker w).iter + (s.worker w).pc.half = s.shared.barrier.round := by
  have hfree := h.inv.agree.synced.free (.worker w)
  rcases h.worker_idle hw with hwait | hexit | ⟨⟨j, hj⟩, -⟩
  · exact (h.inv.agree.synced.held (.worker w) _ hwait).1
  · exact hfree (by simp [ProtocolState.view, Worker.view, hexit, WorkerPc.wait])
  · exact hfree (by simp [ProtocolState.view, Worker.view, hj, WorkerPc.wait])

/-- The rounds the output worker has passed, when it is not helpful: all that are over. -/
theorem ProgressInv.output_passed (h : ProgressInv c s) (hw : ¬Helpful c s .output) :
    2 * s.output.iter + s.output.pc.half = s.shared.barrier.round := by
  have hfree := h.inv.agree.synced.free .output
  rcases output_idle hw with hwait | hexit | ⟨hticks | hticks, -⟩
  · exact (h.inv.agree.synced.held .output _ hwait).1
  · exact hfree (by simp [ProtocolState.view, Output.view, hexit, OutputPc.wait])
  · exact hfree (by simp [ProtocolState.view, Output.view, hticks, OutputPc.wait])
  · exact hfree (by simp [ProtocolState.view, Output.view, hticks, OutputPc.wait])

theorem WorkerPc.half_le (pc : WorkerPc) : pc.half ≤ 1 := by
  cases pc <;> simp [WorkerPc.half]

theorem OutputPc.half_le (pc : OutputPc) : pc.half ≤ 1 := by
  cases pc <;> simp [OutputPc.half]

/-- A worker that is not helpful has returned, or has completed the stage of its iteration. -/
theorem ProgressInv.worker_stuck (h : ProgressInv c s) {w : Fin T} (hw : ¬Helpful c s (.worker w)) :
    ((s.worker w).pc = .exit ∧ (s.worker w).iter = c.stages.length) ∨
      ((s.worker w).iter < c.stages.length ∧ (s.worker w).completions = (s.worker w).iter + 1) := by
  have hok := h.inv.workers w
  have hdone : (s.worker w).pc = .exit ∨ ((s.worker w).pc ≠ .top ∧ (s.worker w).pc.done = 1) := by
    rcases h.worker_idle hw with hwait | hexit | ⟨⟨j, hj⟩, -⟩
    · right
      cases hpc : (s.worker w).pc <;> simp [hpc, WorkerPc.wait, WorkerPc.done] at hwait ⊢
    · exact Or.inl hexit
    · right
      simp [hj, WorkerPc.done]
  by_cases hexit : (s.worker w).pc = .exit
  · exact Or.inl ⟨hexit, hok.exit hexit⟩
  · obtain ⟨htop, hd⟩ := hdone.resolve_left hexit
    exact Or.inr ⟨hok.inLoop htop hexit, by rw [hok.completions, hd]⟩

/-- The output worker, when it is not helpful, has returned or has completed the stage of its iteration. -/
theorem ProgressInv.output_stuck (h : ProgressInv c s) (hw : ¬Helpful c s .output) :
    (s.output.pc = .exit ∧ s.output.iter = c.stages.length) ∨
      (s.output.iter < c.stages.length ∧ s.output.completions = s.output.iter + 1) := by
  have hok := h.inv.output
  have hdone : s.output.pc = .exit ∨ (s.output.pc ≠ .check ∧ s.output.pc.done = 1) := by
    rcases output_idle hw with hwait | hexit | ⟨hticks | hticks, -⟩
    · right
      cases hpc : s.output.pc <;> simp [hpc, OutputPc.wait, OutputPc.done] at hwait ⊢
    · exact Or.inl hexit
    · right
      simp [hticks, OutputPc.done]
    · right
      simp [hticks, OutputPc.done]
  by_cases hexit : s.output.pc = .exit
  · exact Or.inl ⟨hexit, hok.exit hexit⟩
  · obtain ⟨hcheck, hd⟩ := hdone.resolve_left hexit
    exact Or.inr ⟨hok.inLoop hcheck hexit, by rw [hok.completions, hd]⟩

/-- While the coordinator waits for the others to complete the stage, one of them is helpful. -/
theorem ProgressInv.helpful_of_waiting (h : ProgressInv c s) (hpc : s.coord.pc = .waiting) (hu : s.shared.unfinishedThreads ≠ 0) :
    ∃ p, Helpful c s p := by
  by_contra hnone
  have hno : ∀ p, ¬Helpful c s p := not_exists.mp hnone
  have hround := h.inv.agree.synced.free .coord (by simp [ProtocolState.view, Coord.view, hpc, CoordPc.wait])
  have hopen : s.coord.opened = s.coord.iter := by simp [Coord.opened, hpc, CoordPc.ahead]
  have hloop := h.inv.coord.inLoop
  simp only [ProtocolState.view, Coord.view, hpc, CoordPc.half, Nat.add_zero] at hround
  -- the counter is not zero, so one of the parties has not completed the stage
  have hpos : (Finset.univ.filter fun p => (s.view p).completions ≤ s.coord.opened).Nonempty := by
    rw [← Finset.card_pos]
    have := h.inv.agree.counted
    omega
  obtain ⟨p, hp⟩ := hpos
  simp only [Finset.mem_filter, Finset.mem_univ, true_and, hopen] at hp
  cases p with
  | worker w =>
    have hpassed := h.worker_passed (hno (.worker w))
    have hhalf := (s.worker w).pc.half_le
    simp only [ProtocolState.view, Worker.view] at hp
    rcases h.worker_stuck (hno (.worker w)) with ⟨-, hiter⟩ | ⟨-, hcomp⟩
    · omega
    · omega
  | output =>
    have hpassed := h.output_passed (hno .output)
    have hhalf := s.output.pc.half_le
    simp only [ProtocolState.view, Output.view] at hp
    rcases h.output_stuck (hno .output) with ⟨-, hiter⟩ | ⟨-, hcomp⟩
    · omega
    · omega
  | coord =>
    have hcomp := h.inv.coord.completions
    simp only [hpc, CoordPc.done] at hcomp
    simp only [ProtocolState.view, Coord.view] at hp
    omega

/-- A coordinator that waits at the barrier has halted the threads, and they have completed the stage, or it is between the two
barriers. -/
theorem CoordPc.wait_cases {pc : CoordPc} (h : pc.wait ≠ none) :
    (pc.half = 0 ∧ pc.drained = true ∧ ∀ i, pc.working i = false) ∨ pc.half = 1 := by
  cases pc with
  | wait1 r => exact Or.inl ⟨rfl, rfl, fun _ => rfl⟩
  | wait2 r => exact Or.inr rfl
  | waitEnd r => exact Or.inr rfl
  | _ => exact absurd rfl h

/-- While the coordinator waits at the barrier, a party that has not arrived is helpful. -/
theorem ProgressInv.helpful_of_wait (h : ProgressInv c s) (hwait : s.coord.pc.wait = some s.shared.barrier.round) :
    ∃ p, Helpful c s p := by
  by_contra hnone
  have hno : ∀ p, ¬Helpful c s p := not_exists.mp hnone
  have hpassed := (h.inv.agree.synced.held .coord _ hwait).1
  have hloop := h.inv.coord.inLoop
  simp only [ProtocolState.view, Coord.view] at hpassed
  have hwaits : s.coord.pc.wait ≠ none := by
    rw [hwait]
    exact Option.some_ne_none _
  have hhalf := CoordPc.wait_cases hwaits
  obtain ⟨p, hp⟩ := h.inv.agree.synced.exists_absent h.notAll
  cases p with
  | worker w =>
    have hpassed' := h.worker_passed (hno (.worker w))
    rcases h.worker_idle (hno (.worker w)) with hw | hexit | ⟨⟨j, hj⟩, hwork⟩
    · exact hp hw
    · have hiter := (h.inv.workers w).exit hexit
      simp only [hexit, WorkerPc.half] at hpassed'
      rcases hhalf with ⟨hzero, -, -⟩ | hone <;> omega
    · simp only [hj, WorkerPc.half] at hpassed'
      rcases hhalf with ⟨-, -, hhalted⟩ | hone
      · rw [h.inv.coord.doWork, hhalted] at hwork
        cases hwork
      · omega
  | output =>
    have hpassed' := h.output_passed (hno .output)
    rcases output_idle (hno .output) with hw | hexit | ⟨hticks, hne⟩
    · exact hp hw
    · have hiter := h.inv.output.exit hexit
      simp only [hexit, OutputPc.half] at hpassed'
      rcases hhalf with ⟨hzero, -, -⟩ | hone <;> omega
    · have hfirst : s.output.pc.half = 0 := by
        rcases hticks with hticks | hticks <;> rw [hticks] <;> rfl
      rcases hhalf with ⟨-, hdrained, -⟩ | hone
      · exact hne (h.inv.drained hdrained)
      · omega
  | coord => exact hp hwait

/-- Once the coordinator has returned, the others find that the run is over. -/
theorem ProgressInv.ended_of_exit (h : ProgressInv c s) (hpc : s.coord.pc = .exit) (hno : ∀ p, ¬Helpful c s p) : s.Ended := by
  have hround := h.inv.agree.synced.free .coord (by simp [ProtocolState.view, Coord.view, hpc, CoordPc.wait])
  have hlast := h.inv.coord.ends (by rw [hpc]; rfl)
  simp only [ProtocolState.view, Coord.view, hpc, CoordPc.half] at hround
  refine ⟨?_, ?_, hpc⟩
  · intro w
    have hpassed := h.worker_passed (hno (.worker w))
    have hhalf := (s.worker w).pc.half_le
    rcases h.worker_stuck (hno (.worker w)) with ⟨hexit, -⟩ | ⟨hlt, -⟩
    · exact hexit
    · omega
  · have hpassed := h.output_passed (hno .output)
    have hhalf := s.output.pc.half_le
    rcases h.output_stuck (hno .output) with ⟨hexit, -⟩ | ⟨hlt, -⟩
    · exact hexit
    · omega

/-- The protocol does not deadlock: as long as a process has not returned, one is helpful. -/
theorem ProgressInv.exists_helpful (h : ProgressInv c s) (hend : ¬s.Ended) : ∃ p, Helpful c s p := by
  by_cases hcoord : Helpful c s .coord
  · exact ⟨.coord, hcoord⟩
  · rcases coordStep_none (not_not.mp hcoord) with hwait | hexit | ⟨hwaiting, hu⟩
    · exact h.helpful_of_wait hwait
    · by_contra hnone
      exact hend (h.ended_of_exit hexit (not_exists.mp hnone))
    · exact h.helpful_of_waiting hwaiting hu

/-! ## Steps -/

/-- A step of a spinning process: nothing changes but the place of the output worker between two wake-ups. -/
structure Idle (s s' : ProtocolState T) : Prop where
  shared : s'.shared = s.shared
  worker : s'.worker = s.worker
  coord : s'.coord = s.coord
  output : s'.output = s.output ∨ (s.output.Spins s.shared ∧ s'.output.Spins s.shared)

theorem Move.notAll {n : Nat} {b b' : Barrier} {u u' : Int} {v v' : View} (hm : Move n b u v b' u' v') (h : b.arrived < b.count) :
    b'.arrived < b'.count := by
  cases hm with
  | quiet => exact h
  | complete _ _ _ => exact h
  | arrive _ => exact Barrier.arrive_lt h
  | leave _ _ _ => exact h

/-- The sum of the workers' ranks when one of them steps. -/
theorem sum_workerRank_lt {f : Fin T → Worker} {w : Fin T} {x : Worker} (h : workerRank c T w x < workerRank c T w (f w)) :
    ∑ v : Fin T, workerRank c T v (Function.update f w x v) < ∑ v : Fin T, workerRank c T v (f v) := by
  refine Finset.sum_lt_sum ?_ ⟨w, Finset.mem_univ w, ?_⟩
  · intro v _
    by_cases hv : v = w
    · subst hv
      simpa using h.le
    · simp [hv]
  · simpa using h

/-- Between two wake-ups the place of the output worker does not matter. -/
theorem OutputPc.ticks.stepsLeft_eq {pc : OutputPc} (h : pc.ticks) {u : Int} (hu : u ≠ 0) : pc.stepsLeft u = 8 := by
  rcases h with rfl | rfl
  · simp [OutputPc.stepsLeft, hu]
  · rfl

theorem ProgressInv.worker_step (hc : c.Fits T) (h : ProgressInv c s) {w : Fin T} {m : Shared T} {x : Worker}
    (hstep : workerStep c w s.shared (s.worker w) = some (m, x)) :
    ProgressInv c { s with shared := m, worker := Function.update s.worker w x } ∧
      (ProtocolState.rank c { s with shared := m, worker := Function.update s.worker w x } < s.rank c ∨
        ((s.worker w).Spins w s.shared ∧ m = s.shared ∧ x = s.worker w)) := by
  have hflags := h.inv.worker_flags w
  obtain ⟨hmove, -, -⟩ := workerStep_spec (h.inv.workers w) hflags hstep
  obtain ⟨hfits, hrank⟩ := workerStep_progress hc (h.inv.workers w) (h.fits w) hflags hstep
  refine ⟨⟨protocolInv_step h.inv (.worker w m x hstep), ?_, hmove.notAll h.notAll⟩, ?_⟩
  · intro v
    by_cases hv : v = w
    · subst hv
      simpa using hfits
    · simpa [hv] using h.fits v
  · rcases hrank with hlt | hspins
    · left
      have hsum := sum_workerRank_lt (f := s.worker) hlt
      have hout : outputRank c.stages.length m.unfinishedThreads s.output ≤
          outputRank c.stages.length s.shared.unfinishedThreads s.output :=
        outputRank_le fun hu => Or.inl (h.inv.stays_zero (p := .worker w) hmove hu)
      simp only [ProtocolState.rank]
      omega
    · exact Or.inr hspins

theorem ProgressInv.output_step (h : ProgressInv c s) {timeUp : Bool} {m : Shared T} {x : Output}
    (hstep : outputStep timeUp s.shared s.output = some (m, x)) :
    ProgressInv c { s with shared := m, output := x } ∧
      (ProtocolState.rank c { s with shared := m, output := x } < s.rank c ∨
        (s.output.Spins s.shared ∧ m = s.shared ∧ x.pc.ticks ∧ x = { s.output with pc := x.pc })) := by
  obtain ⟨hmove, -, -⟩ := outputStep_spec h.inv.output h.inv.output_flags hstep
  refine ⟨⟨protocolInv_step h.inv (.output timeUp m x hstep), h.fits, hmove.notAll h.notAll⟩, ?_⟩
  rcases outputStep_progress h.inv.output hstep with hlt | hspins
  · left
    simp only [ProtocolState.rank]
    omega
  · exact Or.inr hspins

theorem ProgressInv.coord_step (h : ProgressInv c s) {m : Shared T} {x : Coord} (hstep : coordStep c s.shared s.coord = some (m, x)) :
    ProgressInv c { s with shared := m, coord := x } ∧ ProtocolState.rank c { s with shared := m, coord := x } < s.rank c := by
  obtain ⟨-, hmove, -⟩ := coordStep_spec h.inv.coord hstep
  have hlt := coordStep_progress h.inv.coord hstep
  have hout : outputRank c.stages.length m.unfinishedThreads s.output ≤
      outputRank c.stages.length s.shared.unfinishedThreads s.output := by
    refine outputRank_le fun hu => ?_
    rcases hmove with ⟨hmove, -⟩ | ⟨hpc, -⟩
    · exact Or.inl (h.inv.stays_zero (p := .coord) hmove hu)
    · -- the reset of the counter finds the output worker at the barrier
      right
      have hround := h.inv.round_of_second_half (by rw [hpc]; rfl) (by rw [hpc]; rfl)
      have hat := (h.inv.odd_round_output hround).1
      intro hsleep
      rw [hsleep] at hat
      cases hat
  have hbarrier : m.barrier.arrived < m.barrier.count := by
    rcases hmove with ⟨hmove, -⟩ | ⟨-, hb, -⟩
    · exact hmove.notAll h.notAll
    · rw [hb]
      exact h.notAll
  refine ⟨⟨protocolInv_step h.inv (.coord m x hstep), h.fits, hbarrier⟩, ?_⟩
  simp only [ProtocolState.rank]
  omega

/-- Every step lowers the rank, or it is the idle step of a process that is not helpful. -/
theorem ProgressInv.next (hc : c.Fits T) (h : ProgressInv c s) {ch : Choice T} (hs : s.next c ch = some s') :
    ProgressInv c s' ∧ (s'.rank c < s.rank c ∨ (s'.rank c = s.rank c ∧ Idle s s' ∧ ¬Helpful c s ch.party)) := by
  cases ch with
  | worker w =>
    obtain ⟨⟨m, x⟩, hstep, rfl⟩ := Option.map_eq_some_iff.mp hs
    obtain ⟨hinv, hrank⟩ := h.worker_step hc hstep
    refine ⟨hinv, ?_⟩
    rcases hrank with hlt | ⟨hspins, rfl, rfl⟩
    · exact Or.inl hlt
    · right
      simp only [Function.update_eq_self]
      exact ⟨trivial, ⟨rfl, rfl, rfl, Or.inl rfl⟩, fun hhelp => hhelp.2 hspins⟩
  | output timeUp =>
    obtain ⟨⟨m, x⟩, hstep, rfl⟩ := Option.map_eq_some_iff.mp hs
    obtain ⟨hinv, hrank⟩ := h.output_step hstep
    refine ⟨hinv, ?_⟩
    rcases hrank with hlt | ⟨hspins, rfl, hticks, hx⟩
    · exact Or.inl hlt
    · right
      refine ⟨?_, ⟨rfl, rfl, rfl, Or.inr ⟨hspins, hticks, hspins.2⟩⟩, fun hhelp => hhelp.2 hspins⟩
      simp only [ProtocolState.rank, outputRank]
      rw [hspins.1.stepsLeft_eq hspins.2, hticks.stepsLeft_eq hspins.2, hx]
  | coord =>
    obtain ⟨⟨m, x⟩, hstep, rfl⟩ := Option.map_eq_some_iff.mp hs
    obtain ⟨hinv, hlt⟩ := h.coord_step hstep
    exact ⟨hinv, Or.inl hlt⟩

/-- Idle steps leave the helpful processes helpful. -/
theorem Helpful.of_idle {p : Party T} (hp : Helpful c s p) (hidle : Idle s s') : Helpful c s' p := by
  obtain ⟨hshared, hworker, hcoord, houtput⟩ := hidle
  cases p with
  | worker w =>
    simp only [Helpful, hshared, hworker]
    exact hp
  | output =>
    rcases houtput with hsame | ⟨hspins, -⟩
    · simp only [Helpful, hshared, hsame]
      exact hp
    · exact absurd hspins hp.2
  | coord =>
    simp only [Helpful, hshared, hcoord]
    exact hp

/-- A helpful process can step. -/
theorem Helpful.can_step {ch : Choice T} (hp : Helpful c s ch.party) : ∃ s', s.next c ch = some s' := by
  cases ch with
  | worker w =>
    obtain ⟨r, hr⟩ := Option.ne_none_iff_exists'.mp hp.1
    exact ⟨_, by rw [ProtocolState.next, hr, Option.map_some]⟩
  | output timeUp =>
    obtain ⟨r, hr⟩ := Option.ne_none_iff_exists'.mp hp.1
    have htimed : outputStep timeUp s.shared s.output ≠ none := by
      cases timeUp with
      | false => rw [hr]; exact Option.some_ne_none r
      | true =>
        unfold outputStep at hr ⊢
        split at hr <;> simp_all
    obtain ⟨r', hr'⟩ := Option.ne_none_iff_exists'.mp htimed
    exact ⟨_, by rw [ProtocolState.next, hr', Option.map_some]⟩
  | coord =>
    obtain ⟨r, hr⟩ := Option.ne_none_iff_exists'.mp hp
    exact ⟨_, by rw [ProtocolState.next, hr, Option.map_some]⟩

/-- The stage protocol makes progress. -/
theorem protocol_progress (hc : c.Fits T) :
    Fairness.Progress (ProtocolState.next c) Choice.party (ProgressInv c) (ProtocolState.Ended (T := T)) (ProtocolState.rank c)
      (fun p s => Helpful c s p) where
  inv s ch s' h hs := (h.next hc hs).1
  helpful s h hend := by
    obtain ⟨p, hp⟩ := h.exists_helpful hend
    cases p with
    | worker w => exact ⟨.worker w, hp⟩
    | output => exact ⟨.output false, hp⟩
    | coord => exact ⟨.coord, hp⟩
  lowers s ch h hp := by
    obtain ⟨s', hs'⟩ := hp.can_step
    rcases (h.next hc hs').2 with hlt | ⟨-, -, hnot⟩
    · exact ⟨s', hs', hlt⟩
    · exact absurd hp hnot
  keeps s ch s' p h hp hs := by
    rcases (h.next hc hs).2 with hlt | ⟨heq, hidle, -⟩
    · exact Or.inl hlt
    · exact Or.inr ⟨heq, hp.of_idle hidle⟩

theorem progressInv_init (c : RunConfig) (T : Nat) : ProgressInv c (ProtocolState.init T) :=
  ⟨protocolInv_init c T, fun _ => trivial, Nat.succ_pos _⟩

/-- Whatever the stages, the number of workers and the schedule: if no process that can step is neglected for ever, all processes
return, and then every worker has executed every stage in order. -/
theorem stage_protocol_ends (c : RunConfig) (T : Nat) (hc : c.Fits T) (sched : Nat → Choice T)
    (hfair : Fairness.WeaklyFair (ProtocolState.next c) Choice.party (ProtocolState.init T) sched) :
    ∃ n, let s := Fairness.states (ProtocolState.next c) (ProtocolState.init T) sched n
      s.Ended ∧ ∀ w, (s.worker w).log = List.range c.stages.length := by
  have hprogress := protocol_progress (T := T) hc
  obtain ⟨n, hend⟩ := hprogress.eventually (progressInv_init c T) hfair
  refine ⟨n, hend, ?_⟩
  intro w
  have hinv : ProgressInv c (Fairness.states (ProtocolState.next c) (ProtocolState.init T) sched n) :=
    Fairness.inv_states hprogress.inv (progressInv_init c T) n
  have hok := hinv.inv.workers w
  rw [hok.log, hok.exit (hend.workers w), hend.workers w]
  rfl

/-- A stage that inserts two keys and a stage that reads and updates them. -/
def insertThenUpdate : RunConfig where
  stages := [Stage.ofWorkload ⟨.i, .num 0, .num 0, .num 100, .num 100⟩ 1 3,
    Stage.ofWorkload ⟨.ru, .num 50, .num 0, .num 100, .num 100⟩ 1 3]
  nonempty := List.cons_ne_nil _ _

/-- Two workers, the output worker and the coordinator by turns. -/
def byTurns (n : Nat) : Choice 2 :=
  match n % 4 with
  | 0 => .worker ⟨0, Nat.two_pos⟩
  | 1 => .worker ⟨1, Nat.lt_succ_self 1⟩
  | 2 => .output true
  | _ => .coord

theorem byTurns_party (p : Party 2) (n : Nat) : ∃ m, n ≤ m ∧ (byTurns m).party = p := by
  have hmod : ∀ i < 4, (4 * n + i) % 4 = i := by
    intro i hi
    omega
  cases p with
  | worker w =>
    obtain ⟨w, hw⟩ := w
    obtain rfl | rfl : w = 0 ∨ w = 1 := by omega
    · exact ⟨4 * n + 0, by omega, by rw [byTurns, hmod 0 (by decide)]; rfl⟩
    · exact ⟨4 * n + 1, by omega, by rw [byTurns, hmod 1 (by decide)]; rfl⟩
  | output => exact ⟨4 * n + 2, by omega, by rw [byTurns, hmod 2 (by decide)]; rfl⟩
  | coord => exact ⟨4 * n + 3, by omega, by rw [byTurns, hmod 3 (by decide)]; rfl⟩

/-- The two stages come to their end under the schedule by turns. -/
theorem stage_protocol_ends_by_turns :
    ∃ n, let s := Fairness.states (ProtocolState.next insertThenUpdate) (ProtocolState.init 2) byTurns n
      s.Ended ∧ ∀ w, (s.worker w).log = [0, 1] := by
  have hfits : insertThenUpdate.Fits 2 := by
    intro st hst hlinear
    simp only [insertThenUpdate, List.mem_cons, List.not_mem_nil, or_false] at hst
    rcases hst with rfl | rfl
    · exact ⟨by decide, by decide, by decide, by decide, by decide, by decide⟩
    · exact absurd hlinear (by decide)
  refine stage_protocol_ends insertThenUpdate 2 hfits byTurns ?_
  intro p n
  obtain ⟨m, hle, hm⟩ := byTurns_party p n
  exact ⟨m, hle, Or.inl hm⟩

end AerospikeBenchmark
