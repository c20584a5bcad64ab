import AerospikeBenchmark.Lemmas.StageInvariant
import AerospikeBenchmark.Lib.Fairness
import AerospikeBenchmark.Theorems.LinearStages
import Mathlib.Algebra.Order.BigOperators.Group.Finset

/-!
# The progress of the stage protocol

Each process has a rank: how many steps are left to it at most, when nobody keeps it waiting. A step lowers the rank of the process
that takes it and raises no other, but for the loops in which a process does nothing for the protocol: a worker that goes on with the
transactions of a random stage, and the output worker that wakes up once a second.
-/

namespace AerospikeBenchmark

variable {c : RunConfig} {T : Nat} {m m' : Shared T} {s : ProtocolState T}

/-! ## What a process finds -/

/-- The flags that a free worker finds in the first half of a stage. -/
theorem ProtocolInv.worker_flags (h : ProtocolInv c s) (w : Fin T) (hw : (s.worker w).pc.wait = none)
    (hhalf : (s.worker w).pc.half = 0) : FlagsAt c.stages.length s.shared w.castSucc (s.worker w).iter := by
  have hround := h.agree.synced.free (.worker w) hw
  simp only [ProtocolState.view, Worker.view, hhalf, Nat.add_zero] at hround
  exact h.flagsAt hround.symm _

/-- The flags that the output worker finds when it is free in the first half of a stage. -/
theorem ProtocolInv.output_flags (h : ProtocolInv c s) (hw : s.output.pc.wait = none) (hhalf : s.output.pc.half = 0) :
    FlagsAt c.stages.length s.shared (Fin.last T) s.output.iter := by
  have hround := h.agree.synced.free .output hw
  simp only [ProtocolState.view, Output.view, hhalf, Nat.add_zero] at hround
  exact h.flagsAt hround.symm _

/-- What a move of another process does to a counter that is zero. -/
theorem ProtocolInv.stays_zero (h : ProtocolInv c s) {p : Party T} {b' : Barrier} {u' : Int} {v' : View}
    (hm : Move c.stages.length s.shared.barrier s.shared.unfinishedThreads (s.view p) b' u' v')
    (hu : s.shared.unfinishedThreads = 0) : u' = 0 := by
  have hagree := h.agree
  rw [hu] at hagree hm
  exact hagree.move_zero h.completes hm

/-- A party that has not completed the stage keeps the counter from zero. -/
theorem ProtocolInv.unfinished (h : ProtocolInv c s) {p : Party T} (hp : (s.view p).completions ≤ s.coord.opened) :
    s.shared.unfinishedThreads ≠ 0 := by
  have hpos : 0 < (Finset.univ.filter fun q => (s.view q).completions ≤ s.coord.opened).card :=
    Finset.card_pos.mpr ⟨p, by simp [hp]⟩
  have := h.agree.counted
  omega

/-- A coordinator for whose stage not all parties have completed lets the threads work, unless it is about to release them. -/
theorem CoordPc.working_of_undrained {pc : CoordPc} (h : pc.drained = false) :
    (∀ i, pc.working i = true) ∨ (pc.wait = none ∧ pc.half = 1) := by
  cases pc <;> simp [CoordPc.drained, CoordPc.working, CoordPc.wait, CoordPc.half] at h ⊢

/-- A worker that has not completed its stage may work. -/
theorem ProtocolInv.may_work (h : ProtocolInv c s) {w : Fin T} (hw : (s.worker w).pc.wait = none) (hhalf : (s.worker w).pc.half = 0)
    (hdone : (s.worker w).pc.done = 0) (hlt : (s.worker w).iter < c.stages.length) : s.shared.doWork w.castSucc = true := by
  have hround := h.agree.synced.free (.worker w) hw
  simp only [ProtocolState.view, Worker.view, hhalf, Nat.add_zero] at hround
  have hcomp := (h.workers w).completions
  rw [hdone, Nat.add_zero] at hcomp
  have hopen : s.coord.opened = (s.worker w).iter := by
    rcases h.even_round hround.symm with ⟨-, hopen, -⟩ | ⟨hend, -⟩
    · exact hopen
    · omega
  have hne := h.unfinished (p := .worker w) (by simp only [ProtocolState.view, Worker.view]; omega)
  have hundrained : s.coord.pc.drained = false := by
    by_contra hd
    exact hne (h.drained (by simpa using hd))
  rcases CoordPc.working_of_undrained hundrained with hwork | ⟨hcw, hch⟩
  · rw [h.coord.doWork, hwork]
  · have := h.round_of_second_half hcw hch
    omega

/-! ## Workers -/

/-- The batch size of stage `j`. -/
def RunConfig.batch (c : RunConfig) (j : Nat) : Nat := (c.stages[j]?.map Stage.linearBatchSize).getD 1

/-- The linear stages keep within the bounds of 64-bit arithmetic. -/
def RunConfig.Fits (c : RunConfig) (T : Nat) : Prop :=
  ∀ st ∈ c.stages, st.workload.type = .i ∨ st.workload.type = .d → LinearBounds st T

/-- The loop of a linear routine does not wrap around at the end of its range. -/
def WorkerPc.Fits (c : RunConfig) : WorkerPc → Prop
  | .linear j _ endKey => 1 ≤ c.batch j ∧ endKey + c.batch j ≤ 2 ^ 64
  | _ => True

/-- The keys left to a linear routine. -/
def WorkerPc.keysLeft : WorkerPc → Nat
  | .linear _ key endKey => endKey - key
  | _ => 0

/-- The steps left in an iteration, the loop of a linear routine apart. -/
def WorkerPc.stepsLeft : WorkerPc → Nat
  | .top => 12
  | .readStage => 11
  | .linear _ _ _ => 10
  | .completeLast _ | .completeFirst _ => 9
  | .random _ => 8
  | .drain _ => 7
  | .check _ => 6
  | .arrive1 => 5
  | .wait1 _ => 4
  | .arrive2 => 3
  | .wait2 _ => 2
  | .exit | .fault => 0

/-- The keys that stage `j` gives to worker `w`. -/
def RunConfig.keys (c : RunConfig) (T w j : Nat) : Nat := (c.stages[j]?.map fun st => (beginStage T st w j).keysLeft).getD 0

/-- The keys left in an iteration. -/
def Worker.keysLeft (c : RunConfig) (T w : Nat) (x : Worker) : Nat :=
  match x.pc with
  | .top | .readStage => c.keys T w x.iter
  | pc => pc.keysLeft

/-- The steps of the iterations from `k` on. The last iteration finds that the run is over. -/
def RunConfig.ahead (c : RunConfig) (T w k : Nat) : Nat := ∑ j ∈ Finset.Ico k (c.stages.length + 1), (12 + c.keys T w j)

/-- The rank of a worker. -/
def workerRank (c : RunConfig) (T w : Nat) (x : Worker) : Nat :=
  x.pc.stepsLeft + x.keysLeft c T w + c.ahead T w (x.iter + 1)

theorem RunConfig.ahead_succ {w k : Nat} (hk : k ≤ c.stages.length) :
    c.ahead T w k = 12 + c.keys T w k + c.ahead T w (k + 1) :=
  Finset.sum_eq_sum_Ico_succ_bot (Nat.lt_succ_of_le hk) _

/-- A step inside an iteration, towards its end. -/
theorem workerRank_lt {w : Nat} {x x' : Worker} (hiter : x'.iter = x.iter) (hsteps : x'.pc.stepsLeft < x.pc.stepsLeft)
    (hkeys : x'.keysLeft c T w ≤ x.keysLeft c T w) : workerRank c T w x' < workerRank c T w x := by
  unfold workerRank
  rw [hiter]
  omega

theorem RunConfig.keys_eq {w j : Nat} {st : Stage} (h : c.stages[j]? = some st) :
    c.keys T w j = (beginStage T st w j).keysLeft := by
  simp [RunConfig.keys, h]

theorem RunConfig.batch_eq {j : Nat} {st : Stage} (h : c.stages[j]? = some st) : c.batch j = st.linearBatchSize := by
  simp [RunConfig.batch, h]

/-- The work on a stage begins with a linear routine that keeps within the bounds, or with something else. -/
theorem beginStage_fits (hc : c.Fits T) {w j : Nat} (hw : w < T) {st : Stage} (hst : c.stages[j]? = some st) :
    (beginStage T st w j).Fits c ∧ (beginStage T st w j).stepsLeft ≤ 10 := by
  have hmem : st ∈ c.stages := List.mem_of_getElem? hst
  have hlinear : ∀ key endKey, (st.workload.type = .i ∨ st.workload.type = .d) → endKey ≤ st.keyEnd →
      (WorkerPc.linear j key endKey).Fits c := by
    intro key endKey htype hend
    have hb := hc st hmem htype
    have hadd := hb.noWrapAdd
    refine ⟨?_, ?_⟩
    · rw [RunConfig.batch_eq hst]
      exact hb.batch
    · rw [RunConfig.batch_eq hst]
      omega
  have hsub : (st.workload.type = .i ∨ st.workload.type = .d) → st.tEnd T w ≤ st.keyEnd := by
    intro htype
    have hb := hc st hmem htype
    have hcut := cut_le hb.workers.1 (by omega : w + 1 ≤ T) st.keyStart (st.keyEnd - st.keyStart)
    have hkeys := hb.keys
    rw [(hb.subrange hw).2]
    omega
  unfold beginStage
  split
  · exact ⟨trivial, Nat.le_succ 9⟩
  · split
    · rename_i htype
      split
      · exact ⟨hlinear _ _ (Or.inl htype) le_rfl, le_rfl⟩
      · exact ⟨hlinear _ _ (Or.inl htype) (hsub (Or.inl htype)), le_rfl⟩
    · rename_i htype
      split
      · exact ⟨hlinear _ _ (Or.inr htype) le_rfl, le_rfl⟩
      · exact ⟨hlinear _ _ (Or.inr htype) (hsub (Or.inr htype)), le_rfl⟩
    all_goals exact ⟨trivial, Nat.le_succ 9⟩

/-- A worker in the loop of a random stage that it may go on with. -/
def Worker.Spins (w : Fin T) (m : Shared T) (x : Worker) : Prop := (∃ j, x.pc = .random j) ∧ m.doWork w.castSucc = true

/-- The end of the work on a stage comes after every place of the work. -/
theorem endStage_progress {w j iter completions completions' : Nat} {pc : WorkerPc} {log : List Nat} {P : Prop} (hpc : 8 ≤ pc.stepsLeft) :
    (endStage c w j).Fits c ∧
      (workerRank c T w ⟨endStage c w j, iter, completions', log⟩ < workerRank c T w ⟨pc, iter, completions, log⟩ ∨ P) := by
  rcases endStage_cases c w j with he | he
  · rw [he]
    exact ⟨trivial, Or.inl (workerRank_lt rfl (Nat.lt_of_lt_of_le (Nat.lt_succ_self 7) hpc) (Nat.zero_le _))⟩
  · rw [he]
    exact ⟨trivial, Or.inl (workerRank_lt rfl (Nat.lt_of_lt_of_le (by decide : 6 < 8) hpc) (Nat.zero_le _))⟩

/-- What a step of a worker does for the protocol: its rank falls, unless it spins. It stays within the bounds. -/
theorem workerStep_progress (hc : c.Fits T) {w : Fin T} {x x' : Worker} (hok : WorkerOk c.stages.length x) (hfits : x.pc.Fits c)
    (hflags : x.pc.wait = none → x.pc.half = 0 → FlagsAt c.stages.length m w.castSucc x.iter)
    (h : workerStep c w m x = some (m', x')) :
    x'.pc.Fits c ∧ (workerRank c T w x' < workerRank c T w x ∨ (x.Spins w m ∧ m' = m ∧ x' = x)) := by
  obtain ⟨pc, iter, completions, log⟩ := x
  have hloop := hok.inLoop
  simp only at hloop hfits hflags
  cases pc with
  | top =>
    simp only [workerStep, Option.some.injEq, Prod.mk.injEq] at h
    obtain ⟨-, rfl⟩ := h
    split
    · exact ⟨trivial, Or.inl (workerRank_lt rfl (Nat.succ_pos 11) (Nat.zero_le _))⟩
    · exact ⟨trivial, Or.inl (workerRank_lt rfl (Nat.lt_succ_self 11) le_rfl)⟩
  | readStage =>
    have hlt : iter < c.stages.length := hloop (by simp) (by simp)
    rcases hflags rfl rfl with ⟨-, hidx, -⟩ | ⟨rfl, -⟩
    · have hst : c.stages[iter]? = some c.stages[iter] := List.getElem?_eq_getElem hlt
      simp only [workerStep, hidx, hst, Option.some.injEq, Prod.mk.injEq] at h
      obtain ⟨-, rfl⟩ := h
      obtain ⟨hfits', hsteps⟩ := beginStage_fits hc w.isLt hst
      have hkeys : c.keys T w iter = (beginStage T c.stages[iter] w iter).keysLeft := RunConfig.keys_eq hst
      refine ⟨hfits', Or.inl (workerRank_lt rfl (Nat.lt_succ_of_le hsteps) ?_)⟩
      rcases beginStage_cases T c.stages[iter] w iter with ⟨key, endKey, he⟩ | he | he
      · simp only [Worker.keysLeft, he, hkeys, le_refl]
      · simp only [Worker.keysLeft, he, hkeys, le_refl]
      · simp only [Worker.keysLeft, he, hkeys, le_refl]
    · exact absurd hlt (Nat.lt_irrefl _)
  | linear j key endKey =>
    simp only [workerStep] at h
    split at h <;> simp only [Option.some.injEq, Prod.mk.injEq] at h <;> obtain ⟨-, rfl⟩ := h
    · rename_i hkey
      refine ⟨hfits, Or.inl ?_⟩
      have hbatch := hfits.1
      have hbody := linearBody_eq hfits.1 (by have := hfits.2; omega : key + c.batch j < 2 ^ 64)
      unfold RunConfig.batch at hbody hbatch
      simp only [workerRank, WorkerPc.stepsLeft, Worker.keysLeft, WorkerPc.keysLeft, hbody]
      omega
    · exact ⟨trivial, Or.inl (workerRank_lt rfl (Nat.lt_succ_self 9) (Nat.zero_le _))⟩
  | completeLast j =>
    simp only [workerStep, Option.some.injEq, Prod.mk.injEq] at h
    obtain ⟨-, rfl⟩ := h
    exact endStage_progress (by simp [WorkerPc.stepsLeft])
  | completeFirst j =>
    simp only [workerStep, Option.some.injEq, Prod.mk.injEq] at h
    obtain ⟨-, rfl⟩ := h
    exact ⟨trivial, Or.inl (workerRank_lt rfl (Nat.lt_succ_self 8) le_rfl)⟩
  | random j =>
    simp only [workerStep, Option.some.injEq, Prod.mk.injEq] at h
    obtain ⟨rfl, rfl⟩ := h
    split
    · rename_i hwork
      exact ⟨trivial, Or.inr ⟨⟨⟨j, rfl⟩, hwork⟩, rfl, rfl⟩⟩
    · exact endStage_progress (by simp [WorkerPc.stepsLeft])
  | drain j =>
    simp only [workerStep, Option.some.injEq, Prod.mk.injEq] at h
    obtain ⟨-, rfl⟩ := h
    exact ⟨trivial, Or.inl (workerRank_lt rfl (Nat.lt_succ_self 6) le_rfl)⟩
  | check j =>
    simp only [workerStep, Option.some.injEq, Prod.mk.injEq] at h
    obtain ⟨-, rfl⟩ := h
    split
    · exact ⟨trivial, Or.inl (workerRank_lt rfl (Nat.succ_pos 5) le_rfl)⟩
    · exact ⟨trivial, Or.inl (workerRank_lt rfl (Nat.lt_succ_self 5) le_rfl)⟩
  | arrive1 =>
    simp only [workerStep, Option.some.injEq, Prod.mk.injEq] at h
    obtain ⟨-, rfl⟩ := h
    exact ⟨trivial, Or.inl (workerRank_lt rfl (Nat.lt_succ_self 4) le_rfl)⟩
  | wait1 r =>
    simp only [workerStep, Option.ite_none_left_eq_some, Option.some.injEq, Prod.mk.injEq] at h
    obtain ⟨-, -, rfl⟩ := h
    exact ⟨trivial, Or.inl (workerRank_lt rfl (Nat.lt_succ_self 3) le_rfl)⟩
  | arrive2 =>
    simp only [workerStep, Option.some.injEq, Prod.mk.injEq] at h
    obtain ⟨-, rfl⟩ := h
    exact ⟨trivial, Or.inl (workerRank_lt rfl (Nat.lt_succ_self 2) le_rfl)⟩
  | wait2 r =>
    have hlt : iter < c.stages.length := hloop (by simp) (by simp)
    simp only [workerStep, Option.ite_none_left_eq_some, Option.some.injEq, Prod.mk.injEq] at h
    obtain ⟨-, -, rfl⟩ := h
    refine ⟨trivial, Or.inl ?_⟩
    simp only [workerRank, WorkerPc.stepsLeft, Worker.keysLeft, WorkerPc.keysLeft, RunConfig.ahead_succ (by omega : iter + 1 ≤ c.stages.length)]
    omega
  | exit => simp [workerStep] at h
  | fault => simp [workerStep] at h

/-! ## The output worker -/

/-- The steps left in an iteration, when the counter of unfinished threads is `u`. A sleep lasts as long as the counter is not
zero, whatever the clock says. -/
def OutputPc.stepsLeft (u : Int) : OutputPc → Nat
  | .check => 10
  | .complete => 9
  | .top false => 8
  | .sleep => if u = 0 then 7 else 8
  | .top true => 6
  | .arrive1 => 5
  | .wait1 _ => 4
  | .arrive2 => 3
  | .wait2 _ => 2
  | .exit => 0

/-- The rank of the output worker in a run of `n` stages. -/
def outputRank (n : Nat) (u : Int) (x : Output) : Nat := x.pc.stepsLeft u + 11 * (n - x.iter)

/-- The output worker between two wake-ups. -/
def OutputPc.ticks (pc : OutputPc) : Prop := pc = .sleep ∨ pc = .top false

/-- The output worker has nothing to do but to wake up once a second. -/
def Output.Spins (m : Shared T) (x : Output) : Prop := x.pc.ticks ∧ m.unfinishedThreads ≠ 0

/-- What a step of the output worker does for the protocol: its rank falls, unless it spins. -/
theorem outputStep_progress {n : Nat} {timeUp : Bool} {x x' : Output} (hok : OutputOk n x)
    (h : outputStep timeUp m x = some (m', x')) :
    outputRank n m'.unfinishedThreads x' < outputRank n m.unfinishedThreads x ∨
      (x.Spins m ∧ m' = m ∧ x'.pc.ticks ∧ x' = { x with pc := x'.pc }) := by
  obtain ⟨pc, iter, completions⟩ := x
  have hloop := hok.inLoop
  simp only at hloop
  cases pc with
  | complete =>
    simp only [outputStep, Option.some.injEq, Prod.mk.injEq] at h
    obtain ⟨rfl, rfl⟩ := h
    left
    simp only [outputRank, OutputPc.stepsLeft]
    split <;> omega
  | sleep =>
    simp only [outputStep] at h
    split at h
    · rename_i hzero
      simp only [Option.some.injEq, Prod.mk.injEq] at h
      obtain ⟨rfl, rfl⟩ := h
      left
      simp only [outputRank, OutputPc.stepsLeft, hzero, if_true]
      omega
    · rename_i hne
      split at h
      · simp only [Option.some.injEq, Prod.mk.injEq] at h
        obtain ⟨rfl, rfl⟩ := h
        exact Or.inr ⟨⟨Or.inl rfl, hne⟩, rfl, Or.inr rfl, rfl⟩
      · cases h
  | top interrupted =>
    simp only [outputStep, Option.some.injEq, Prod.mk.injEq] at h
    obtain ⟨rfl, rfl⟩ := h
    by_cases hfin : m.finished (Fin.last T) = true
    · left
      simp only [hfin, if_true, outputRank]
      cases interrupted <;> simp only [OutputPc.stepsLeft] <;> omega
    · simp only [hfin, Bool.false_eq_true, if_false]
      cases interrupted with
      | true =>
        left
        simp only [if_true, outputRank, OutputPc.stepsLeft]
        omega
      | false =>
        by_cases hzero : m.unfinishedThreads = 0
        · left
          simp only [Bool.false_eq_true, if_false, outputRank, OutputPc.stepsLeft, hzero, if_true]
          omega
        · exact Or.inr ⟨⟨Or.inr rfl, hzero⟩, trivial, Or.inl rfl, trivial⟩
  | arrive1 =>
    simp only [outputStep, Option.some.injEq, Prod.mk.injEq] at h
    obtain ⟨-, rfl⟩ := h
    exact Or.inl (by simp only [outputRank, OutputPc.stepsLeft]; omega)
  | wait1 r =>
    simp only [outputStep, Option.ite_none_left_eq_some, Option.some.injEq, Prod.mk.injEq] at h
    obtain ⟨-, -, rfl⟩ := h
    exact Or.inl (by simp only [outputRank, OutputPc.stepsLeft]; omega)
  | arrive2 =>
    simp only [outputStep, Option.some.injEq, Prod.mk.injEq] at h
    obtain ⟨-, rfl⟩ := h
    exact Or.inl (by simp only [outputRank, OutputPc.stepsLeft]; omega)
  | wait2 r =>
    have hlt : iter < n := hloop (by simp) (by simp)
    simp only [outputStep, Option.ite_none_left_eq_some, Option.some.injEq, Prod.mk.injEq] at h
    obtain ⟨-, -, rfl⟩ := h
    exact Or.inl (by simp only [outputRank, OutputPc.stepsLeft]; omega)
  | check =>
    simp only [outputStep, Option.some.injEq, Prod.mk.injEq] at h
    obtain ⟨-, rfl⟩ := h
    left
    split <;> simp only [outputRank, OutputPc.stepsLeft] <;> omega
  | exit => simp [outputStep] at h

/-- The steps of the others do not raise the rank: they let the counter fall to zero, or set it while the output worker does not
sleep. -/
theorem outputRank_le {n : Nat} {u u' : Int} {x : Output} (h : u = 0 → u' = 0 ∨ x.pc ≠ .sleep) :
    outputRank n u' x ≤ outputRank n u x := by
  unfold outputRank
  apply Nat.add_le_add_right
  cases hpc : x.pc with
  | sleep =>
    rw [hpc] at h
    simp only [OutputPc.stepsLeft]
    split <;> split <;> simp_all
  | top interrupted => cases interrupted <;> exact le_rfl
  | _ => exact le_rfl

/-! ## The coordinator -/

/-- The steps left in an iteration with `n` threads. -/
def CoordPc.stepsLeft (n : Nat) : CoordPc → Nat
  | .sleep => 12 + 3 * n
  | .finish => 11 + 3 * n
  | .waiting => 10 + 3 * n
  | .halt i => 9 + 2 * n + (n - i)
  | .arrive1 => 8 + 2 * n
  | .wait1 _ => 7 + 2 * n
  | .advance => 6 + 2 * n
  | .setStage i => 5 + n + (n - i)
  | .reset => 4 + n
  | .release i | .terminate i => 3 + (n - i)
  | .arrive2 | .arriveEnd => 2
  | .wait2 _ | .waitEnd _ => 1
  | .exit => 0

/-- The rank of the coordinator. -/
def coordRank (c : RunConfig) (T : Nat) (x : Coord) : Nat :=
  x.pc.stepsLeft (T + 1) + (12 + 3 * (T + 1)) * (c.stages.length - x.iter)

/-- Every step of the coordinator lowers its rank. -/
theorem coordStep_progress {x x' : Coord} (hok : CoordOk c.stages.length m x) (h : coordStep c m x = some (m', x')) :
    coordRank c T x' < coordRank c T x := by
  obtain ⟨pc, stageIdx, iter, completions⟩ := x
  have hcont := hok.continues
  simp only at hcont
  have hfalls : ∀ {x' : Coord}, x'.iter = iter → x'.pc.stepsLeft (T + 1) < pc.stepsLeft (T + 1) →
      coordRank c T x' < coordRank c T ⟨pc, stageIdx, iter, completions⟩ := by
    intro x' hiter hlt
    unfold coordRank
    rw [hiter]
    exact Nat.add_lt_add_right hlt _
  cases pc with
  | sleep =>
    simp only [coordStep, Option.some.injEq, Prod.mk.injEq] at h
    obtain ⟨-, rfl⟩ := h
    exact hfalls rfl (by simp only [CoordPc.stepsLeft]; omega)
  | finish =>
    simp only [coordStep, Option.some.injEq, Prod.mk.injEq] at h
    obtain ⟨-, rfl⟩ := h
    exact hfalls rfl (by split <;> simp only [CoordPc.stepsLeft] <;> omega)
  | waiting =>
    simp only [coordStep] at h
    split at h
    · simp only [Option.some.injEq, Prod.mk.injEq] at h
      obtain ⟨-, rfl⟩ := h
      exact hfalls rfl (by simp only [CoordPc.stepsLeft]; omega)
    · cases h
  | halt i =>
    simp only [coordStep, overThreads, Option.some.injEq] at h
    split at h <;> obtain ⟨-, rfl⟩ := Prod.mk.injEq _ _ _ _ ▸ h <;> exact hfalls rfl (by simp only [CoordPc.stepsLeft]; omega)
  | arrive1 =>
    simp only [coordStep, Option.some.injEq, Prod.mk.injEq] at h
    obtain ⟨-, rfl⟩ := h
    exact hfalls rfl (by simp only [CoordPc.stepsLeft]; omega)
  | wait1 r =>
    simp only [coordStep, Option.ite_none_left_eq_some, Option.some.injEq, Prod.mk.injEq] at h
    obtain ⟨-, -, rfl⟩ := h
    exact hfalls rfl (by simp only [CoordPc.stepsLeft]; omega)
  | advance =>
    simp only [coordStep, Option.some.injEq, Prod.mk.injEq] at h
    obtain ⟨-, rfl⟩ := h
    exact hfalls rfl (by split <;> simp only [CoordPc.stepsLeft] <;> omega)
  | setStage i =>
    simp only [coordStep, overThreads, Option.some.injEq] at h
    split at h <;> obtain ⟨-, rfl⟩ := Prod.mk.injEq _ _ _ _ ▸ h <;> exact hfalls rfl (by simp only [CoordPc.stepsLeft]; omega)
  | reset =>
    simp only [coordStep, Option.some.injEq, Prod.mk.injEq] at h
    obtain ⟨-, rfl⟩ := h
    exact hfalls rfl (by simp only [CoordPc.stepsLeft]; omega)
  | release i =>
    simp only [coordStep, overThreads, Option.some.injEq] at h
    split at h <;> obtain ⟨-, rfl⟩ := Prod.mk.injEq _ _ _ _ ▸ h <;> exact hfalls rfl (by simp only [CoordPc.stepsLeft]; omega)
  | arrive2 =>
    simp only [coordStep, Option.some.injEq, Prod.mk.injEq] at h
    obtain ⟨-, rfl⟩ := h
    exact hfalls rfl (by simp only [CoordPc.stepsLeft]; omega)
  | wait2 r =>
    have hmore : iter + 1 < c.stages.length := hcont rfl
    simp only [coordStep, Option.ite_none_left_eq_some, Option.some.injEq, Prod.mk.injEq] at h
    obtain ⟨-, -, rfl⟩ := h
    have hsplit : c.stages.length - iter = (c.stages.length - (iter + 1)) + 1 := by omega
    simp only [coordRank, CoordPc.stepsLeft, hsplit, Nat.mul_succ]
    omega
  | terminate i =>
    simp only [coordStep, overThreads, Option.some.injEq] at h
    split at h <;> obtain ⟨-, rfl⟩ := Prod.mk.injEq _ _ _ _ ▸ h <;> exact hfalls rfl (by simp only [CoordPc.stepsLeft]; omega)
  | arriveEnd =>
    simp only [coordStep, Option.some.injEq, Prod.mk.injEq] at h
    obtain ⟨-, rfl⟩ := h
    exact hfalls rfl (by simp only [CoordPc.stepsLeft]; omega)
  | waitEnd r =>
    simp only [coordStep, Option.ite_none_left_eq_some, Option.some.injEq, Prod.mk.injEq] at h
    obtain ⟨-, -, rfl⟩ := h
    exact hfalls rfl (by simp only [CoordPc.stepsLeft]; omega)
  | exit => simp [coordStep] at h

end AerospikeBenchmark
