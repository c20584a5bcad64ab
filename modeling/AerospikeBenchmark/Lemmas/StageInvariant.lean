import AerospikeBenchmark.Lemmas.StageProtocol

/-!
# What each process does along a run

For each process an invariant of its own state, and that one step keeps it given what the process reads. A worker reads its flags
only in the first half of a stage, when `FlagsAt` holds: the flags are those of the stage, or of the end of the run.
-/

namespace AerospikeBenchmark

variable {c : RunConfig} {T : Nat} {m m' : Shared T}

/-- What thread `i` finds in the shared memory in the first half of stage `k` of `n`: stage `k` to do, or the end. -/
def FlagsAt (n : Nat) (m : Shared T) (i : Fin (T + 1)) (k : Nat) : Prop :=
  (k < n ∧ m.stageIdx i = k ∧ m.finished i = false) ∨ (k = n ∧ m.finished i = true)

/-- The flags and the stage indices of the threads are not written. -/
structure SameFlags (m m' : Shared T) : Prop where
  doWork : m'.doWork = m.doWork
  finished : m'.finished = m.finished
  stageIdx : m'.stageIdx = m.stageIdx

theorem SameFlags.refl (m : Shared T) : SameFlags m m := ⟨rfl, rfl, rfl⟩

/-! ## Workers -/

/-- The stage a worker is executing. -/
def WorkerPc.stage? : WorkerPc → Option Nat
  | .linear j _ _ | .completeLast j | .completeFirst j | .random j | .drain j | .check j => some j
  | _ => none

/-- Whether a worker has completed the stage of this iteration. -/
def WorkerPc.done : WorkerPc → Nat
  | .top | .readStage | .linear _ _ _ | .completeLast _ | .completeFirst _ | .exit | .fault => 0
  | _ => 1

/-- Whether a worker has begun the stage of this iteration. -/
def WorkerPc.begun : WorkerPc → Nat
  | .top | .readStage | .exit | .fault => 0
  | _ => 1

/-- The invariant of a worker in a run of `n` stages: in iteration `iter` it executes stage `iter`, completes it once and has begun
exactly the stages up to it, in order. -/
structure WorkerOk (n : Nat) (x : Worker) : Prop where
  stage : ∀ j, x.pc.stage? = some j → j = x.iter
  completions : x.completions = x.iter + x.pc.done
  log : x.log = List.range (x.iter + x.pc.begun)
  inLoop : x.pc ≠ .top → x.pc ≠ .exit → x.iter < n
  exit : x.pc = .exit → x.iter = n
  noFault : x.pc ≠ .fault

theorem beginStage_cases (T : Nat) (st : Stage) (w j : Nat) :
    (∃ key endKey, beginStage T st w j = .linear j key endKey) ∨ beginStage T st w j = .completeLast j ∨
      beginStage T st w j = .completeFirst j := by
  unfold beginStage
  split
  · exact Or.inr (Or.inl rfl)
  · split
    · split <;> exact Or.inl ⟨_, _, rfl⟩
    · split <;> exact Or.inl ⟨_, _, rfl⟩
    · exact Or.inr (Or.inr rfl)
    · exact Or.inr (Or.inr rfl)
    · exact Or.inr (Or.inr rfl)
    · exact Or.inr (Or.inr rfl)

theorem endStage_cases (c : RunConfig) (w j : Nat) : endStage c w j = .drain j ∨ endStage c w j = .check j := by
  unfold endStage
  split
  · exact Or.inl rfl
  · exact Or.inr rfl

/-- The invariant inside an iteration: what is left to check are the tables of the place the worker is at. -/
theorem WorkerOk.inside {n iter completions : Nat} {pc : WorkerPc} {log : List Nat} (hstage : ∀ j, pc.stage? = some j → j = iter)
    (hcomp : completions = iter + pc.done) (hlog : log = List.range (iter + pc.begun)) (hloop : iter < n) (hexit : pc ≠ .exit)
    (hfault : pc ≠ .fault) : WorkerOk n ⟨pc, iter, completions, log⟩ :=
  ⟨hstage, hcomp, hlog, fun _ _ => hloop, fun h => absurd h hexit, hfault⟩

/-- What one step of a worker does, given the flags it finds when it is free in the first half of a stage. -/
theorem workerStep_spec {w : Fin T} {x x' : Worker} (hok : WorkerOk c.stages.length x)
    (hflags : x.pc.wait = none → x.pc.half = 0 → FlagsAt c.stages.length m w.castSucc x.iter)
    (h : workerStep c w m x = some (m', x')) :
    Move c.stages.length m.barrier m.unfinishedThreads x.view m'.barrier m'.unfinishedThreads x'.view ∧ SameFlags m m' ∧
      WorkerOk c.stages.length x' := by
  obtain ⟨pc, iter, completions, log⟩ := x
  obtain ⟨hstage, hcomp, hlog, hloop, hexit, hfault⟩ := hok
  simp only at hstage hcomp hlog hloop hexit hfault hflags
  cases pc with
  | top =>
    simp only [workerStep, Option.some.injEq, Prod.mk.injEq] at h
    obtain ⟨rfl, rfl⟩ := h
    rcases hflags rfl rfl with ⟨hlt, -, hfin⟩ | ⟨rfl, hfin⟩
    · simp only [hfin, Bool.false_eq_true, if_false]
      exact ⟨.stay rfl, .refl m, .inside nofun hcomp hlog hlt nofun nofun⟩
    · simp only [hfin, if_true]
      exact ⟨.stay rfl, .refl m, ⟨nofun, hcomp, hlog, fun _ h => absurd rfl h, fun _ => rfl, nofun⟩⟩
  | readStage =>
    have hlt : iter < c.stages.length := hloop nofun nofun
    rcases hflags rfl rfl with ⟨-, hidx, -⟩ | ⟨rfl, -⟩
    · simp only [workerStep, hidx, List.getElem?_eq_getElem hlt, Option.some.injEq, Prod.mk.injEq] at h
      obtain ⟨rfl, rfl⟩ := h
      have hlog' : log ++ [iter] = List.range (iter + 1) := by
        rw [List.range_succ, hlog]
        rfl
      rcases beginStage_cases T c.stages[iter] w iter with ⟨key, endKey, he⟩ | he | he
      · rw [he]
        exact ⟨.stay rfl, .refl m, .inside (fun j hj => (Option.some.inj hj).symm) hcomp hlog' hlt nofun nofun⟩
      · rw [he]
        exact ⟨.stay rfl, .refl m, .inside (fun j hj => (Option.some.inj hj).symm) hcomp hlog' hlt nofun nofun⟩
      · rw [he]
        exact ⟨.stay rfl, .refl m, .inside (fun j hj => (Option.some.inj hj).symm) hcomp hlog' hlt nofun nofun⟩
    · exact absurd hlt (Nat.lt_irrefl _)
  | linear j key endKey =>
    have hlt : iter < c.stages.length := hloop nofun nofun
    simp only [workerStep] at h
    split at h <;> simp only [Option.some.injEq, Prod.mk.injEq] at h <;> obtain ⟨rfl, rfl⟩ := h
    · exact ⟨.stay rfl, .refl m, .inside hstage hcomp hlog hlt nofun nofun⟩
    · exact ⟨.stay rfl, .refl m, .inside hstage hcomp hlog hlt nofun nofun⟩
  | completeLast j =>
    have hlt : iter < c.stages.length := hloop nofun nofun
    simp only [workerStep, Option.some.injEq, Prod.mk.injEq] at h
    obtain ⟨rfl, rfl⟩ := h
    obtain rfl : completions = iter := hcomp
    rcases endStage_cases c w j with he | he
    · rw [he]
      exact ⟨.complete rfl rfl hlt, ⟨rfl, rfl, rfl⟩, .inside hstage rfl hlog hlt nofun nofun⟩
    · rw [he]
      exact ⟨.complete rfl rfl hlt, ⟨rfl, rfl, rfl⟩, .inside hstage rfl hlog hlt nofun nofun⟩
  | completeFirst j =>
    have hlt : iter < c.stages.length := hloop nofun nofun
    simp only [workerStep, Option.some.injEq, Prod.mk.injEq] at h
    obtain ⟨rfl, rfl⟩ := h
    obtain rfl : completions = iter := hcomp
    exact ⟨.complete rfl rfl hlt, ⟨rfl, rfl, rfl⟩, .inside hstage rfl hlog hlt nofun nofun⟩
  | random j =>
    have hlt : iter < c.stages.length := hloop nofun nofun
    simp only [workerStep, Option.some.injEq, Prod.mk.injEq] at h
    obtain ⟨rfl, rfl⟩ := h
    split
    · exact ⟨.stay rfl, .refl m, .inside hstage hcomp hlog hlt nofun nofun⟩
    · rcases endStage_cases c w j with he | he
      · rw [he]
        exact ⟨.stay rfl, .refl m, .inside hstage hcomp hlog hlt nofun nofun⟩
      · rw [he]
        exact ⟨.stay rfl, .refl m, .inside hstage hcomp hlog hlt nofun nofun⟩
  | drain j =>
    simp only [workerStep, Option.some.injEq, Prod.mk.injEq] at h
    obtain ⟨rfl, rfl⟩ := h
    exact ⟨.stay rfl, .refl m, .inside hstage hcomp hlog (hloop nofun nofun) nofun nofun⟩
  | check j =>
    have hlt : iter < c.stages.length := hloop nofun nofun
    simp only [workerStep, Option.some.injEq, Prod.mk.injEq] at h
    obtain ⟨rfl, rfl⟩ := h
    rcases hflags rfl rfl with ⟨-, -, hfin⟩ | ⟨rfl, -⟩
    · simp only [hfin, Bool.false_eq_true, if_false]
      exact ⟨.stay rfl, .refl m, .inside nofun hcomp hlog hlt nofun nofun⟩
    · exact absurd hlt (Nat.lt_irrefl _)
  | arrive1 =>
    simp only [workerStep, Option.some.injEq, Prod.mk.injEq] at h
    obtain ⟨rfl, rfl⟩ := h
    exact ⟨.arrive rfl, ⟨rfl, rfl, rfl⟩, .inside nofun hcomp hlog (hloop nofun nofun) nofun nofun⟩
  | wait1 r =>
    simp only [workerStep, Option.ite_none_left_eq_some, Option.some.injEq, Prod.mk.injEq] at h
    obtain ⟨hr, rfl, rfl⟩ := h
    exact ⟨.leave r rfl hr, .refl m, .inside nofun hcomp hlog (hloop nofun nofun) nofun nofun⟩
  | arrive2 =>
    simp only [workerStep, Option.some.injEq, Prod.mk.injEq] at h
    obtain ⟨rfl, rfl⟩ := h
    exact ⟨.arrive rfl, ⟨rfl, rfl, rfl⟩, .inside nofun hcomp hlog (hloop nofun nofun) nofun nofun⟩
  | wait2 r =>
    simp only [workerStep, Option.ite_none_left_eq_some, Option.some.injEq, Prod.mk.injEq] at h
    obtain ⟨hr, rfl, rfl⟩ := h
    exact ⟨.leave r rfl hr, .refl m, ⟨nofun, hcomp, hlog, fun h => absurd rfl h, nofun, nofun⟩⟩
  | exit => simp [workerStep] at h
  | fault => exact absurd rfl hfault

/-! ## The output worker -/

/-- Whether the output worker has completed the stage of this iteration. -/
def OutputPc.done : OutputPc → Nat
  | .complete | .check | .exit => 0
  | _ => 1

/-- The invariant of the output worker in a run of `n` stages: it completes each stage once. -/
structure OutputOk (n : Nat) (x : Output) : Prop where
  completions : x.completions = x.iter + x.pc.done
  inLoop : x.pc ≠ .check → x.pc ≠ .exit → x.iter < n
  exit : x.pc = .exit → x.iter = n

/-- The invariant inside an iteration: what is left to check is the table of completions. -/
theorem OutputOk.inside {n iter completions : Nat} {pc : OutputPc} (hcomp : completions = iter + pc.done) (hloop : iter < n)
    (hexit : pc ≠ .exit) : OutputOk n ⟨pc, iter, completions⟩ :=
  ⟨hcomp, fun _ _ => hloop, fun h => absurd h hexit⟩

/-- What one step of the output worker does, given the flags it finds when it is free in the first half of a stage. -/
theorem outputStep_spec {n : Nat} {timeUp : Bool} {x x' : Output} (hok : OutputOk n x)
    (hflags : x.pc.wait = none → x.pc.half = 0 → FlagsAt n m (Fin.last T) x.iter)
    (h : outputStep timeUp m x = some (m', x')) :
    Move n m.barrier m.unfinishedThreads x.view m'.barrier m'.unfinishedThreads x'.view ∧ SameFlags m m' ∧ OutputOk n x' := by
  obtain ⟨pc, iter, completions⟩ := x
  obtain ⟨hcomp, hloop, hexit⟩ := hok
  simp only at hcomp hloop hexit hflags
  cases pc with
  | complete =>
    have hlt : iter < n := hloop nofun nofun
    simp only [outputStep, Option.some.injEq, Prod.mk.injEq] at h
    obtain ⟨rfl, rfl⟩ := h
    obtain rfl : completions = iter := hcomp
    exact ⟨.complete rfl rfl hlt, ⟨rfl, rfl, rfl⟩, .inside rfl hlt nofun⟩
  | sleep =>
    have hlt : iter < n := hloop nofun nofun
    simp only [outputStep] at h
    split at h
    · simp only [Option.some.injEq, Prod.mk.injEq] at h
      obtain ⟨rfl, rfl⟩ := h
      exact ⟨.stay rfl, .refl m, .inside hcomp hlt nofun⟩
    · split at h
      · simp only [Option.some.injEq, Prod.mk.injEq] at h
        obtain ⟨rfl, rfl⟩ := h
        exact ⟨.stay rfl, .refl m, .inside hcomp hlt nofun⟩
      · exact nomatch h
  | top interrupted =>
    have hlt : iter < n := hloop nofun nofun
    simp only [outputStep, Option.some.injEq, Prod.mk.injEq] at h
    obtain ⟨rfl, rfl⟩ := h
    rcases hflags rfl rfl with ⟨-, -, hfin⟩ | ⟨rfl, -⟩
    · simp only [hfin, Bool.false_eq_true, if_false]
      split
      · exact ⟨.stay rfl, .refl m, .inside hcomp hlt nofun⟩
      · exact ⟨.stay rfl, .refl m, .inside hcomp hlt nofun⟩
    · exact absurd hlt (Nat.lt_irrefl _)
  | arrive1 =>
    simp only [outputStep, Option.some.injEq, Prod.mk.injEq] at h
    obtain ⟨rfl, rfl⟩ := h
    exact ⟨.arrive rfl, ⟨rfl, rfl, rfl⟩, .inside hcomp (hloop nofun nofun) nofun⟩
  | wait1 r =>
    simp only [outputStep, Option.ite_none_left_eq_some, Option.some.injEq, Prod.mk.injEq] at h
    obtain ⟨hr, rfl, rfl⟩ := h
    exact ⟨.leave r rfl hr, .refl m, .inside hcomp (hloop nofun nofun) nofun⟩
  | arrive2 =>
    simp only [outputStep, Option.some.injEq, Prod.mk.injEq] at h
    obtain ⟨rfl, rfl⟩ := h
    exact ⟨.arrive rfl, ⟨rfl, rfl, rfl⟩, .inside hcomp (hloop nofun nofun) nofun⟩
  | wait2 r =>
    simp only [outputStep, Option.ite_none_left_eq_some, Option.some.injEq, Prod.mk.injEq] at h
    obtain ⟨hr, rfl, rfl⟩ := h
    exact ⟨.leave r rfl hr, .refl m, ⟨hcomp, fun h => absurd rfl h, nofun⟩⟩
  | check =>
    simp only [outputStep, Option.some.injEq, Prod.mk.injEq] at h
    obtain ⟨rfl, rfl⟩ := h
    rcases hflags rfl rfl with ⟨hlt, -, hfin⟩ | ⟨rfl, hfin⟩
    · simp only [hfin, Bool.false_eq_true, if_false]
      exact ⟨.stay rfl, .refl m, .inside hcomp hlt nofun⟩
    · simp only [hfin, if_true]
      exact ⟨.stay rfl, .refl m, ⟨hcomp, fun _ h => absurd rfl h, fun _ => rfl⟩⟩
  | exit => simp [outputStep] at h

/-! ## The coordinator -/

namespace CoordPc

/-- Whether the coordinator has completed the stage of this iteration. -/
def done : CoordPc → Nat
  | .sleep | .finish => 0
  | _ => 1

/-- Whether `stage_idx` has been incremented in this iteration. -/
def late : CoordPc → Nat
  | .sleep | .finish | .waiting | .halt _ | .arrive1 | .wait1 _ | .advance => 0
  | _ => 1

/-- Whether the counter is that of the next stage already. -/
def ahead : CoordPc → Nat
  | .release _ | .arrive2 | .wait2 _ => 1
  | _ => 0

/-- Whether all parties have completed the stage the counter is for. -/
def drained : CoordPc → Bool
  | .sleep | .finish | .waiting | .release _ | .arrive2 | .wait2 _ => false
  | _ => true

/-- Past the increment of `stage_idx`, on the way to another stage. -/
def continues : CoordPc → Bool
  | .setStage _ | .reset | .release _ | .arrive2 | .wait2 _ => true
  | _ => false

/-- Past the increment of `stage_idx`, on the way out. -/
def ends : CoordPc → Bool
  | .terminate _ | .arriveEnd | .waitEnd _ | .exit => true
  | _ => false

/-- Whether the stage index of thread `i` has been advanced in this iteration. -/
def stageSet (i : Nat) : CoordPc → Nat
  | .setStage j => if i < j then 1 else 0
  | .reset | .release _ | .arrive2 | .wait2 _ => 1
  | _ => 0

/-- Whether thread `i` has been told to return. -/
def terminated (i : Nat) : CoordPc → Bool
  | .terminate j => decide (i < j)
  | .arriveEnd | .waitEnd _ | .exit => true
  | _ => false

/-- Whether thread `i` may work. -/
def working (i : Nat) : CoordPc → Bool
  | .sleep | .finish | .waiting | .arrive2 | .wait2 _ => true
  | .halt j => decide (j ≤ i)
  | .release j => decide (i < j)
  | _ => false

end CoordPc

/-- The invariant of the coordinator in a run of `n` stages, with what it has written to the shared memory. -/
structure CoordOk (n : Nat) (m : Shared T) (x : Coord) : Prop where
  completions : x.completions = x.iter + x.pc.done
  stageIdx : x.stageIdx = x.iter + x.pc.late
  inLoop : x.iter < n
  continues : x.pc.continues = true → x.iter + 1 < n
  ends : x.pc.ends = true → x.iter + 1 = n
  stages : ∀ i : Fin (T + 1), m.stageIdx i = x.iter + x.pc.stageSet i
  finished : ∀ i : Fin (T + 1), m.finished i = x.pc.terminated i
  doWork : ∀ i : Fin (T + 1), m.doWork i = x.pc.working i

/-- The steps of the other processes keep the coordinator's invariant. -/
theorem CoordOk.frame {n : Nat} {x : Coord} (h : CoordOk n m x) (hm : SameFlags m m') : CoordOk n m' x :=
  ⟨h.completions, h.stageIdx, h.inLoop, h.continues, h.ends, fun i => hm.stageIdx ▸ h.stages i, fun i => hm.finished ▸ h.finished i,
    fun i => hm.doWork ▸ h.doWork i⟩

/-- The stage whose completions the counter counts. -/
def Coord.opened (x : Coord) : Nat := x.iter + x.pc.ahead

/-- What a step of the coordinator does to the barrier and the counter: a move that keeps the stage the counter is for, or the
reset, which makes it the next stage. -/
def CoordMove (n : Nat) (m : Shared T) (x : Coord) (m' : Shared T) (x' : Coord) : Prop :=
  (Move n m.barrier m.unfinishedThreads x.view m'.barrier m'.unfinishedThreads x'.view ∧ x'.opened = x.opened) ∨
    (x.pc = .reset ∧ m'.barrier = m.barrier ∧ m'.unfinishedThreads = (T + 1 : Nat) + 1 ∧ x'.view = x.view ∧
      x'.opened = x.opened + 1)

/-- Writing a flag of one thread in a loop over the threads. -/
theorem update_at {α : Type} {f : Fin (T + 1) → α} (g g' : Nat → α) {i : Nat} (hi : i < T + 1) {a : α} (hf : ∀ j, f j = g j)
    (ha : g' i = a) (hg : ∀ j, j ≠ i → g' j = g j) (j : Fin (T + 1)) : Function.update f ⟨i, hi⟩ a j = g' j := by
  by_cases hj : j = ⟨i, hi⟩
  · subst hj
    rw [Function.update_self, ha]
  · have hne : (j : Nat) ≠ i := fun h => hj (Fin.ext h)
    rw [Function.update_of_ne hj, hf, hg j hne]

/-- What one step of the coordinator does. All parties have completed the stage when it goes on to halt the threads. -/
theorem coordStep_spec {x x' : Coord} (hok : CoordOk c.stages.length m x) (h : coordStep c m x = some (m', x')) :
    CoordOk c.stages.length m' x' ∧ CoordMove c.stages.length m x m' x' ∧
      (x'.pc.drained = true → m'.unfinishedThreads = 0 ∨ (x.pc.drained = true ∧ m'.unfinishedThreads = m.unfinishedThreads)) := by
  obtain ⟨pc, stageIdx, iter, completions⟩ := x
  obtain ⟨hcomp, hidx, hloop, hcont, hends, hstages, hfin, hwork⟩ := hok
  simp only at hcomp hidx hloop hcont hends hstages hfin hwork
  cases pc with
  | sleep =>
    simp only [coordStep, Option.some.injEq, Prod.mk.injEq] at h
    obtain ⟨rfl, rfl⟩ := h
    exact ⟨⟨hcomp, hidx, hloop, nofun, nofun, hstages, hfin, hwork⟩, Or.inl ⟨.stay rfl, rfl⟩, nofun⟩
  | finish =>
    simp only [coordStep, Option.some.injEq, Prod.mk.injEq] at h
    obtain ⟨rfl, rfl⟩ := h
    obtain rfl : completions = iter := hcomp
    split
    · rename_i hzero
      refine ⟨⟨rfl, hidx, hloop, nofun, nofun, hstages, hfin, ?_⟩, Or.inl ⟨.complete rfl rfl hloop, rfl⟩, fun _ => Or.inl hzero⟩
      intro i
      exact (hwork i).trans (by simp [CoordPc.working])
    · exact ⟨⟨rfl, hidx, hloop, nofun, nofun, hstages, hfin, hwork⟩, Or.inl ⟨.complete rfl rfl hloop, rfl⟩, nofun⟩
  | waiting =>
    simp only [coordStep] at h
    split at h
    · rename_i hzero
      simp only [Option.some.injEq, Prod.mk.injEq] at h
      obtain ⟨rfl, rfl⟩ := h
      refine ⟨⟨hcomp, hidx, hloop, nofun, nofun, hstages, hfin, ?_⟩, Or.inl ⟨.stay rfl, rfl⟩, fun _ => Or.inl hzero⟩
      intro i
      exact (hwork i).trans (by simp [CoordPc.working])
    · exact nomatch h
  | halt i =>
    simp only [coordStep, overThreads, Option.some.injEq] at h
    split at h
    · rename_i hi
      obtain ⟨rfl, rfl⟩ := Prod.mk.injEq _ _ _ _ ▸ h
      refine ⟨⟨hcomp, hidx, hloop, nofun, nofun, hstages, hfin, ?_⟩, Or.inl ⟨.stay rfl, rfl⟩, fun _ => Or.inr ⟨rfl, rfl⟩⟩
      refine update_at (CoordPc.working · (.halt i)) (CoordPc.working · (.halt (i + 1))) hi hwork ?_ ?_
      · simp [CoordPc.working]
      · intro j hj
        simp only [CoordPc.working, decide_eq_decide]
        omega
    · rename_i hi
      obtain ⟨rfl, rfl⟩ := Prod.mk.injEq _ _ _ _ ▸ h
      refine ⟨⟨hcomp, hidx, hloop, nofun, nofun, hstages, hfin, ?_⟩, Or.inl ⟨.stay rfl, rfl⟩, fun _ => Or.inr ⟨rfl, rfl⟩⟩
      intro j
      exact (hwork j).trans (decide_eq_false (by omega))
  | arrive1 =>
    simp only [coordStep, Option.some.injEq, Prod.mk.injEq] at h
    obtain ⟨rfl, rfl⟩ := h
    exact ⟨⟨hcomp, hidx, hloop, nofun, nofun, hstages, hfin, hwork⟩, Or.inl ⟨.arrive rfl, rfl⟩, fun _ => Or.inr ⟨rfl, rfl⟩⟩
  | wait1 r =>
    simp only [coordStep, Option.ite_none_left_eq_some, Option.some.injEq, Prod.mk.injEq] at h
    obtain ⟨hr, rfl, rfl⟩ := h
    exact ⟨⟨hcomp, hidx, hloop, nofun, nofun, hstages, hfin, hwork⟩, Or.inl ⟨.leave r rfl hr, rfl⟩, fun _ => Or.inr ⟨rfl, rfl⟩⟩
  | advance =>
    simp only [coordStep, Option.some.injEq, Prod.mk.injEq] at h
    obtain ⟨rfl, rfl⟩ := h
    obtain rfl : stageIdx = iter := hidx
    split
    · rename_i hlast
      exact ⟨⟨hcomp, rfl, hloop, nofun, fun _ => hlast, hstages, fun i => (hfin i).trans (by simp [CoordPc.terminated]),
        hwork⟩, Or.inl ⟨.stay rfl, rfl⟩, fun _ => Or.inr ⟨rfl, rfl⟩⟩
    · rename_i hmore
      exact ⟨⟨hcomp, rfl, hloop, fun _ => Nat.lt_of_le_of_ne hloop hmore, nofun, fun i => (hstages i).trans (by simp [CoordPc.stageSet]), hfin, hwork⟩,
        Or.inl ⟨.stay rfl, rfl⟩, fun _ => Or.inr ⟨rfl, rfl⟩⟩
  | setStage i =>
    have hmore : iter + 1 < c.stages.length := hcont rfl
    simp only [coordStep, overThreads, Option.some.injEq] at h
    split at h
    · rename_i hi
      obtain ⟨rfl, rfl⟩ := Prod.mk.injEq _ _ _ _ ▸ h
      obtain rfl : stageIdx = iter + 1 := hidx
      refine ⟨⟨hcomp, rfl, hloop, fun _ => hmore, nofun, ?_, hfin, hwork⟩, Or.inl ⟨.stay rfl, rfl⟩, fun _ => Or.inr ⟨rfl, rfl⟩⟩
      refine update_at (iter + CoordPc.stageSet · (.setStage i)) (iter + CoordPc.stageSet · (.setStage (i + 1))) hi hstages ?_ ?_
      · simp [CoordPc.stageSet]
      · intro j hj
        simp only [CoordPc.stageSet]
        split <;> split <;> omega
    · rename_i hi
      obtain ⟨rfl, rfl⟩ := Prod.mk.injEq _ _ _ _ ▸ h
      refine ⟨⟨hcomp, hidx, hloop, fun _ => hmore, nofun, ?_, hfin, hwork⟩, Or.inl ⟨.stay rfl, rfl⟩, fun _ => Or.inr ⟨rfl, rfl⟩⟩
      intro j
      refine (hstages j).trans ?_
      simp only [CoordPc.stageSet]
      rw [if_pos (by omega)]
  | reset =>
    have hmore : iter + 1 < c.stages.length := hcont rfl
    simp only [coordStep, Option.some.injEq, Prod.mk.injEq] at h
    obtain ⟨rfl, rfl⟩ := h
    exact ⟨⟨hcomp, hidx, hloop, fun _ => hmore, nofun, hstages, hfin, fun i => (hwork i).trans
      (by simp [CoordPc.working])⟩, Or.inr ⟨rfl, rfl, rfl, rfl, rfl⟩, nofun⟩
  | release i =>
    have hmore : iter + 1 < c.stages.length := hcont rfl
    simp only [coordStep, overThreads, Option.some.injEq] at h
    split at h
    · rename_i hi
      obtain ⟨rfl, rfl⟩ := Prod.mk.injEq _ _ _ _ ▸ h
      refine ⟨⟨hcomp, hidx, hloop, fun _ => hmore, nofun, hstages, hfin, ?_⟩, Or.inl ⟨.stay rfl, rfl⟩, nofun⟩
      refine update_at (CoordPc.working · (.release i)) (CoordPc.working · (.release (i + 1))) hi hwork ?_ ?_
      · simp [CoordPc.working]
      · intro j hj
        simp only [CoordPc.working, decide_eq_decide]
        omega
    · rename_i hi
      obtain ⟨rfl, rfl⟩ := Prod.mk.injEq _ _ _ _ ▸ h
      refine ⟨⟨hcomp, hidx, hloop, fun _ => hmore, nofun, hstages, hfin, ?_⟩, Or.inl ⟨.stay rfl, rfl⟩, nofun⟩
      intro j
      exact (hwork j).trans (decide_eq_true (by omega))
  | arrive2 =>
    simp only [coordStep, Option.some.injEq, Prod.mk.injEq] at h
    obtain ⟨rfl, rfl⟩ := h
    exact ⟨⟨hcomp, hidx, hloop, fun _ => hcont rfl, nofun, hstages, hfin, hwork⟩, Or.inl ⟨.arrive rfl, rfl⟩, nofun⟩
  | wait2 r =>
    have hmore : iter + 1 < c.stages.length := hcont rfl
    simp only [coordStep, Option.ite_none_left_eq_some, Option.some.injEq, Prod.mk.injEq] at h
    obtain ⟨hr, rfl, rfl⟩ := h
    exact ⟨⟨hcomp, hidx, hmore, nofun, nofun, hstages, hfin, hwork⟩, Or.inl ⟨.leave r rfl hr, rfl⟩, nofun⟩
  | terminate i =>
    have hlast : iter + 1 = c.stages.length := hends rfl
    simp only [coordStep, overThreads, Option.some.injEq] at h
    split at h
    · rename_i hi
      obtain ⟨rfl, rfl⟩ := Prod.mk.injEq _ _ _ _ ▸ h
      refine ⟨⟨hcomp, hidx, hloop, nofun, fun _ => hlast, hstages, ?_, hwork⟩, Or.inl ⟨.stay rfl, rfl⟩, fun _ => Or.inr ⟨rfl, rfl⟩⟩
      refine update_at (CoordPc.terminated · (.terminate i)) (CoordPc.terminated · (.terminate (i + 1))) hi hfin ?_ ?_
      · simp [CoordPc.terminated]
      · intro j hj
        simp only [CoordPc.terminated, decide_eq_decide]
        omega
    · rename_i hi
      obtain ⟨rfl, rfl⟩ := Prod.mk.injEq _ _ _ _ ▸ h
      refine ⟨⟨hcomp, hidx, hloop, nofun, fun _ => hlast, hstages, ?_, hwork⟩, Or.inl ⟨.stay rfl, rfl⟩, fun _ => Or.inr ⟨rfl, rfl⟩⟩
      intro j
      exact (hfin j).trans (decide_eq_true (by omega))
  | arriveEnd =>
    simp only [coordStep, Option.some.injEq, Prod.mk.injEq] at h
    obtain ⟨rfl, rfl⟩ := h
    exact ⟨⟨hcomp, hidx, hloop, nofun, fun _ => hends rfl, hstages, hfin, hwork⟩, Or.inl ⟨.arrive rfl, rfl⟩,
      fun _ => Or.inr ⟨rfl, rfl⟩⟩
  | waitEnd r =>
    simp only [coordStep, Option.ite_none_left_eq_some, Option.some.injEq, Prod.mk.injEq] at h
    obtain ⟨hr, rfl, rfl⟩ := h
    exact ⟨⟨hcomp, hidx, hloop, nofun, fun _ => hends rfl, hstages, hfin, hwork⟩, Or.inl ⟨.leave r rfl hr, rfl⟩,
      fun _ => Or.inr ⟨rfl, rfl⟩⟩
  | exit => simp [coordStep] at h

/-! ## The whole system -/

/-- The invariant of the protocol: each process is at a place that agrees with its history, the barrier and the counter agree with
all of them, and the counter is zero from the moment the coordinator goes on to halt the threads until it resets it. -/
structure ProtocolInv (c : RunConfig) (s : ProtocolState T) : Prop where
  agree : Agree s.shared.barrier s.shared.unfinishedThreads s.view s.coord.opened
  workers : ∀ w, WorkerOk c.stages.length (s.worker w)
  output : OutputOk c.stages.length s.output
  coord : CoordOk c.stages.length s.shared s.coord
  drained : s.coord.pc.drained = true → s.shared.unfinishedThreads = 0

variable {s s' : ProtocolState T}

/-- In the first half of a stage the coordinator has not written anything for the next one. -/
theorem CoordPc.first_half {pc : CoordPc} (h : pc.half = 0) :
    pc.late = 0 ∧ pc.ahead = 0 ∧ pc.ends = false ∧ (∀ i, pc.stageSet i = 0) ∧ ∀ i, pc.terminated i = false := by
  cases pc <;> first | exact ⟨rfl, rfl, rfl, fun _ => rfl, fun _ => rfl⟩ | exact nomatch h

/-- In the second half the coordinator is waiting only once it has written everything. -/
theorem CoordPc.second_half {pc : CoordPc} (h : pc.half = 1) (hw : pc.wait ≠ none) : (∃ r, pc = .wait2 r) ∨ ∃ r, pc = .waitEnd r := by
  cases pc with
  | wait2 r => exact Or.inl ⟨r, rfl⟩
  | waitEnd r => exact Or.inr ⟨r, rfl⟩
  | wait1 r => exact nomatch h
  | _ => exact absurd rfl hw

theorem CoordPc.half_cases (pc : CoordPc) : pc.half = 0 ∨ pc.half = 1 ∨ pc = .exit := by
  cases pc <;> first | exact Or.inl rfl | exact Or.inr (Or.inl rfl) | exact Or.inr (Or.inr rfl)

/-- In an even round `2 * k` the coordinator is working on stage `k`, and the threads find the flags of that stage; or `k` is the
number of stages and all threads find that the run is over. -/
theorem ProtocolInv.even_round (h : ProtocolInv c s) {k : Nat} (hk : s.shared.barrier.round = 2 * k) :
    (k < c.stages.length ∧ s.coord.opened = k ∧ s.coord.stageIdx = k ∧ s.coord.pc.ends = false ∧
      ∀ i, s.shared.stageIdx i = k ∧ s.shared.finished i = false) ∨
    (k = c.stages.length ∧ s.coord.pc.ends = true ∧ ∀ i, s.shared.finished i = true) := by
  have hle := h.agree.synced.passed_le .coord
  have hfree := h.agree.synced.free .coord
  simp only [ProtocolState.view, Coord.view, hk] at hle hfree
  have hloop := h.coord.inLoop
  rcases s.coord.pc.half_cases with hhalf | hhalf | hexit
  · obtain ⟨hlate, hahead, hends, hset, hterm⟩ := CoordPc.first_half hhalf
    rw [hhalf] at hle
    have hiter : s.coord.iter = k := by omega
    refine Or.inl ⟨hiter ▸ hloop, ?_, ?_, hends, fun i => ⟨?_, ?_⟩⟩
    · rw [Coord.opened, hahead, hiter, Nat.add_zero]
    · rw [h.coord.stageIdx, hlate, hiter, Nat.add_zero]
    · rw [h.coord.stages i, hset, hiter, Nat.add_zero]
    · rw [h.coord.finished i, hterm]
  · -- an even round in the second half: the barrier has opened again, the coordinator has yet to leave it
    rw [hhalf] at hle hfree
    have hiter : s.coord.iter + 1 = k := by
      by_contra hne
      have hround : 2 * k ≠ 2 * s.coord.iter + 1 := by omega
      omega
    have hwait : s.coord.pc.wait ≠ none := by
      intro hnone
      have := hfree hnone
      omega
    rcases CoordPc.second_half hhalf hwait with ⟨r, hpc⟩ | ⟨r, hpc⟩
    · refine Or.inl ⟨hiter ▸ h.coord.continues (by rw [hpc]; rfl), ?_, ?_, ?_, fun i => ⟨?_, ?_⟩⟩
      · rw [Coord.opened, hpc, ← hiter]
        rfl
      · rw [h.coord.stageIdx, hpc, ← hiter]
        rfl
      · rw [hpc]
        rfl
      · rw [h.coord.stages i, hpc, ← hiter]
        rfl
      · rw [h.coord.finished i, hpc]
        rfl
    · have hends : s.coord.pc.ends = true := by
        rw [hpc]
        rfl
      refine Or.inr ⟨hiter ▸ h.coord.ends hends, hends, fun i => ?_⟩
      rw [h.coord.finished i, hpc]
      rfl
  · have hends : s.coord.pc.ends = true := by
      rw [hexit]
      rfl
    have hround := hfree (by rw [hexit]; rfl)
    simp only [hexit, CoordPc.half] at hround
    have hlast := h.coord.ends hends
    refine Or.inr ⟨by omega, hends, fun i => ?_⟩
    rw [h.coord.finished i, hexit]
    rfl

/-- A free process in the first half of its iteration finds the flags of the stage, or of the end. -/
theorem ProtocolInv.flagsAt (h : ProtocolInv c s) {k : Nat} (hk : s.shared.barrier.round = 2 * k) (i : Fin (T + 1)) :
    FlagsAt c.stages.length s.shared i k := by
  rcases h.even_round hk with ⟨hlt, -, -, -, hflags⟩ | ⟨hend, -, hflags⟩
  · exact Or.inl ⟨hlt, hflags i⟩
  · exact Or.inr ⟨hend, hflags i⟩

/-- The only stage a process can complete is the one the counter is for. -/
theorem ProtocolInv.completes (h : ProtocolInv c s) :
    ∀ j, j < c.stages.length → s.shared.barrier.round = 2 * j → j = s.coord.opened := by
  intro j hj hround
  rcases h.even_round hround with ⟨-, hopen, -⟩ | ⟨hend, -⟩
  · exact hopen.symm
  · omega

/-- Inside `thr_coordinator_wait`, past the arrival at the first barrier. -/
def WorkerPc.atBarrier : WorkerPc → Bool
  | .wait1 _ | .arrive2 | .wait2 _ => true
  | _ => false

/-- Inside `thr_coordinator_wait`, past the arrival at the first barrier. -/
def OutputPc.atBarrier : OutputPc → Bool
  | .wait1 _ | .arrive2 | .wait2 _ => true
  | _ => false

theorem WorkerPc.atBarrier_of_passed {pc : WorkerPc} {k iter : Nat} (hle : 2 * iter + pc.half ≤ 2 * k + 1)
    (hge : 2 * k + 1 ≤ 2 * iter + pc.half + 1) (hfree : pc.wait = none → 2 * iter + pc.half = 2 * k + 1) :
    iter = k ∧ pc.atBarrier = true ∧ pc.done = 1 := by
  cases pc <;> simp only [half, wait, forall_const, reduceCtorEq, false_implies] at hle hge hfree <;>
    first | omega | exact ⟨by omega, rfl, rfl⟩

theorem OutputPc.atBarrier_of_passed {pc : OutputPc} {k iter : Nat} (hle : 2 * iter + pc.half ≤ 2 * k + 1)
    (hge : 2 * k + 1 ≤ 2 * iter + pc.half + 1) (hfree : pc.wait = none → 2 * iter + pc.half = 2 * k + 1) :
    iter = k ∧ pc.atBarrier = true ∧ pc.done = 1 := by
  cases pc <;> simp only [half, wait, forall_const, reduceCtorEq, false_implies] at hle hge hfree <;>
    first | omega | exact ⟨by omega, rfl, rfl⟩

/-- In an odd round every worker is at the barrier and has completed the stage. -/
theorem ProtocolInv.odd_round_worker (h : ProtocolInv c s) {k : Nat} (hk : s.shared.barrier.round = 2 * k + 1) (w : Fin T) :
    (s.worker w).pc.atBarrier = true ∧ (s.worker w).completions = k + 1 := by
  have hle := h.agree.synced.passed_le (.worker w)
  have hfree := h.agree.synced.free (.worker w)
  simp only [ProtocolState.view, Worker.view, hk] at hle hfree
  obtain ⟨hiter, hat, hdone⟩ := WorkerPc.atBarrier_of_passed hle.1 hle.2 hfree
  exact ⟨hat, by rw [(h.workers w).completions, hiter, hdone]⟩

/-- In an odd round the output worker is at the barrier and has completed the stage. -/
theorem ProtocolInv.odd_round_output (h : ProtocolInv c s) {k : Nat} (hk : s.shared.barrier.round = 2 * k + 1) :
    s.output.pc.atBarrier = true ∧ s.output.completions = k + 1 := by
  have hle := h.agree.synced.passed_le .output
  have hfree := h.agree.synced.free .output
  simp only [ProtocolState.view, Output.view, hk] at hle hfree
  obtain ⟨hiter, hat, hdone⟩ := OutputPc.atBarrier_of_passed hle.1 hle.2 hfree
  exact ⟨hat, by rw [h.output.completions, hiter, hdone]⟩

/-- Between the two barriers the coordinator, when it is not waiting, holds the barrier in the odd round of its stage. -/
theorem ProtocolInv.round_of_second_half (h : ProtocolInv c s) (hw : s.coord.pc.wait = none) (hhalf : s.coord.pc.half = 1) :
    s.shared.barrier.round = 2 * s.coord.iter + 1 := by
  have hfree := h.agree.synced.free .coord hw
  simp only [ProtocolState.view, Coord.view, hhalf] at hfree
  exact hfree.symm

/-- The reset of the counter finds that all parties have completed the stage before, and none the next one. -/
theorem ProtocolInv.reset (h : ProtocolInv c s) (hpc : s.coord.pc = .reset) :
    Agree s.shared.barrier ((T + 1 : Nat) + 1) s.view (s.coord.opened + 1) := by
  have hround := h.round_of_second_half (by rw [hpc]; rfl) (by rw [hpc]; rfl)
  have hopen : s.coord.opened = s.coord.iter := by
    rw [Coord.opened, hpc]
    rfl
  have hall : ∀ p : Party T, (s.view p).completions ≤ s.coord.opened + 1 := by
    intro p
    rw [hopen]
    cases p with
    | worker w => exact (h.odd_round_worker hround w).2.le
    | output => exact (h.odd_round_output hround).2.le
    | coord =>
      simp only [ProtocolState.view, Coord.view, h.coord.completions, hpc]
      exact le_rfl
  refine ⟨h.agree.synced, ?_⟩
  rw [Finset.filter_true_of_mem fun p _ => hall p, Finset.card_univ, card_party]
  rfl

theorem protocolInv_init (c : RunConfig) (T : Nat) : ProtocolInv c (ProtocolState.init T) := by
  have hpos : 0 < c.stages.length := List.length_pos_iff.mpr c.nonempty
  refine ⟨⟨⟨?_, ?_, ?_, ?_⟩, ?_⟩, ?_, ?_, ?_, nofun⟩
  · exact (card_party T).symm
  · intro p _
    cases p <;> rfl
  · intro p r hp
    cases p <;> exact nomatch hp
  · have hnone : ∀ p : Party T, ((ProtocolState.init T).view p).wait = none := by
      intro p
      cases p <;> rfl
    rw [Finset.filter_false_of_mem fun p _ => by rw [hnone p]; exact nofun]
    rfl
  · have hzero : ∀ p : Party T, ((ProtocolState.init T).view p).completions ≤ (ProtocolState.init T).coord.opened := by
      intro p
      cases p <;> exact Nat.le_refl 0
    rw [Finset.filter_true_of_mem fun p _ => hzero p, Finset.card_univ, card_party]
    rfl
  · intro w
    exact ⟨nofun, rfl, rfl, fun h => absurd rfl h, nofun, nofun⟩
  · exact ⟨rfl, fun _ _ => hpos, nofun⟩
  · exact ⟨rfl, rfl, hpos, nofun, nofun, fun _ => rfl, fun _ => rfl, fun _ => rfl⟩

theorem protocolInv_step (h : ProtocolInv c s) (hs : ProtocolStep c s s') : ProtocolInv c s' := by
  cases hs with
  | worker w m x hstep =>
    have hflags : (s.worker w).pc.wait = none → (s.worker w).pc.half = 0 →
        FlagsAt c.stages.length s.shared w.castSucc (s.worker w).iter := by
      intro hw hhalf
      have hround := h.agree.synced.free (.worker w) hw
      simp only [ProtocolState.view, Worker.view, hhalf, Nat.add_zero] at hround
      exact h.flagsAt hround.symm _
    obtain ⟨hmove, hsame, hok⟩ := workerStep_spec (h.workers w) hflags hstep
    refine ⟨?_, ?_, h.output, h.coord.frame hsame, ?_⟩
    · rw [view_worker]
      exact h.agree.move (p := .worker w) h.completes hmove
    · intro v
      by_cases hv : v = w
      · subst hv
        simpa using hok
      · simpa [hv] using h.workers v
    · intro hd
      have hagree := h.agree
      rw [h.drained hd] at hagree hmove
      exact hagree.move_zero (p := .worker w) h.completes hmove
  | output timeUp m x hstep =>
    have hflags : s.output.pc.wait = none → s.output.pc.half = 0 →
        FlagsAt c.stages.length s.shared (Fin.last T) s.output.iter := by
      intro hw hhalf
      have hround := h.agree.synced.free .output hw
      simp only [ProtocolState.view, Output.view, hhalf, Nat.add_zero] at hround
      exact h.flagsAt hround.symm _
    obtain ⟨hmove, hsame, hok⟩ := outputStep_spec h.output hflags hstep
    refine ⟨?_, h.workers, hok, h.coord.frame hsame, ?_⟩
    · rw [view_output]
      exact h.agree.move (p := .output) h.completes hmove
    · intro hd
      have hagree := h.agree
      rw [h.drained hd] at hagree hmove
      exact hagree.move_zero (p := .output) h.completes hmove
  | coord m x hstep =>
    obtain ⟨hok, hmove, hdrained⟩ := coordStep_spec h.coord hstep
    refine ⟨?_, h.workers, h.output, hok, ?_⟩
    · rw [view_coord]
      rcases hmove with ⟨hmove, hopen⟩ | ⟨hpc, hb, hu, hview, hopen⟩
      · have hagree := h.agree.move (p := .coord) h.completes hmove
        rw [← hopen] at hagree
        exact hagree
      · have hsame : Function.update s.view .coord x.view = s.view := by
          rw [hview]
          exact Function.update_eq_self Party.coord s.view
        have hagree := h.reset hpc
        rw [← hopen] at hagree
        rw [hsame]
        simpa only [hb, hu] using hagree
    · intro hd
      rcases hdrained hd with hzero | ⟨hbefore, hsame⟩
      · exact hzero
      · exact hsame.trans (h.drained hbefore)

/-- The invariant holds in every reachable state. -/
theorem Reachable.protocolInv (h : Reachable c s) : ProtocolInv c s := by
  induction h with
  | refl => exact protocolInv_init c T
  | tail _ hstep ih => exact protocolInv_step ih hstep

end AerospikeBenchmark
