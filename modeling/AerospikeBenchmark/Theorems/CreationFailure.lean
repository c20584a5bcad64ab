import AerospikeBenchmark.Coordinator.Creation
import AerospikeBenchmark.Lemmas.StageInvariant
import AerospikeBenchmark.Lib.Runs
import AerospikeBenchmark.Theorems.LinearStages

/-!
# Joining the workers after a failed creation

The main thread sets `finished` before `do_work`, so that a worker which leaves its routine because of `do_work` returns. A worker
whose routine ends by itself does not wait for that: it goes to the barrier, which is never released, and cannot be joined.
-/

namespace AerospikeBenchmark

variable {c : RunConfig} {T : Nat} {m m' : Shared T}

/-! ## Routines that end by themselves -/

/-- A linear loop ends though `do_work` stays true. -/
def LoopEnds (b endKey key : Nat) : Prop := ∃ fuel, (linearLoop (fun _ => true) b endKey fuel 0 key).isSome

/-- The routine of worker `w` of `T` in a stage ends though `do_work` stays true: the worker has nothing to do in an asynchronous
stage, or its linear loop gets to the end of its keys. -/
def EndsByItself (st : Stage) (T w : Nat) : Prop :=
  (st.async = true ∧ w ≠ 0) ∨
    ∃ fuel, (if st.async then doAsyncLinear (fun _ => true) st fuel else doSyncLinear (fun _ => true) st w T fuel).isSome

/-- Which of its reads of `do_work` a loop is at does not matter when all return true. -/
theorem isSome_linearLoop (b endKey : Nat) {fuel : Nat} : ∀ i i' key,
    (linearLoop (fun _ => true) b endKey fuel i key).isSome = (linearLoop (fun _ => true) b endKey fuel i' key).isSome := by
  induction fuel with
  | zero => exact fun _ _ _ => rfl
  | succ fuel ih =>
    intro i i' key
    simp only [linearLoop]
    split
    · rw [Option.isSome_map, Option.isSome_map]
      exact ih _ _ _
    · rfl

theorem loopEnds_of_not_lt {b endKey key : Nat} (h : ¬ key < endKey) : LoopEnds b endKey key := ⟨1, by simp [linearLoop, h]⟩

theorem loopEnds_body {b endKey key : Nat} (h : LoopEnds b endKey (linearBody b key).2) : LoopEnds b endKey key := by
  obtain ⟨fuel, hfuel⟩ := h
  by_cases hlt : key < endKey
  · refine ⟨fuel + 1, ?_⟩
    rw [linearLoop, if_pos ⟨rfl, hlt⟩, Option.isSome_map, isSome_linearLoop b endKey _ 0]
    exact hfuel
  · exact loopEnds_of_not_lt hlt

/-- The first place of a worker in a stage tells whether its routine ends by itself. -/
theorem beginStage_ends (T : Nat) (st : Stage) (w j : Nat) :
    (beginStage T st w j = .completeLast j ∧ EndsByItself st T w) ∨
    (beginStage T st w j = .completeFirst j ∧ ¬ EndsByItself st T w) ∨
    ∃ key endKey, beginStage T st w j = .linear j key endKey ∧
      (EndsByItself st T w ↔ LoopEnds st.linearBatchSize endKey key) := by
  by_cases hidle : st.async = true ∧ w ≠ 0
  · exact Or.inl ⟨by simp [beginStage, hidle], Or.inl hidle⟩
  right
  by_cases hlin : st.workload.type = .i ∨ st.workload.type = .d
  · right
    cases hasync : st.async with
    | true =>
      obtain rfl : w = 0 := by
        by_contra hw
        exact hidle ⟨hasync, hw⟩
      refine ⟨st.keyStart, st.keyEnd, ?_, ?_⟩
      · rcases hlin with h | h <;> simp [beginStage, h, hasync]
      · simp [EndsByItself, hasync, doAsyncLinear_eq hlin, linearAsync, LoopEnds]
    | false =>
      refine ⟨st.tStart T w, st.tEnd T w, ?_, ?_⟩
      · rcases hlin with h | h <;> simp [beginStage, h, hasync, Stage.tStart, Stage.tEnd]
      · simp [EndsByItself, hasync, doSyncLinear_eq hlin, linearSync, LoopEnds, Stage.tStart, Stage.tEnd]
  · left
    push Not at hlin
    constructor
    · simp only [beginStage, hidle, if_false]
      split <;> first | rfl | simp_all
    · rintro (h | ⟨fuel, h⟩)
      · exact hidle h
      · cases hasync : st.async <;> cases htype : st.workload.type <;> simp_all [doAsyncLinear, doSyncLinear]

/-! ## What the other threads write -/

/-- What a step of a process does to the barrier, seen from the others. -/
inductive BarrierMove (b : Barrier) (v : View) : Barrier → View → Prop where
  | stay {v' : View} : v'.wait = v.wait → v'.passed = v.passed → BarrierMove b v b v'
  | arrive {v' : View} : v.wait = none → v'.wait = some b.round → v'.passed = v.passed → BarrierMove b v b.arrive v'
  | leave {v' : View} (r : Nat) : v.wait = some r → b.round ≠ r → BarrierMove b v b v'

theorem workerStep_effect {w : Fin T} {x x' : Worker} (h : workerStep c w m x = some (m', x')) :
    SameFlags m m' ∧ BarrierMove m.barrier x.view m'.barrier x'.view := by
  obtain ⟨pc, iter, completions, log⟩ := x
  cases pc with
  | top | check =>
    simp only [workerStep, Option.some.injEq, Prod.mk.injEq] at h
    obtain ⟨rfl, rfl⟩ := h
    split <;> exact ⟨.refl m, .stay rfl rfl⟩
  | readStage =>
    simp only [workerStep] at h
    split at h
    · simp only [Option.some.injEq, Prod.mk.injEq] at h
      obtain ⟨rfl, rfl⟩ := h
      exact ⟨.refl m, .stay rfl rfl⟩
    · next st _ =>
      simp only [Option.some.injEq, Prod.mk.injEq] at h
      obtain ⟨rfl, rfl⟩ := h
      rcases beginStage_cases T st w (m.stageIdx w.castSucc) with ⟨key, endKey, he⟩ | he | he <;>
        exact ⟨.refl m, .stay (by simp only [he]; rfl) (by simp only [he]; rfl)⟩
  | linear j key endKey =>
    simp only [workerStep] at h
    split at h <;>
    · simp only [Option.some.injEq, Prod.mk.injEq] at h
      obtain ⟨rfl, rfl⟩ := h
      exact ⟨.refl m, .stay rfl rfl⟩
  | completeLast j =>
    simp only [workerStep, Option.some.injEq, Prod.mk.injEq] at h
    obtain ⟨rfl, rfl⟩ := h
    rcases endStage_cases c w j with he | he <;>
      exact ⟨⟨rfl, rfl, rfl⟩, .stay (by simp only [he]; rfl) (by simp only [he]; rfl)⟩
  | completeFirst j =>
    simp only [workerStep, Option.some.injEq, Prod.mk.injEq] at h
    obtain ⟨rfl, rfl⟩ := h
    exact ⟨⟨rfl, rfl, rfl⟩, .stay rfl rfl⟩
  | random j =>
    simp only [workerStep, Option.some.injEq, Prod.mk.injEq] at h
    obtain ⟨rfl, rfl⟩ := h
    rcases endStage_cases c w j with he | he <;> rw [he] <;> split <;> exact ⟨.refl m, .stay rfl rfl⟩
  | drain j =>
    simp only [workerStep, Option.some.injEq, Prod.mk.injEq] at h
    obtain ⟨rfl, rfl⟩ := h
    exact ⟨.refl m, .stay rfl rfl⟩
  | arrive1 | arrive2 =>
    simp only [workerStep, Option.some.injEq, Prod.mk.injEq] at h
    obtain ⟨rfl, rfl⟩ := h
    exact ⟨⟨rfl, rfl, rfl⟩, .arrive rfl rfl rfl⟩
  | wait1 r | wait2 r =>
    simp only [workerStep, Option.ite_none_left_eq_some, Option.some.injEq, Prod.mk.injEq] at h
    obtain ⟨hr, rfl, rfl⟩ := h
    exact ⟨.refl m, .leave r rfl hr⟩
  | exit | fault => cases h

theorem outputStep_effect {timeUp : Bool} {x x' : Output} (h : outputStep timeUp m x = some (m', x')) :
    SameFlags m m' ∧ BarrierMove m.barrier x.view m'.barrier x'.view := by
  obtain ⟨pc, iter, completions⟩ := x
  cases pc with
  | complete =>
    simp only [outputStep, Option.some.injEq, Prod.mk.injEq] at h
    obtain ⟨rfl, rfl⟩ := h
    exact ⟨⟨rfl, rfl, rfl⟩, .stay rfl rfl⟩
  | sleep =>
    simp only [outputStep] at h
    split at h
    · simp only [Option.some.injEq, Prod.mk.injEq] at h
      obtain ⟨rfl, rfl⟩ := h
      exact ⟨.refl m, .stay rfl rfl⟩
    split at h
    · simp only [Option.some.injEq, Prod.mk.injEq] at h
      obtain ⟨rfl, rfl⟩ := h
      exact ⟨.refl m, .stay rfl rfl⟩
    · cases h
  | top interrupted =>
    simp only [outputStep, Option.some.injEq, Prod.mk.injEq] at h
    obtain ⟨rfl, rfl⟩ := h
    split <;> [skip; split] <;> exact ⟨.refl m, .stay rfl rfl⟩
  | check =>
    simp only [outputStep, Option.some.injEq, Prod.mk.injEq] at h
    obtain ⟨rfl, rfl⟩ := h
    split <;> exact ⟨.refl m, .stay rfl rfl⟩
  | arrive1 | arrive2 =>
    simp only [outputStep, Option.some.injEq, Prod.mk.injEq] at h
    obtain ⟨rfl, rfl⟩ := h
    exact ⟨⟨rfl, rfl, rfl⟩, .arrive rfl rfl rfl⟩
  | wait1 r | wait2 r =>
    simp only [outputStep, Option.ite_none_left_eq_some, Option.some.injEq, Prod.mk.injEq] at h
    obtain ⟨hr, rfl, rfl⟩ := h
    exact ⟨.refl m, .leave r rfl hr⟩
  | exit => cases h

/-! ## Steps of a failed run -/

/-- What a step of a failed run can be. -/
inductive FailedStep (c : RunConfig) (j : Nat) (s : FailedRun T) : FailedRun T → Prop where
  | worker {w : Fin T} {m : Shared T} {x : Worker} : w.val < s.created →
      workerStep c w s.threads.shared (s.threads.worker w) = some (m, x) →
      FailedStep c j s { s with threads := { s.threads with shared := m, worker := Function.update s.threads.worker w x } }
  | output {timeUp : Bool} {m : Shared T} {x : Output} : outputStep timeUp s.threads.shared s.threads.output = some (m, x) →
      FailedStep c j s { s with threads := { s.threads with shared := m, output := x } }
  | create {i : Nat} : s.main = .create i → i ≠ j → FailedStep c j s { s with created := i + 1, main := .create (i + 1) }
  | fail {p : MainPc T} : (∀ i, p ≠ .create i) → (∀ i, p ≠ .clearDoWork i) → FailedStep c j s { s with main := p }
  | setFinished {i : Fin (T + 1)} : s.main = .setFinished i →
      FailedStep c j s
        (s.write { s.threads.shared with finished := Function.update s.threads.shared.finished i true } (.clearDoWork i))
  | clearDoWork {i : Fin (T + 1)} : s.main = .clearDoWork i →
      FailedStep c j s (s.write { s.threads.shared with doWork := Function.update s.threads.shared.doWork i false } (.join i))

theorem failedStep_of_step {j : Nat} {s s' : FailedRun T} {ch : Choice T} (h : s.step c j ch = some s') : FailedStep c j s s' := by
  cases ch with
  | worker w =>
    simp only [FailedRun.step] at h
    split at h
    · next hw =>
      obtain ⟨t, ht, rfl⟩ := Option.map_eq_some_iff.mp h
      obtain ⟨r, hr, rfl⟩ := Option.map_eq_some_iff.mp ht
      exact .worker hw hr
    · cases h
  | output timeUp =>
    obtain ⟨t, ht, rfl⟩ := Option.map_eq_some_iff.mp h
    obtain ⟨r, hr, rfl⟩ := Option.map_eq_some_iff.mp ht
    exact .output hr
  | coord =>
    simp only [FailedRun.step, FailedRun.mainStep] at h
    split at h
    · next i hmain =>
      split at h
      · exact Option.some.inj h ▸ .fail nofun nofun
      · next hne => exact Option.some.inj h ▸ .create hmain hne
    · next i hmain => exact Option.some.inj h ▸ .setFinished hmain
    · next i hmain => exact Option.some.inj h ▸ .clearDoWork hmain
    · next i hmain =>
      split at h
      · rw [← Option.some.inj h]
        split
        · exact .fail nofun nofun
        · exact .fail nofun nofun
      · cases h
    · cases h

/-! ## The barrier is not released -/

/-- The barrier is in its first round, and the main thread is not at it. -/
structure Unreleased (b : Barrier) (view : Party T → View) : Prop where
  synced : b.Synced (fun p => (view p).wait) (fun p => (view p).passed)
  round : b.round = 0
  coord : (view .coord).wait = none

theorem Unreleased.move {b b' : Barrier} {view : Party T → View} {p : Party T} {v' : View} (h : Unreleased b view) (hp : p ≠ .coord)
    (hm : BarrierMove b (view p) b' v') : Unreleased b' (Function.update view p v') := by
  have hcoord : (Function.update view p v' .coord).wait = none := by
    rw [Function.update_of_ne hp.symm]
    exact h.coord
  cases hm with
  | stay hwait hpassed =>
    refine ⟨?_, h.round, hcoord⟩
    rw [update_view view p v' View.wait, update_view view p v' View.passed, hwait, hpassed, Function.update_eq_self,
      Function.update_eq_self]
    exact h.synced
  | arrive hfree hwait hpassed =>
    have hopen : b.arrived + 1 ≠ b.count := by
      intro hlast
      have hnot : (view p).wait ≠ some b.round := by simp [hfree]
      have hin := h.synced.others_waiting hnot hlast hp.symm
      rw [h.coord] at hin
      cases hin
    refine ⟨?_, ?_, hcoord⟩
    · rw [update_view view p v' View.wait, update_view view p v' View.passed, hwait, hpassed,
        Function.update_eq_self p (fun q => (view q).passed)]
      exact h.synced.arrive hfree
    · simp [Barrier.arrive, hopen, h.round]
  | leave r hwait hne =>
    have hheld := h.synced.held p r hwait
    have hround := h.round
    omega

theorem unreleased_init (T : Nat) : Unreleased (FailedRun.init T).threads.shared.barrier (FailedRun.init T).threads.view := by
  refine ⟨⟨(card_party T).symm, ?_, ?_, ?_⟩, rfl, rfl⟩
  · intro p _
    cases p <;> rfl
  · intro p r hp
    cases p <;> cases hp
  · refine (Finset.card_eq_zero.mpr (Finset.filter_eq_empty_iff.mpr ?_)).symm
    intro p _ hp
    cases p <;> cases hp

theorem unreleased_step {j : Nat} {s s' : FailedRun T} (h : Unreleased s.threads.shared.barrier s.threads.view)
    (hs : FailedStep c j s s') : Unreleased s'.threads.shared.barrier s'.threads.view := by
  cases hs with
  | @worker w m x _ hstep =>
    rw [view_worker]
    exact h.move nofun (workerStep_effect hstep).2
  | @output _ m x hstep =>
    rw [view_output]
    exact h.move nofun (outputStep_effect hstep).2
  | create | fail | setFinished | clearDoWork => exact h

/-! ## Workers whose routine does not end by itself -/

/-- Where a worker is whose routine does not end by itself: it leaves the routine only when `finished` is set. -/
def WorkerPc.Open (b : Nat) (finished : Bool) : WorkerPc → Prop
  | .top | .readStage | .completeFirst _ | .random _ | .exit => True
  | .linear j key endKey => j = 0 ∧ ¬ LoopEnds b endKey key
  | .completeLast _ | .drain _ | .check _ => finished = true
  | .arrive1 | .wait1 _ | .arrive2 | .wait2 _ | .fault => False

theorem WorkerPc.Open.mono {b : Nat} {finished finished' : Bool} {pc : WorkerPc} (h : pc.Open b finished)
    (hle : finished = true → finished' = true) : pc.Open b finished' := by
  cases pc <;> first | exact h | exact hle h

/-- The batch size of the linear routine in the first stage. -/
def RunConfig.firstBatch (c : RunConfig) : Nat := (c.stages.head c.nonempty).linearBatchSize

theorem RunConfig.stages_zero (c : RunConfig) : c.stages[0]? = some (c.stages.head c.nonempty) := by
  rw [List.head_eq_getElem, List.getElem?_eq_getElem]

/-- What thread `i` finds in its fields: the first stage, and `do_work` cleared only when `finished` is set. -/
structure FirstStage (m : Shared T) (i : Fin (T + 1)) : Prop where
  stageIdx : m.stageIdx i = 0
  flags : m.doWork i = false → m.finished i = true

theorem workerStep_open {w : Fin T} {x x' : Worker} (hopen : x.pc.Open c.firstBatch (m.finished w.castSucc))
    (hm : FirstStage m w.castSucc) (hends : ¬ EndsByItself (c.stages.head c.nonempty) T w)
    (h : workerStep c w m x = some (m', x')) : x'.pc.Open c.firstBatch (m.finished w.castSucc) := by
  obtain ⟨pc, iter, completions, log⟩ := x
  cases pc with
  | top =>
    simp only [workerStep, Option.some.injEq, Prod.mk.injEq] at h
    obtain ⟨rfl, rfl⟩ := h
    split <;> trivial
  | readStage =>
    simp only [workerStep, hm.stageIdx, c.stages_zero, Option.some.injEq, Prod.mk.injEq] at h
    obtain ⟨rfl, rfl⟩ := h
    rcases beginStage_ends T (c.stages.head c.nonempty) w 0 with ⟨-, habs⟩ | ⟨he, -⟩ | ⟨key, endKey, he, hiff⟩
    · exact absurd habs hends
    · rw [he]
      trivial
    · rw [he]
      exact ⟨rfl, fun hloop => hends (hiff.mpr hloop)⟩
  | linear j key endKey =>
    obtain ⟨rfl, hloop⟩ := hopen
    simp only [workerStep] at h
    split at h
    · simp only [c.stages_zero, Option.map_some, Option.getD_some, Option.some.injEq, Prod.mk.injEq] at h
      obtain ⟨rfl, rfl⟩ := h
      exact ⟨rfl, fun hbody => hloop (loopEnds_body hbody)⟩
    · next hstop =>
      simp only [Option.some.injEq, Prod.mk.injEq] at h
      obtain ⟨rfl, rfl⟩ := h
      -- the keys are not used up, so it was `do_work`
      have hlt : key < endKey := by
        by_contra hge
        exact hloop (loopEnds_of_not_lt hge)
      exact hm.flags (by simpa [hlt] using hstop)
  | completeLast j =>
    simp only [workerStep, Option.some.injEq, Prod.mk.injEq] at h
    obtain ⟨rfl, rfl⟩ := h
    rcases endStage_cases c w j with he | he <;> rw [he] <;> exact hopen
  | completeFirst j =>
    simp only [workerStep, Option.some.injEq, Prod.mk.injEq] at h
    obtain ⟨rfl, rfl⟩ := h
    trivial
  | random j =>
    simp only [workerStep, Option.some.injEq, Prod.mk.injEq] at h
    obtain ⟨rfl, rfl⟩ := h
    split
    · trivial
    · next hstop =>
      have hfin := hm.flags (by simpa using hstop)
      rcases endStage_cases c w j with he | he <;> rw [he] <;> exact hfin
  | drain j =>
    simp only [workerStep, Option.some.injEq, Prod.mk.injEq] at h
    obtain ⟨rfl, rfl⟩ := h
    exact hopen
  | check j =>
    have hfin : m.finished w.castSucc = true := hopen
    simp only [workerStep, hfin, if_true, Option.some.injEq, Prod.mk.injEq] at h
    obtain ⟨rfl, rfl⟩ := h
    trivial
  | exit => cases h
  | arrive1 | wait1 | arrive2 | wait2 | fault => cases hopen

/-- A failed run before worker `j` in which no created worker ends its routine by itself. -/
structure StaysOpen (c : RunConfig) (j : Nat) (s : FailedRun T) : Prop where
  fields : ∀ i, FirstStage s.threads.shared i
  created : s.created ≤ j
  creating : ∀ i, s.main = .create i → i ≤ j
  clearing : ∀ i, s.main = .clearDoWork i → s.threads.shared.finished i = true
  workers : ∀ w, (s.threads.worker w).pc.Open c.firstBatch (s.threads.shared.finished w.castSucc)

theorem StaysOpen.of_sameFlags {j : Nat} {s : FailedRun T} (h : StaysOpen c j s) {t : ProtocolState T}
    (hflags : SameFlags s.threads.shared t.shared)
    (hworkers : ∀ w, (t.worker w).pc.Open c.firstBatch (s.threads.shared.finished w.castSucc)) :
    StaysOpen c j { s with threads := t } := by
  refine ⟨fun i => ⟨?_, ?_⟩, h.created, h.creating, ?_, ?_⟩
  · rw [hflags.stageIdx]
    exact (h.fields i).stageIdx
  · rw [hflags.doWork, hflags.finished]
    exact (h.fields i).flags
  · rw [hflags.finished]
    exact h.clearing
  · rw [hflags.finished]
    exact hworkers

theorem StaysOpen.step {j : Nat} {s s' : FailedRun T} (h : StaysOpen c j s)
    (hends : ∀ w : Fin T, w.val < j → ¬ EndsByItself (c.stages.head c.nonempty) T w) (hs : FailedStep c j s s') : StaysOpen c j s' := by
  cases hs with
  | @worker w m x hw hstep =>
    refine h.of_sameFlags (workerStep_effect hstep).1 ?_
    have hmove := workerStep_open (h.workers w) (h.fields w.castSucc) (hends w (hw.trans_le h.created)) hstep
    exact (Function.forall_update_iff s.threads.worker fun v y =>
      y.pc.Open c.firstBatch (s.threads.shared.finished v.castSucc)).mpr ⟨hmove, fun v _ => h.workers v⟩
  | output hstep => exact h.of_sameFlags (outputStep_effect hstep).1 h.workers
  | @create i hmain hne =>
    have hle := h.creating i hmain
    refine ⟨h.fields, by simp only; omega, ?_, nofun, h.workers⟩
    intro i' hi'
    obtain rfl : i + 1 = i' := MainPc.create.inj hi'
    omega
  | fail hcreate hclear =>
    exact ⟨h.fields, h.created, fun i hi => absurd hi (hcreate i), fun i hi => absurd hi (hclear i), h.workers⟩
  | @setFinished i hmain =>
    have hmono : ∀ k, s.threads.shared.finished k = true → Function.update s.threads.shared.finished i true k = true := by
      intro k hk
      by_cases hki : k = i
      · subst hki
        exact Function.update_self ..
      · rw [Function.update_of_ne hki]
        exact hk
    refine ⟨fun k => ⟨(h.fields k).stageIdx, fun hk => hmono k ((h.fields k).flags hk)⟩, h.created, nofun, ?_, ?_⟩
    · intro k hk
      obtain rfl : i = k := MainPc.clearDoWork.inj hk
      exact Function.update_self ..
    · exact fun w => (h.workers w).mono (hmono w.castSucc)
  | @clearDoWork i hmain =>
    refine ⟨fun k => ⟨(h.fields k).stageIdx, ?_⟩, h.created, nofun, nofun, h.workers⟩
    intro hk
    by_cases hki : k = i
    · subst hki
      exact h.clearing k hmain
    · have hsame : Function.update s.threads.shared.doWork i false k = s.threads.shared.doWork k := Function.update_of_ne hki _ _
      exact (h.fields k).flags (hsame.symm.trans hk)

theorem staysOpen_init (c : RunConfig) (T j : Nat) : StaysOpen c j (FailedRun.init T) := by
  refine ⟨fun _ => ⟨rfl, nofun⟩, Nat.zero_le j, ?_, nofun, fun _ => trivial⟩
  intro i hi
  obtain rfl : 0 = i := MainPc.create.inj hi
  exact Nat.zero_le j

/-! ## Workers whose routine ends by itself -/

/-- A worker takes steps alone. -/
def WorkerRuns (c : RunConfig) (w : Fin T) : Shared T × Worker → Shared T × Worker → Prop :=
  Relation.ReflTransGen fun p q => workerStep c w p.1 p.2 = some q

/-- Nobody has told the worker to stop. -/
structure Unstopped (m : Shared T) (w : Fin T) : Prop where
  doWork : m.doWork w.castSucc = true
  finished : m.finished w.castSucc = false
  stageIdx : m.stageIdx w.castSucc = 0

/-- The worker can get to the barrier. -/
def CanArrive (c : RunConfig) (w : Fin T) (m : Shared T) (x : Worker) : Prop :=
  ∃ m' x' r, WorkerRuns c w (m, x) (m', x') ∧ x'.pc = .wait1 r

theorem CanArrive.step {w : Fin T} {x x' : Worker} (h : CanArrive c w m' x') (hstep : workerStep c w m x = some (m', x')) :
    CanArrive c w m x := by
  obtain ⟨m₁, x₁, r, hrun, hpc⟩ := h
  exact ⟨m₁, x₁, r, .head hstep hrun, hpc⟩

theorem canArrive_check {w : Fin T} (hm : Unstopped m w) {x : Worker} {j : Nat} (hpc : x.pc = .check j) : CanArrive c w m x := by
  have hcheck : workerStep c w m x = some (m, { x with pc := .arrive1 }) := by simp [workerStep, hpc, hm.finished]
  refine CanArrive.step ?_ hcheck
  exact ⟨m.arrive, { x with pc := .wait1 m.barrier.round }, m.barrier.round, .single rfl, rfl⟩

theorem canArrive_completeLast {w : Fin T} (hm : Unstopped m w) {x : Worker} {j : Nat} (hpc : x.pc = .completeLast j) :
    CanArrive c w m x := by
  have hm' : Unstopped m.complete w := ⟨hm.doWork, hm.finished, hm.stageIdx⟩
  have hcomplete : workerStep c w m x =
      some (m.complete, { x with pc := endStage c w j, completions := x.completions + 1 }) := by simp [workerStep, hpc]
  refine CanArrive.step ?_ hcomplete
  rcases endStage_cases c w j with he | he <;> rw [he]
  · refine CanArrive.step (canArrive_check (j := j) hm' ?_) rfl
    rfl
  · exact canArrive_check hm' rfl

theorem canArrive_linear {w : Fin T} (hm : Unstopped m w) {endKey : Nat} {fuel : Nat} : ∀ {x : Worker} {key : Nat},
    x.pc = .linear 0 key endKey → (linearLoop (fun _ => true) c.firstBatch endKey fuel 0 key).isSome → CanArrive c w m x := by
  induction fuel with
  | zero => exact fun _ h => by simp [linearLoop] at h
  | succ fuel ih =>
    intro x key hpc hloop
    by_cases hlt : key < endKey
    · have hbody : workerStep c w m x = some (m, { x with pc := .linear 0 (linearBody c.firstBatch key).2 endKey }) := by
        simp [workerStep, hpc, hm.doWork, hlt, c.stages_zero, RunConfig.firstBatch]
      refine CanArrive.step (ih rfl ?_) hbody
      rw [linearLoop, if_pos ⟨rfl, hlt⟩, Option.isSome_map, isSome_linearLoop c.firstBatch endKey _ 0] at hloop
      exact hloop
    · have hend : workerStep c w m x = some (m, { x with pc := .completeLast 0 }) := by
        simp [workerStep, hpc, hlt]
      exact CanArrive.step (canArrive_completeLast (j := 0) hm rfl) hend

theorem canArrive_of_ends {w : Fin T} (hm : Unstopped m w) (hends : EndsByItself (c.stages.head c.nonempty) T w) {x : Worker}
    (hpc : x.pc = .top) : CanArrive c w m x := by
  have htop : workerStep c w m x = some (m, { x with pc := .readStage }) := by simp [workerStep, hpc, hm.finished]
  have hread : workerStep c w m { x with pc := .readStage } =
      some (m, { x with pc := beginStage T (c.stages.head c.nonempty) w 0, log := x.log ++ [0] }) := by
    simp [workerStep, hm.stageIdx, c.stages_zero]
  refine CanArrive.step (CanArrive.step ?_ hread) htop
  rcases beginStage_ends T (c.stages.head c.nonempty) w 0 with ⟨he, -⟩ | ⟨-, habs⟩ | ⟨key, endKey, he, hiff⟩
  · exact canArrive_completeLast hm he
  · exact absurd hends habs
  · obtain ⟨fuel, hfuel⟩ := hiff.mp hends
    exact canArrive_linear hm he hfuel

/-- A worker that has been created can run alone. -/
theorem run_of_workerRuns {j : Nat} {w : Fin T} {q : Shared T × Worker} {s : FailedRun T} (hw : w.val < s.created)
    (h : WorkerRuns c w (s.threads.shared, s.threads.worker w) q) :
    ∃ chs s', Runs.run (FailedRun.step c j) s chs = some s' ∧ s'.threads.worker w = q.2 := by
  generalize hp : (s.threads.shared, s.threads.worker w) = p at h
  induction h using Relation.ReflTransGen.head_induction_on generalizing s with
  | refl => exact ⟨[], s, rfl, by rw [← hp]⟩
  | @head p p' hstep _ ih =>
    subst hp
    let t : ProtocolState T := { s.threads with shared := p'.1, worker := Function.update s.threads.worker w p'.2 }
    have hnext : FailedRun.step c j s (.worker w) = some { s with threads := t } := by
      simp only [FailedRun.step, hw, if_true, ProtocolState.next, hstep, Option.map_some]
      rfl
    obtain ⟨chs, s', hrun, hend⟩ := ih (s := { s with threads := t }) hw (by simp [t])
    refine ⟨.worker w :: chs, s', ?_, hend⟩
    rw [Runs.run, hnext]
    exact hrun

/-- The main thread creates the workers before the one that fails. -/
theorem run_create (c : RunConfig) {j : Nat} : ∀ {n i : Nat}, i + n ≤ j → ∀ t : ProtocolState T,
    Runs.run (FailedRun.step c j) ⟨t, i, .create i⟩ (List.replicate n .coord) = some ⟨t, i + n, .create (i + n)⟩ := by
  intro n
  induction n with
  | zero => exact fun _ _ => rfl
  | succ n ih =>
    intro i hle t
    have hne : i ≠ j := by omega
    have hstep : FailedRun.step c j ⟨t, i, .create i⟩ .coord = some ⟨t, i + 1, .create (i + 1)⟩ := by
      simp [FailedRun.step, FailedRun.mainStep, hne]
    rw [List.replicate_succ, Runs.run, hstep]
    have hrest := ih (i := i + 1) (by omega) t
    rw [show i + 1 + n = i + (n + 1) by omega] at hrest
    exact hrest

/-- When worker `j` cannot be created: the workers that have been created never arrive at the barrier, in any interleaving, exactly if
none of their routines in the first stage ends while `do_work` is true. The barrier is never released in any case. -/
theorem created_workers_joinable_iff (c : RunConfig) (T : Nat) (j : Fin T) :
    ((∀ chs s, Runs.run (FailedRun.step c j) (FailedRun.init T) chs = some s → ∀ (w : Fin T) r, (s.threads.worker w).pc ≠ .wait1 r) ↔
      ∀ w : Fin T, w < j → ¬ EndsByItself (c.stages.head c.nonempty) T w) ∧
    ∀ chs s, Runs.run (FailedRun.step c j) (FailedRun.init T) chs = some s → s.threads.shared.barrier.round = 0 := by
  refine ⟨⟨?_, ?_⟩, ?_⟩
  · intro hnever w hw hends
    have hcreate := run_create c (T := T) (j := j) (n := w.val + 1) (i := 0) (by omega) (.init T)
    obtain ⟨m', x', r, hruns, hpc⟩ := canArrive_of_ends (c := c) (m := (ProtocolState.init T).shared) (w := w) ⟨rfl, rfl, rfl⟩ hends
      (x := (ProtocolState.init T).worker w) rfl
    obtain ⟨chs, s', hrun, hend⟩ := run_of_workerRuns (j := j) (s := ⟨.init T, 0 + (w.val + 1), .create (0 + (w.val + 1))⟩)
      (by simp) hruns
    refine hnever (List.replicate (w.val + 1) .coord ++ chs) s' ?_ w r (hend ▸ hpc)
    rw [Runs.run_append]
    exact (congrArg (fun o => Option.bind o fun t => Runs.run (FailedRun.step c j) t chs) hcreate).trans hrun
  · intro hends chs s hrun w r hpc
    have hopen : StaysOpen c j s := (Runs.throughout_of_step
      (fun _ _ _ h hs => StaysOpen.step h hends (failedStep_of_step hs)) (staysOpen_init c T j)).last hrun
    have habs := hopen.workers w
    rw [hpc] at habs
    exact habs
  · intro chs s hrun
    exact ((Runs.throughout_of_step (Q := fun s : FailedRun T => Unreleased s.threads.shared.barrier s.threads.view)
      (fun _ _ _ h hs => unreleased_step h (failedStep_of_step hs)) (unreleased_init T)).last hrun).round

/-- A run of one insert stage over two keys, for two workers. -/
def twoKeyRun : RunConfig where
  stages := [Stage.ofWorkload ⟨.i, .num 0, .num 0, .num 100, .num 100⟩ 1 3]
  nonempty := by simp

/-- The first worker inserts its key and goes to the barrier; then the second one cannot be created. -/
def lateFailure : List (Choice 2) := [.coord] ++ List.replicate 7 (.worker ⟨0, Nat.two_pos⟩) ++ List.replicate 3 .coord

/-- The main thread waits for the first worker, which has been told to exit and waits at the barrier: neither goes on. -/
theorem created_worker_not_joined : ∃ s : FailedRun 2, Runs.run (FailedRun.step twoKeyRun 1) (FailedRun.init 2) lateFailure = some s ∧
    (s.threads.worker 0).pc = .wait1 0 ∧ s.main = .join 0 ∧ s.threads.shared.finished 0 = true ∧
    (s.step twoKeyRun 1 (.worker 0)).isNone ∧ (s.step twoKeyRun 1 .coord).isNone := by
  have hend : (Runs.run (FailedRun.step twoKeyRun 1) (FailedRun.init 2) lateFailure).map (fun s => ((s.threads.worker 0).pc, s.main,
      s.threads.shared.finished 0, (s.step twoKeyRun 1 (.worker 0)).isNone, (s.step twoKeyRun 1 .coord).isNone)) =
      some (.wait1 0, .join 0, true, true, true) := by decide +kernel
  obtain ⟨s, hs, hpcs⟩ := Option.map_eq_some_iff.mp hend
  simp only [Prod.mk.injEq] at hpcs
  exact ⟨s, hs, hpcs⟩

end AerospikeBenchmark
