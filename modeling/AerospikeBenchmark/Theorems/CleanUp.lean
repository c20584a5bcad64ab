import AerospikeBenchmark.Args.CleanUp
import AerospikeBenchmark.Lib.Results
import AerospikeBenchmark.Theorems.ExitStatus

/-!
# The clean-up of the arguments

`_free_args` looks at the stages if a stages file was named, whether or not they were set up. When it reads them unassigned, and that
the array of stages is released once in every run.
-/

namespace AerospikeBenchmark

open CText Cells Results

variable {R : AsRandom} {env : CmdEnv} {results : Args → List Stage → RunResults} {mem : Nat → Stage} {array : Nat} {args : Args}
  {options : List CmdOption}

/-- `set_args` stops after an option that names a stages file. -/
def StopsWithFile (R : AsRandom) (env : CmdEnv) (options : List CmdOption) : Prop :=
  ∃ taken s file, StopsAfter R env options taken s ∧ .workloadStages file ∈ taken

/-- An array that was allocated was released once. -/
def ReleasedOnce (events : List StagesEvent) : Prop :=
  ∀ array, .allocated array ∈ events → events.count (.released array) = 1

/-- The array is allocated first, then used, and released in the end. -/
def LivesOnce (array : Nat) (events : List StagesEvent) : Prop :=
  ∃ uses, events = .allocated array :: (List.replicate uses (.used array) ++ [.released array])

theorem LivesOnce.releasedOnce {events : List StagesEvent} (h : LivesOnce array events) : ReleasedOnce events := by
  obtain ⟨uses, rfl⟩ := h
  intro a ha
  have ha : a = array := by
    simpa using ha
  subst ha
  simp [List.count_append, List.count_replicate]

/-! ## The parts of a run -/

/-- All that `_free_args` reads is assigned, except perhaps the stages, which it reads if a stages file was named. -/
theorem freeArgs_store (raw : RawArgs) (args : Args) :
    freeArgs (raw.store args) = if args.workloadStagesFile ≠ none then raw.stages.free else .ok [] := by
  have hspec : (raw.store args).freeObjSpec = .ok () := by
    unfold RawArgs.freeObjSpec RawArgs.store
    cases args.objSpecValid <;> rfl
  unfold freeArgs
  rw [hspec]
  by_cases hfile : args.workloadStagesFile ≠ none
  · simp only [RawArgs.store, readCell_some, ok_bind, if_pos hfile]
    cases raw.stages.free <;> rfl
  · simp only [RawArgs.store, readCell_some, ok_bind, if_neg hfile]
    rfl

/-- The clean-up leaves stages alone that nobody asks for or that are not valid. -/
theorem endRun_store (raw : RawArgs) {ret : Int} {events : List StagesEvent}
    (h : args.workloadStagesFile ≠ none → raw.stages.valid = some false) : (raw.store args).endRun ret events = ⟨events, .ok ret⟩ := by
  have hfree : freeArgs (raw.store args) = .ok [] := by
    rw [freeArgs_store]
    split
    · next hfile =>
      rw [RawStages.free, h hfile]
      rfl
    · rfl
  simp only [RawArgs.endRun, hfree, List.append_nil]

/-- `_load_defaults_post` sets up an array, which is left to `args.stages`. -/
theorem postStages_of_ok {stages : List Stage} (array : Nat) (raw : RawStages) (h : loadDefaultsPost R env mem args = .ok stages) :
    ∃ n, postStages R env mem array args raw = (⟨some array, some n, some true⟩, [.allocated array, .used array]) := by
  cases hfile : args.workloadStagesFile with
  | some file =>
    simp only [loadDefaultsPost, hfile] at h
    simp only [postStages, hfile]
    cases hdefs : env.cyamlLoadFile file with
    | some defs =>
      simp only [hdefs] at h
      simp only [h]
      exact ⟨_, rfl⟩
    | none =>
      rw [hdefs] at h
      cases h
  | none =>
    simp only [loadDefaultsPost, hfile] at h
    simp only [postStages, hfile, h]
    exact ⟨_, rfl⟩

/-- When it fails, the array is released if there is one, and with a stages file the flag is false. -/
theorem postStages_of_error {e : PostError} (array : Nat) (raw : RawStages) (h : loadDefaultsPost R env mem args = .error e) :
    (args.workloadStagesFile ≠ none → (postStages R env mem array args raw).1.valid = some false) ∧
      ((postStages R env mem array args raw).2 = [] ∨ LivesOnce array (postStages R env mem array args raw).2) := by
  cases hfile : args.workloadStagesFile with
  | some file =>
    simp only [loadDefaultsPost, hfile] at h
    simp only [postStages, hfile]
    cases hdefs : env.cyamlLoadFile file with
    | some defs =>
      simp only [hdefs] at h
      simp only [h]
      exact ⟨fun _ => rfl, .inr ⟨2, rfl⟩⟩
    | none => exact ⟨fun _ => rfl, .inl rfl⟩
  | none =>
    simp only [loadDefaultsPost, hfile] at h
    simp only [postStages, hfile, h]
    exact ⟨fun hne => absurd rfl hne, .inr ⟨2, rfl⟩⟩

/-- Without a file the flag is true in the end even if the stages have been released. -/
theorem postStages_flag {e : PostError} (array : Nat) (raw : RawStages) (hfile : args.workloadStagesFile = none)
    (h : loadDefaultsPost R env mem args = .error e) :
    (postStages R env mem array args raw).1.valid = some true ∧ .released array ∈ (postStages R env mem array args raw).2 := by
  unfold loadDefaultsPost at h
  unfold postStages
  simp only [hfile] at h ⊢
  simp [h, setUpRecord, Except.toOption]

/-- Whichever way `run_benchmark` ends, it takes the stages over, uses them and releases them. -/
theorem printAndRun_eq (array : Nat) (r : RunResults) (args : Args) (stages : List Stage) (n : Nat) :
    ∃ uses, printAndRun r args stages ⟨some array, some n, some true⟩ =
      .ok ((runUpToCleanUp r args stages).1, ⟨some array, some n, some false⟩,
        List.replicate uses (.used array) ++ [.released array]) := by
  unfold printAndRun runBenchmark
  by_cases hlabel : (runUpToCleanUp r args stages).2 = .cleanup1
  · refine ⟨3, ?_⟩
    simp only [stagesMove, RawStages.use, RawStages.free, readCell_some, ok_bind, hlabel]
    rfl
  · refine ⟨5, ?_⟩
    simp only [stagesMove, RawStages.use, RawStages.free, readCell_some, ok_bind, if_neg hlabel]
    rfl

/-! ## Whole runs -/

/-- After a stop with a stages file the clean-up reads the flag of stages that were never set up. -/
theorem benchmarkRun_of_stop_with_file {s : Stopped} (hargs : setArgs R env (loadDefaults env) options = .error s)
    (hfile : s.args.workloadStagesFile ≠ none) : benchmarkRun R env results mem array options = ⟨[], .error (.stages .valid)⟩ := by
  have hfree : freeArgs ((({} : RawArgs).store (loadDefaults env)).store s.args) = .error (.stages .valid) := by
    rw [freeArgs_store, if_pos hfile]
    rfl
  simp only [benchmarkRun, hargs, RawArgs.endRun, hfree]

/-- After a stop without one it reads assigned fields only, and there was no array. -/
theorem benchmarkRun_of_stop {s : Stopped} (hargs : setArgs R env (loadDefaults env) options = .error s)
    (hfile : s.args.workloadStagesFile = none) :
    benchmarkRun R env results mem array options = ⟨[], .ok (resetRet s.reason.ret)⟩ := by
  simp only [benchmarkRun, hargs]
  exact endRun_store _ fun hne => absurd hfile hne

/-- The result for arguments that were accepted. -/
def acceptedRet (R : AsRandom) (env : CmdEnv) (results : Args → List Stage → RunResults) (mem : Nat → Stage) (args : Args) : Int :=
  match loadDefaultsPost R env mem args with
  | .error e => resetRet e.ret
  | .ok stages => (runUpToCleanUp (results args stages) args stages).1

/-- When the command line is accepted, assigned fields only are read, whether or not the stages can be set up. -/
theorem benchmarkRun_of_accepted (results : Args → List Stage → RunResults) (mem : Nat → Stage) (array : Nat)
    (hargs : setArgs R env (loadDefaults env) options = .ok args) :
    ∃ events, benchmarkRun R env results mem array options = ⟨events, .ok (acceptedRet R env results mem args)⟩ ∧
      (events = [] ∨ LivesOnce array events) := by
  unfold acceptedRet
  cases hpost : loadDefaultsPost R env mem args with
  | error e =>
    obtain ⟨hflag, hevents⟩ := postStages_of_error array {} hpost
    refine ⟨_, ?_, hevents⟩
    simp only [benchmarkRun, hargs, hpost]
    exact endRun_store { stages := _ } hflag
  | ok stages =>
    obtain ⟨n, hrecord⟩ := postStages_of_ok array (({} : RawArgs).store (loadDefaults env)).stages hpost
    obtain ⟨uses, hrun⟩ := printAndRun_eq array (results args stages) args stages n
    refine ⟨.allocated array :: (List.replicate (uses + 1) (.used array) ++ [.released array]), ?_, .inr ⟨uses + 1, rfl⟩⟩
    simp only [benchmarkRun, hargs, hpost, hrecord, hrun]
    exact endRun_store { stages := ⟨some array, some n, some false⟩ } fun _ => rfl

theorem stopsWithFile_iff : StopsWithFile R env options ↔
    ∃ s, setArgs R env (loadDefaults env) options = .error s ∧ s.args.workloadStagesFile ≠ none := by
  constructor
  · rintro ⟨taken, s, file, hstops, hfile⟩
    exact ⟨s, setArgs_error_iff.mpr ⟨taken, hstops⟩, hstops.file_iff.mpr ⟨file, hfile⟩⟩
  · rintro ⟨s, hs, hfile⟩
    obtain ⟨taken, hstops⟩ := setArgs_error_iff.mp hs
    obtain ⟨file, hmem⟩ := hstops.file_iff.mp hfile
    exact ⟨taken, s, file, hstops, hmem⟩

/-- The ways in which a run ends. -/
inductive EndsWith (R : AsRandom) (env : CmdEnv) (results : Args → List Stage → RunResults) (mem : Nat → Stage) (array : Nat)
    (options : List CmdOption) : InitRun → Prop
  | stopWithFile {s : Stopped} (hargs : setArgs R env (loadDefaults env) options = .error s)
      (hfile : s.args.workloadStagesFile ≠ none) : EndsWith R env results mem array options ⟨[], .error (.stages .valid)⟩
  | stop {s : Stopped} (hargs : setArgs R env (loadDefaults env) options = .error s) (hfile : s.args.workloadStagesFile = none) :
      EndsWith R env results mem array options ⟨[], .ok (resetRet s.reason.ret)⟩
  | accepted {args : Args} {events : List StagesEvent} (hargs : setArgs R env (loadDefaults env) options = .ok args)
      (hevents : events = [] ∨ LivesOnce array events) :
      EndsWith R env results mem array options ⟨events, .ok (acceptedRet R env results mem args)⟩

theorem benchmarkRun_endsWith (R : AsRandom) (env : CmdEnv) (results : Args → List Stage → RunResults) (mem : Nat → Stage)
    (array : Nat) (options : List CmdOption) :
    EndsWith R env results mem array options (benchmarkRun R env results mem array options) := by
  cases hargs : setArgs R env (loadDefaults env) options with
  | error s =>
    by_cases hfile : s.args.workloadStagesFile = none
    · rw [benchmarkRun_of_stop hargs hfile]
      exact .stop hargs hfile
    · rw [benchmarkRun_of_stop_with_file hargs hfile]
      exact .stopWithFile hargs hfile
  | ok args =>
    obtain ⟨events, heq, hevents⟩ := benchmarkRun_of_accepted results mem array hargs
    rw [heq]
    exact .accepted hargs hevents

section

variable {run : InitRun} (h : EndsWith R env results mem array options run)
include h

/-- A run that reads assigned fields only ends with the result of `benchmarkInit`. -/
theorem EndsWith.benchmarkInit_eq
    (hrun : ∀ args stages, env.runBenchmark args stages = (runUpToCleanUp (results args stages) args stages).1) {ret : Int}
    (hret : run.result = .ok ret) : benchmarkInit R env mem options = ret := by
  cases h with
  | stopWithFile hargs hfile => cases hret
  | stop hargs hfile =>
    rw [benchmarkInit, hargs]
    exact Except.ok.inj hret
  | @accepted args events hargs hevents =>
    rw [benchmarkInit, hargs, ← Except.ok.inj hret, acceptedRet]
    dsimp only
    cases loadDefaultsPost R env mem args with
    | error e => rfl
    | ok stages => exact hrun args stages

/-- The array of stages is not allocated, or it is allocated, used and then released. -/
theorem EndsWith.livesOnce : run.events = [] ∨ LivesOnce array run.events := by
  cases h with
  | stopWithFile hargs hfile => exact .inl rfl
  | stop hargs hfile => exact .inl rfl
  | accepted hargs hevents => exact hevents

theorem EndsWith.releasedOnce : ReleasedOnce run.events := by
  rcases h.livesOnce with hevents | hlives
  · rw [hevents]
    intro a ha
    cases ha
  · exact hlives.releasedOnce

/-- An unassigned field is read exactly if `set_args` stops after an option that names a stages file. -/
theorem EndsWith.readsAssigned_iff : ReadsAssigned run.result ↔ ¬ StopsWithFile R env options := by
  rw [stopsWithFile_iff]
  cases h with
  | stopWithFile hargs hfile =>
    refine iff_of_false (not_readsAssigned_of_error (.stages .valid) rfl) ?_
    exact not_not.mpr ⟨_, hargs, hfile⟩
  | stop hargs hfile =>
    refine iff_of_true ⟨_, rfl⟩ ?_
    rintro ⟨s, hs, hne⟩
    cases hargs.symm.trans hs
    exact hne hfile
  | accepted hargs hevents =>
    refine iff_of_true ⟨_, rfl⟩ ?_
    rintro ⟨s, hs, -⟩
    cases hargs.symm.trans hs

end

/-- `_free_args` reads only fields that have been assigned, exactly if `set_args` does not stop after an option that names a stages
file. The array of stages is released once in every run in which it is allocated. -/
theorem clean_up_reads_assigned_iff (R : AsRandom) (env : CmdEnv) (results : Args → List Stage → RunResults) (mem : Nat → Stage)
    (array : Nat) (options : List CmdOption) :
    (ReadsAssigned (benchmarkRun R env results mem array options).result ↔ ¬ StopsWithFile R env options) ∧
      ReleasedOnce (benchmarkRun R env results mem array options).events := by
  have hends := benchmarkRun_endsWith R env results mem array options
  exact ⟨hends.readsAssigned_iff, hends.releasedOnce⟩

/-- A stages file together with a request of the usage, and together with a number of threads that is rejected in the end. -/
theorem clean_up_reads_unassigned :
    ¬ ReadsAssigned (benchmarkRun .littleEndian failingEnv (fun _ _ => ⟨1, false, 0, 0⟩)
      (fun _ => Stage.ofWorkload ⟨.i, .nan, .nan, .nan, .nan⟩ 0 0) 0 [.workloadStages ['f'], .help]).result ∧
    ¬ ReadsAssigned (benchmarkRun .littleEndian failingEnv (fun _ _ => ⟨1, false, 0, 0⟩)
      (fun _ => Stage.ofWorkload ⟨.i, .nan, .nan, .nan, .nan⟩ 0 0) 0 [.workloadStages ['f'], .plain (.threads ['0'])]).result :=
  ⟨not_readsAssigned_of_error (.stages .valid) (by decide +kernel), not_readsAssigned_of_error (.stages .valid) (by decide +kernel)⟩

end AerospikeBenchmark
