import AerospikeBenchmark.Args.Init
import AerospikeBenchmark.Lemmas.Args

/-!
# The exit status of a rejected command line

`benchmark_init` takes the result -1 for a request of the usage or the version, and other places return it for errors. Which command
lines are rejected with the status 0.
-/

namespace AerospikeBenchmark

open CText ErrorRuns

variable {R : AsRandom} {env : CmdEnv} {mem : Nat → Stage} {args : Args} {options : List CmdOption}

/-- The program has done what the command line asks for: the usage or the version was shown, or everything was set up and the run
succeeded. -/
def EndsWell (R : AsRandom) (env : CmdEnv) (mem : Nat → Stage) (options : List CmdOption) : Prop :=
  (∃ s, setArgs R env (loadDefaults env) options = .error s ∧ (s.reason = .version ∨ s.reason = .help)) ∨
  ∃ args stages, setArgs R env (loadDefaults env) options = .ok args ∧ loadDefaultsPost R env mem args = .ok stages ∧
    env.runBenchmark args stages = 0

/-- An option that is rejected after the options `before` with the result that stands for the usage and the version too: a stage
option with a stages file, a name of a UDF that is too long, a number that is not decimal, or an object spec that is malformed. -/
inductive RejectedQuietly (R : AsRandom) (before : List CmdOption) : CmdOption → Prop
  | stageWithFile (o : StageOption) (h : ∃ file, .workloadStages file ∈ before) : RejectedQuietly R before (.stage o)
  | fileWithStage (file : Text) (h : ∃ o, .stage o ∈ before) : RejectedQuietly R before (.workloadStages file)
  | packageTooLong (name : Text) (h : udfNameSize < name.length) : RejectedQuietly R before (.stage (.udfPackageName name))
  | functionTooLong (name : Text) (h : udfNameSize < name.length) : RejectedQuietly R before (.stage (.udfFunctionName name))
  | expirationTime (str : Text) (h : (strtol 10 str).map (·.rest) ≠ some []) : RejectedQuietly R before (.stage (.expirationTime str))
  | duration (str : Text) (h : (strtoul 10 str).map (·.rest) ≠ some []) : RejectedQuietly R before (.stage (.duration str))
  | objectSpec (str : Text) (e : ParseFailure) (h : objSpecParse R str = .error e) : RejectedQuietly R before (.objectSpec str)

/-- The first option at which `set_args` stops is rejected so. -/
def QuietOption (R : AsRandom) (env : CmdEnv) (options : List CmdOption) : Prop :=
  ∃ before o after args, options = before ++ o :: after ∧ setOptions R env (loadDefaults env) before = .ok args ∧
    RejectedQuietly R before o

/-- The stages cannot be set up: the stages file cannot be loaded, or a stage definition is rejected. -/
def QuietStages (R : AsRandom) (env : CmdEnv) (mem : Nat → Stage) (options : List CmdOption) : Prop :=
  ∃ args e, setArgs R env (loadDefaults env) options = .ok args ∧ loadDefaultsPost R env mem args = .error e

/-! ## Results -/

/-- A stage option stops with -1, for one of three reasons. -/
theorem stageOption_store_stop {o : StageOption} {s : CmdStage} {reason : StopReason} (before : List CmdOption)
    (h : (o.store s).2 = some reason) :
    (reason.ret = -1 ∧ reason ≠ .version ∧ reason ≠ .help) ∧ RejectedQuietly R before (.stage o) := by
  cases o with
  | udfPackageName optarg =>
    simp only [StageOption.store] at h
    split_ifs at h with hlen
    cases h
    exact ⟨⟨rfl, by simp, by simp⟩, .packageTooLong optarg hlen⟩
  | udfFunctionName optarg =>
    simp only [StageOption.store] at h
    split_ifs at h with hlen
    cases h
    exact ⟨⟨rfl, by simp, by simp⟩, .functionTooLong optarg hlen⟩
  | expirationTime optarg =>
    simp only [StageOption.store, checkDecimal] at h
    split_ifs at h with hend
    cases h
    exact ⟨⟨rfl, by simp, by simp⟩, .expirationTime optarg hend⟩
  | duration optarg =>
    simp only [StageOption.store, checkDecimal] at h
    split_ifs at h with hend
    cases h
    exact ⟨⟨rfl, by simp, by simp⟩, .duration optarg hend⟩
  | _ => cases h

/-- An option at which `set_args` stops with -1 asks for the usage or the version, or it is rejected quietly. -/
theorem setOption_stop {before : List CmdOption} (hseen : Seen before args) {o : CmdOption} {s : Stopped}
    (h : setOption R env args o = .error s) (hret : s.reason.ret = -1) :
    s.reason = .version ∨ s.reason = .help ∨
      (s.reason ≠ .version ∧ s.reason ≠ .help) ∧ RejectedQuietly R before o := by
  cases o with
  | version deprecated =>
    cases h
    exact .inl rfl
  | help =>
    cases h
    exact .inr (.inl rfl)
  | unknown =>
    cases h
    cases hret
  | plain o => cases h
  | stage o =>
    simp only [setOption] at h
    split_ifs at h with hfile
    · cases h
      exact .inr (.inr ⟨⟨by simp, by simp⟩, .stageWithFile o (hseen.file.mp hfile)⟩)
    · split at h
      · cases h
      · next reason hreason =>
        cases h
        obtain ⟨⟨-, hne⟩, hquiet⟩ := stageOption_store_stop before hreason
        exact .inr (.inr ⟨hne, hquiet⟩)
  | objectSpec optarg =>
    simp only [setOption] at h
    split at h
    · cases h
    · next e hparse =>
      cases h
      exact .inr (.inr ⟨⟨by simp, by simp⟩, .objectSpec optarg e hparse⟩)
  | workloadStages optarg =>
    simp only [setOption] at h
    split_ifs at h with hstage
    cases h
    exact .inr (.inr ⟨⟨by simp, by simp⟩, .fileWithStage optarg (hseen.stage.mp hstage)⟩)
  | replica optarg | readModeAp optarg | readModeSc optarg | commitLevel optarg | auth optarg =>
    rw [choose_eq_error h] at hret
    cases hret

/-- A quietly rejected option makes `set_args` stop with -1. -/
theorem rejectedQuietly_stops {before : List CmdOption} (hseen : Seen before args) {o : CmdOption} (h : RejectedQuietly R before o) :
    ∃ s, setOption R env args o = .error s ∧ s.reason.ret = -1 ∧ s.reason ≠ .version ∧ s.reason ≠ .help := by
  have hstage : ∀ (so : StageOption) (reason : StopReason), (so.store args.getOrInitStage).2 = some reason →
      ∃ s, setOption R env args (.stage so) = .error s ∧ s.reason.ret = -1 ∧ s.reason ≠ .version ∧ s.reason ≠ .help := by
    intro so reason hreason
    obtain ⟨hret, -⟩ := stageOption_store_stop (R := R) before hreason
    simp only [setOption]
    split_ifs
    · exact ⟨_, rfl, rfl, by simp, by simp⟩
    · rw [hreason]
      exact ⟨_, rfl, hret⟩
  cases h with
  | stageWithFile so h => exact ⟨⟨.stageWithFile so, args⟩, if_pos (hseen.file.mpr h), rfl, by simp, by simp⟩
  | fileWithStage file h => exact ⟨⟨.fileWithStage, args⟩, if_pos (hseen.stage.mpr h), rfl, by simp, by simp⟩
  | packageTooLong name h => exact hstage _ (.udfPackageTooLong name) (by simp only [StageOption.store, if_pos h])
  | functionTooLong name h => exact hstage _ (.udfFunctionTooLong name) (by simp only [StageOption.store, if_pos h])
  | expirationTime str h => exact hstage _ (.notDecimal str) (by simp only [StageOption.store, checkDecimal, if_neg h])
  | duration str h => exact hstage _ (.notDecimal str) (by simp only [StageOption.store, checkDecimal, if_neg h])
  | objectSpec str e h =>
    refine ⟨⟨.objSpec e, { args with objSpecValid := false }⟩, ?_, rfl, by simp, by simp⟩
    simp only [setOption, h]

/-- `set_args` stops with -1 for the usage, for the version or at an option that is rejected quietly. -/
theorem setArgs_quiet_iff : (∃ s, setArgs R env (loadDefaults env) options = .error s ∧ s.reason.ret = -1 ∧ s.reason ≠ .version ∧
    s.reason ≠ .help) ↔ QuietOption R env options := by
  constructor
  · rintro ⟨s, hs, hret, hversion, hhelp⟩
    obtain ⟨taken, hstops⟩ := setArgs_error_iff.mp hs
    cases hstops with
    | @atOption _ o after t _ hoptions htaken hstop =>
      refine ⟨taken, o, after, t, hoptions, htaken, ?_⟩
      rcases setOption_stop (setOptions_seen htaken) hstop hret with h | h | ⟨-, h⟩
      · exact absurd h hversion
      · exact absurd h hhelp
      · exact h
    | atEnd htaken hstop =>
      rw [(finishArgs_error hstop).1] at hret
      cases hret
  · rintro ⟨before, o, after, t, hoptions, hbefore, hquiet⟩
    obtain ⟨s, ho, hs⟩ := rejectedQuietly_stops (setOptions_seen hbefore) hquiet
    exact ⟨s, setArgs_error_iff.mpr ⟨before, .atOption hoptions hbefore ho⟩, hs⟩

theorem ret_cases (reason : StopReason) : reason.ret = -1 ∨ reason.ret = 1 := by
  cases reason <;> simp [StopReason.ret]

/-- An environment in which nothing is found and the run fails. -/
def failingEnv : CmdEnv where
  socketTimeoutDefault := 30000
  totalTimeoutDefault := 0
  authModeFromString _ := none
  passwordAcquire _ := []
  getpass := []
  getenv _ := none
  firstLine _ := none
  cyamlLoadFile _ := none
  runBenchmark _ _ := 1

/-- Whether the usage or the version was shown. -/
def showsUsage : Except Stopped Args → Bool
  | .error ⟨.version, _⟩ | .error ⟨.help, _⟩ => true
  | _ => false

/-- A command line gives the status 0 there although the program has not done what it asks for. -/
def QuietlyRejected (options : List CmdOption) : Prop :=
  benchmarkInit .littleEndian failingEnv (fun _ => Stage.ofWorkload ⟨.i, .nan, .nan, .nan, .nan⟩ 0 0) options = 0 ∧
    ¬ EndsWell .littleEndian failingEnv (fun _ => Stage.ofWorkload ⟨.i, .nan, .nan, .nan, .nan⟩ 0 0) options

theorem quietlyRejected_of
    (hzero : benchmarkInit .littleEndian failingEnv (fun _ => Stage.ofWorkload ⟨.i, .nan, .nan, .nan, .nan⟩ 0 0) options = 0)
    (husage : showsUsage (setArgs .littleEndian failingEnv (loadDefaults failingEnv) options) = false) :
    QuietlyRejected options := by
  refine ⟨hzero, ?_⟩
  rintro (⟨s, hs, hreason⟩ | ⟨args, stages, -, -, hrun⟩)
  · obtain ⟨reason, args⟩ := s
    rw [hs] at husage
    rcases hreason with rfl | rfl <;> cases husage
  · cases hrun

end AerospikeBenchmark
