import AerospikeBenchmark.Args.SetArgs

/-!
# What options leave behind

For a run of the option loop: whether a stages file was named and a stage definition created, when an option is accepted and when
`set_args` stops.
-/

namespace AerospikeBenchmark

open CText ErrorRuns

variable {R : AsRandom} {env : CmdEnv} {args : Args} {options : List CmdOption}

/-! ## Accepted options -/

/-- What the arguments are after an option that is accepted. -/
inductive Accepts (R : AsRandom) (env : CmdEnv) (args : Args) : CmdOption → Args → Prop
  | plain (o : PlainOption) : Accepts R env args (.plain o) (o.store env args)
  | stage (o : StageOption) (hfile : args.workloadStagesFile = none) (h : (o.store args.getOrInitStage).2 = none) :
      Accepts R env args (.stage o) { args with stageDef := some (o.store args.getOrInitStage).1 }
  | objectSpec (optarg : Text) (o : ObjSpec) (h : objSpecParse R optarg = .ok o) :
      Accepts R env args (.objectSpec optarg) { args with objSpec := o, objSpecValid := true }
  | workloadStages (optarg : Text) (h : args.stageDef = none) :
      Accepts R env args (.workloadStages optarg) { args with workloadStagesFile := some optarg }
  | replica (optarg : Text) (v : ReplicaPolicy) (h : replicaOf optarg = some v) :
      Accepts R env args (.replica optarg) { args with replica := v }
  | readModeAp (optarg : Text) (v : ReadModeAp) (h : readModeApOf optarg = some v) :
      Accepts R env args (.readModeAp optarg) { args with readModeAp := v }
  | readModeSc (optarg : Text) (v : ReadModeSc) (h : readModeScOf optarg = some v) :
      Accepts R env args (.readModeSc optarg) { args with readModeSc := v }
  | commitLevel (optarg : Text) (v : CommitLevel) (h : commitLevelOf optarg = some v) :
      Accepts R env args (.commitLevel optarg) { args with writeCommitLevel := v }
  | auth (optarg : Text) (v : AuthMode) (h : env.authModeFromString optarg = some v) :
      Accepts R env args (.auth optarg) { args with authMode := v }

theorem choose_eq_ok {α : Type} {choice : Option α} {reason : StopReason} {assign : α → Args} {args' : Args}
    (h : choose args choice reason assign = .ok args') : ∃ v, choice = some v ∧ args' = assign v := by
  cases choice with
  | none => cases h
  | some v =>
    cases h
    exact ⟨v, rfl, rfl⟩

theorem accepts_of_setOption {o : CmdOption} {args' : Args} (h : setOption R env args o = .ok args') : Accepts R env args o args' := by
  cases o with
  | version deprecated | help | unknown => cases h
  | plain o =>
    cases h
    exact .plain o
  | stage o =>
    simp only [setOption] at h
    split_ifs at h with hfile
    split at h
    · next hstore =>
      cases h
      exact .stage o (not_not.mp hfile) hstore
    · cases h
  | objectSpec optarg =>
    simp only [setOption] at h
    split at h
    · next o hparse =>
      cases h
      exact .objectSpec optarg o hparse
    · cases h
  | workloadStages optarg =>
    simp only [setOption] at h
    split_ifs at h with hstage
    cases h
    exact .workloadStages optarg (not_not.mp hstage)
  | replica optarg =>
    obtain ⟨v, hv, rfl⟩ := choose_eq_ok h
    exact .replica optarg v hv
  | readModeAp optarg =>
    obtain ⟨v, hv, rfl⟩ := choose_eq_ok h
    exact .readModeAp optarg v hv
  | readModeSc optarg =>
    obtain ⟨v, hv, rfl⟩ := choose_eq_ok h
    exact .readModeSc optarg v hv
  | commitLevel optarg =>
    obtain ⟨v, hv, rfl⟩ := choose_eq_ok h
    exact .commitLevel optarg v hv
  | auth optarg =>
    obtain ⟨v, hv, rfl⟩ := choose_eq_ok h
    exact .auth optarg v hv

/-! ## The two fields that exclude each other -/

/-- Whether a stages file was named and whether the stage definition was created, for the options so far. -/
structure Seen (options : List CmdOption) (args : Args) : Prop where
  file : args.workloadStagesFile ≠ none ↔ ∃ file, .workloadStages file ∈ options
  stage : args.stageDef ≠ none ↔ ∃ o, .stage o ∈ options

theorem store_workloadStagesFile (o : PlainOption) : (o.store env args).workloadStagesFile = args.workloadStagesFile := by
  cases o <;> rfl

theorem store_stageDef (o : PlainOption) : (o.store env args).stageDef = args.stageDef := by
  cases o <;> rfl

/-- What an accepted option does to the two fields that exclude each other. -/
theorem setOption_fields {o : CmdOption} {args' : Args} (h : setOption R env args o = .ok args') :
    (args'.workloadStagesFile ≠ none ↔ args.workloadStagesFile ≠ none ∨ ∃ file, o = .workloadStages file) ∧
      (args'.stageDef ≠ none ↔ args.stageDef ≠ none ∨ ∃ so, o = .stage so) := by
  cases accepts_of_setOption h with
  | plain o =>
    rw [store_workloadStagesFile, store_stageDef]
    simp
  | _ => simp

theorem setOptions_seen (h : setOptions R env (loadDefaults env) options = .ok args) : Seen options args := by
  have hstart : Seen [] (loadDefaults env) := ⟨by simp [loadDefaults], by simp [loadDefaults]⟩
  refine ok_of_step ?_ hstart h
  intro es s o s' hseen hstep
  obtain ⟨hfile, hstage⟩ := setOption_fields hstep
  constructor
  · rw [hfile, hseen.file]
    simp only [List.mem_append, List.mem_singleton, exists_or, eq_comm]
  · rw [hstage, hseen.stage]
    simp only [List.mem_append, List.mem_singleton, exists_or, eq_comm]

/-! ## Stops -/

theorem choose_eq_error {α : Type} {choice : Option α} {reason : StopReason} {assign : α → Args} {s : Stopped}
    (h : choose args choice reason assign = .error s) : s = ⟨reason, args⟩ := by
  cases choice with
  | none =>
    cases h
    rfl
  | some v => cases h

/-- An option at which `set_args` stops leaves the stages file as it was. -/
theorem setOption_error_file {o : CmdOption} {s : Stopped} (h : setOption R env args o = .error s) :
    s.args.workloadStagesFile = args.workloadStagesFile := by
  cases o with
  | version deprecated | help | unknown =>
    cases h
    rfl
  | plain o => cases h
  | stage o =>
    simp only [setOption] at h
    split_ifs at h
    · cases h
      rfl
    · split at h
      · cases h
      · cases h
        rfl
  | objectSpec optarg =>
    simp only [setOption] at h
    split at h
    · cases h
    · cases h
      rfl
  | workloadStages optarg =>
    simp only [setOption] at h
    split_ifs at h
    cases h
    rfl
  | replica optarg | readModeAp optarg | readModeSc optarg | commitLevel optarg | auth optarg =>
    rw [choose_eq_error h]

/-! ## The end of `set_args` -/

/-- The password of the key file after the options, for the one before. -/
def keyfilePassword (env : CmdEnv) (tls : TlsConfig) : Except PasswordError (Option Text) :=
  match tls.keyfile, tls.keyfilePw with
  | some _, some pw => (tlsReadPassword env (if pw = [] then env.getpass else pw)).map some
  | _, _ => .ok tls.keyfilePw

/-- The arguments with other passwords. -/
def Args.withPasswords (args : Args) (keyfilePw : Option Text) (password : Text) : Args :=
  { args with tls := { args.tls with keyfilePw := keyfilePw }, password := password }

theorem setKeyfilePassword_ok {args' : Args} (h : setKeyfilePassword env args = .ok args') :
    ∃ pw, keyfilePassword env args.tls = .ok pw ∧ args' = args.withPasswords pw args.password := by
  unfold setKeyfilePassword at h
  split at h
  · next file pw hfile hpw =>
    dsimp only at h
    split at h
    · next pw' hread =>
      cases h
      refine ⟨some pw', ?_, rfl⟩
      rw [keyfilePassword, hfile, hpw]
      simp only [hread]
      rfl
    · cases h
  · next hnot =>
    cases h
    refine ⟨args.tls.keyfilePw, ?_, rfl⟩
    unfold keyfilePassword
    split
    · next file pw hfile hpw => exact absurd hpw (hnot file pw hfile)
    · rfl

theorem setKeyfilePassword_error {s : Stopped} (h : setKeyfilePassword env args = .error s) :
    s.reason.ret = 1 ∧ ∃ pw, s.args = args.withPasswords pw args.password := by
  unfold setKeyfilePassword at h
  split at h
  · dsimp only at h
    split at h
    · cases h
    · cases h
      exact ⟨rfl, _, rfl⟩
  · cases h

/-- The password of the user after the options. -/
def userPassword (env : CmdEnv) (args : Args) : Text :=
  if args.user ≠ none ∧ args.password = [] then env.passwordAcquire none else args.password

theorem setPassword_withPasswords (pw : Option Text) :
    setPassword env (args.withPasswords pw args.password) = args.withPasswords pw (userPassword env args) := by
  unfold setPassword userPassword
  by_cases h : args.user ≠ none ∧ args.password = []
  · rw [if_pos h]
    exact if_pos h
  · rw [if_neg h]
    exact if_neg h

/-- When `set_args` accepts the arguments, only the two passwords have changed after the options. -/
theorem finishArgs_ok {args' : Args} (h : finishArgs env args = .ok args') :
    ∃ pw, keyfilePassword env args.tls = .ok pw ∧ args' = args.withPasswords pw (userPassword env args) := by
  unfold finishArgs at h
  split at h
  · cases h
  · next t hkeyfile =>
    obtain ⟨pw, hpw, rfl⟩ := setKeyfilePassword_ok hkeyfile
    refine ⟨pw, hpw, ?_⟩
    rw [setPassword_withPasswords] at h
    dsimp only at h
    split at h
    · cases h
    · cases h
      rfl

/-- When it fails after the options, it fails with 1, and no other field has changed either. -/
theorem finishArgs_error {s : Stopped} (h : finishArgs env args = .error s) :
    s.reason.ret = 1 ∧ ∃ pw password, s.args = args.withPasswords pw password := by
  unfold finishArgs at h
  split at h
  · next s' hkeyfile =>
    cases h
    obtain ⟨hret, pw, hargs⟩ := setKeyfilePassword_error hkeyfile
    exact ⟨hret, pw, _, hargs⟩
  · next t hkeyfile =>
    obtain ⟨pw, -, rfl⟩ := setKeyfilePassword_ok hkeyfile
    rw [setPassword_withPasswords] at h
    dsimp only at h
    split at h
    · cases h
      exact ⟨rfl, pw, _, rfl⟩
    · cases h

/-! ## Where `set_args` stops -/

/-- `set_args` takes the options `taken` and then stops, at the next option or after the last one. -/
inductive StopsAfter (R : AsRandom) (env : CmdEnv) (options : List CmdOption) : List CmdOption → Stopped → Prop
  | atOption {taken : List CmdOption} {o : CmdOption} {after : List CmdOption} {args : Args} {s : Stopped}
      (hoptions : options = taken ++ o :: after) (htaken : setOptions R env (loadDefaults env) taken = .ok args)
      (hstop : setOption R env args o = .error s) : StopsAfter R env options taken s
  | atEnd {args : Args} {s : Stopped} (htaken : setOptions R env (loadDefaults env) options = .ok args)
      (hstop : finishArgs env args = .error s) : StopsAfter R env options options s

theorem setArgs_error_iff {s : Stopped} :
    setArgs R env (loadDefaults env) options = .error s ↔ ∃ taken, StopsAfter R env options taken s := by
  constructor
  · intro h
    unfold setArgs at h
    split at h
    · next s' hrun =>
      cases h
      obtain ⟨taken, o, after, t, hoptions, htaken, hstop⟩ := runUntilError_error_iff.mp hrun
      exact ⟨taken, .atOption hoptions htaken hstop⟩
    · next t hrun => exact ⟨options, .atEnd hrun h⟩
  · rintro ⟨taken, h⟩
    cases h with
    | atOption hoptions htaken hstop =>
      have herror : setOptions R env (loadDefaults env) options = .error s :=
        runUntilError_error_iff.mpr ⟨_, _, _, _, hoptions, htaken, hstop⟩
      rw [setArgs, herror]
    | atEnd htaken hstop => rwa [setArgs, htaken]

/-- At a stop a stages file is named exactly if one of the options taken before names it. -/
theorem StopsAfter.file_iff {taken : List CmdOption} {s : Stopped} (h : StopsAfter R env options taken s) :
    s.args.workloadStagesFile ≠ none ↔ ∃ file, .workloadStages file ∈ taken := by
  cases h with
  | atOption hoptions htaken hstop => rw [setOption_error_file hstop, (setOptions_seen htaken).file]
  | atEnd htaken hstop =>
    obtain ⟨-, pw, password, hargs⟩ := finishArgs_error hstop
    rw [hargs, ← (setOptions_seen htaken).file]
    rfl

end AerospikeBenchmark
