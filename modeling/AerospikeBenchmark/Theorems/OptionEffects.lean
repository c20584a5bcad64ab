import AerospikeBenchmark.Lemmas.OptionFields
import AerospikeBenchmark.Lib.Results
import AerospikeBenchmark.Theorems.ExitStatus

/-!
# Options and other settings

What an option changes when it is put into a command line: the fields that the usage text documents for it, with three exceptions.
`--sleep-between-retries` turns debugging on, because a break is missing; a user without a password, and a key file for a password that
was given without one, make `set_args` read the password.
-/

namespace AerospikeBenchmark

open CText ErrorRuns Footprints Results

variable {R : AsRandom} {env : CmdEnv} {start args args' : Args} {before after : List CmdOption} {o : CmdOption} {f : ArgsField}

/-- An option changes another setting of the arguments that are accepted without it. -/
inductive SideEffect (env : CmdEnv) (args : Args) : CmdOption → Prop
  /-- Debugging was off. -/
  | debug (optarg : Text) (h : args.debug = false) : SideEffect env args (.plain (.sleepBetweenRetries optarg))
  /-- There was no user and no password, and now one is asked for. -/
  | password (optarg : Text) (huser : args.user = none) (hpassword : args.password = []) (hasked : env.passwordAcquire none ≠ []) :
      SideEffect env args (.plain (.user optarg))
  /-- There was no key file, and now its password is read from where it says. -/
  | keyfilePw (optarg : Text) (pw : Option Text) (hfile : args.tls.keyfile = none)
      (hread : keyfilePassword env { args.tls with keyfile := some optarg } = .ok pw) (hne : args.tls.keyfilePw ≠ pw) :
      SideEffect env args (.plain (.tlsKeyfile optarg))

/-! ## The end of `set_args` -/

theorem setArgs_ok {options : List CmdOption} (h : setArgs R env start options = .ok args) :
    ∃ t pw, setOptions R env start options = .ok t ∧ keyfilePassword env t.tls = .ok pw ∧
      args = t.withPasswords pw (userPassword env t) := by
  unfold setArgs at h
  split at h
  · cases h
  · next t ht =>
    obtain ⟨pw, hpw, rfl⟩ := finishArgs_ok h
    exact ⟨t, pw, ht, hpw, rfl⟩

theorem get_withPasswords {pw : Option Text} {password : Text} (hf : f ∉ [.tlsKeyfilePw, .password]) :
    (args.withPasswords pw password).get f = args.get f :=
  get_of_set_set hf rfl

theorem userPassword_of_none (huser : args.user = none) : userPassword env args = args.password :=
  if_neg fun hand => hand.1 huser

/-- The password of the user depends on whether there is a user, and on the password before. -/
theorem userPassword_congr {a b : Args} (huser : a.user = none ↔ b.user = none) (hpassword : a.password = b.password) :
    userPassword env a = userPassword env b := by
  unfold userPassword
  simp only [ne_eq, huser, hpassword]

theorem keyfilePassword_of_none {tls : TlsConfig} {pw : Option Text} (hfile : tls.keyfile = none)
    (h : keyfilePassword env tls = .ok pw) : pw = tls.keyfilePw := by
  rw [keyfilePassword, hfile] at h
  exact (Except.ok.inj h).symm

theorem keyfilePassword_congr {a b : TlsConfig} (hfile : a.keyfile = none ↔ b.keyfile = none) (hpw : a.keyfilePw = b.keyfilePw) :
    keyfilePassword env a = keyfilePassword env b := by
  unfold keyfilePassword
  rw [hpw]
  cases ha : a.keyfile with
  | none => rw [hfile.mp ha]
  | some file =>
    cases hb : b.keyfile with
    | none =>
      rw [hfile.mpr hb] at ha
      cases ha
    | some file' => cases b.keyfilePw <;> rfl

/-! ## The option loop -/

/-- Where all options that assign a field put a text there, it has one as soon as there is such an option. -/
theorem text_of_mem {options : List CmdOption}
    (hset : ∀ {e : CmdOption}, f ∈ e.assigned → ∃ p optarg, e = .plain p ∧ ∀ s, (p.store env s).get f = .optText (some optarg))
    (hrun : setOptions R env start options = .ok args) (h : o ∈ options) (ho : f ∈ o.assigned) : args.get f ≠ .optText none := by
  refine (setOption_fieldwise R env).holds_of_mem (P := (· ≠ .optText none)) ?_ hrun h ho
  intro s s' e he hf
  obtain ⟨p, optarg, rfl, hstore⟩ := hset hf
  cases he
  rw [hstore]
  exact fun hnone => Option.some_ne_none optarg (ArgsValue.optText.inj hnone)

theorem user_of_mem {options : List CmdOption} (hrun : setOptions R env start options = .ok args) {optarg : Text}
    (h : .plain (.user optarg) ∈ options) : args.user ≠ none := by
  intro hnone
  refine text_of_mem (f := .user) (fun hf => ?_) hrun h (List.mem_singleton.mpr rfl) (congrArg ArgsValue.optText hnone)
  obtain ⟨optarg, rfl⟩ := eq_of_assigns_user hf
  exact ⟨_, optarg, rfl, fun _ => rfl⟩

theorem keyfile_of_mem {options : List CmdOption} (hrun : setOptions R env start options = .ok args) {optarg : Text}
    (h : .plain (.tlsKeyfile optarg) ∈ options) : args.tls.keyfile ≠ none := by
  intro hnone
  refine text_of_mem (f := .tlsKeyfile) (fun hf => ?_) hrun h (List.mem_singleton.mpr rfl) (congrArg ArgsValue.optText hnone)
  obtain ⟨optarg, rfl⟩ := eq_of_assigns_keyfile hf
  exact ⟨_, optarg, rfl, fun _ => rfl⟩

/-- Debugging stays on. -/
theorem debug_of_mem {options : List CmdOption} (hrun : setOptions R env start options = .ok args)
    (h : o ∈ options) (ho : .debug ∈ o.assigned) : args.debug = true := by
  have hset : ∀ {s s' : Args} {e : CmdOption}, setOption R env s e = .ok s' → .debug ∈ e.assigned → s'.get .debug = .bool true := by
    intro s s' e he hf
    rcases eq_of_assigns_debug hf with rfl | ⟨optarg, rfl⟩
    · cases he
      rfl
    · cases he
      rfl
  exact ArgsValue.bool.inj ((setOption_fieldwise R env).holds_of_mem (P := (· = .bool true)) hset hrun h ho)

/-! ## A command line with and without an option -/

/-- The arguments of a command line without an option and with it, after the option loop and in the end. -/
structure Inserted (R : AsRandom) (env : CmdEnv) (start : Args) (before : List CmdOption) (o : CmdOption) (after : List CmdOption)
    (t args t' args' : Args) : Prop where
  without : setOptions R env start (before ++ after) = .ok t
  more : setOptions R env start (before ++ o :: after) = .ok t'
  finish : ∃ pw, keyfilePassword env t.tls = .ok pw ∧ args = t.withPasswords pw (userPassword env t)
  finish' : ∃ pw, keyfilePassword env t'.tls = .ok pw ∧ args' = t'.withPasswords pw (userPassword env t')

theorem inserted_of_setArgs (h : setArgs R env start (before ++ after) = .ok args)
    (h' : setArgs R env start (before ++ o :: after) = .ok args') : ∃ t t', Inserted R env start before o after t args t' args' := by
  obtain ⟨t, pw, ht, hpw, hargs⟩ := setArgs_ok h
  obtain ⟨t', pw', ht', hpw', hargs'⟩ := setArgs_ok h'
  exact ⟨t, t', ht, ht', ⟨pw, hpw, hargs⟩, ⟨pw', hpw', hargs'⟩⟩

section

variable {t t' : Args} (h : Inserted R env start before o after t args t' args')
include h

theorem Inserted.get_eq (hf : f ∉ o.assigned) : t.get f = t'.get f :=
  (setOption_fieldwise R env).insert h.without h.more hf

theorem Inserted.stage_eq {f : StageDefField} (hf : f ∉ o.documentedInStage) :
    args.getOrInitStage.get f = args'.getOrInitStage.get f := by
  have hloop : t.getOrInitStage.get f = t'.getOrInitStage.get f :=
    (setOption_stage_fieldwise R env).insert h.without h.more hf
  obtain ⟨pw, -, rfl⟩ := h.finish
  obtain ⟨pw', -, rfl⟩ := h.finish'
  exact hloop

/-- Apart from the passwords the arguments are those after the option loop. -/
theorem Inserted.get_eq_of_ne (hpasswords : f ∉ [.tlsKeyfilePw, .password]) : args.get f = t.get f ∧ args'.get f = t'.get f := by
  obtain ⟨pw, -, rfl⟩ := h.finish
  obtain ⟨pw', -, rfl⟩ := h.finish'
  exact ⟨get_withPasswords hpasswords, get_withPasswords hpasswords⟩

/-- The password is the same, unless it is now asked for. -/
theorem Inserted.password_eq (hf : .password ∉ o.assigned) (hno : ¬ SideEffect env args o) : args.password = args'.password := by
  have hpassword : t.password = t'.password := ArgsValue.text.inj (h.get_eq hf)
  obtain ⟨pw, -, rfl⟩ := h.finish
  obtain ⟨pw', -, rfl⟩ := h.finish'
  change userPassword env t = userPassword env t'
  by_cases ho : .user ∈ o.assigned
  · obtain ⟨optarg, rfl⟩ := eq_of_assigns_user ho
    have huser' : t'.user ≠ none := user_of_mem h.more List.mem_append_cons_self
    by_cases huser : t.user = none
    · have hkept : userPassword env t = t.password := userPassword_of_none huser
      by_cases hempty : t.password = []
      · have hasked : env.passwordAcquire none = [] := by
          by_contra hne
          exact hno (.password optarg huser (hkept.trans hempty) hne)
        rw [hkept, hempty, userPassword, if_pos ⟨huser', hpassword ▸ hempty⟩, hasked]
      · rw [hkept, userPassword, if_neg (fun hand => hempty (hpassword.trans hand.2)), hpassword]
    · exact userPassword_congr (iff_of_false huser huser') hpassword
  · have huser : t.user = t'.user := ArgsValue.optText.inj (h.get_eq ho)
    exact userPassword_congr (by rw [huser]) hpassword

/-- The password of the key file is the same, unless it is now read from elsewhere. -/
theorem Inserted.keyfilePw_eq (hf : .tlsKeyfilePw ∉ o.assigned) (hno : ¬ SideEffect env args o) :
    args.tls.keyfilePw = args'.tls.keyfilePw := by
  have hpw : t.tls.keyfilePw = t'.tls.keyfilePw := ArgsValue.optText.inj (h.get_eq hf)
  obtain ⟨pw, hread, rfl⟩ := h.finish
  obtain ⟨pw', hread', rfl⟩ := h.finish'
  change pw = pw'
  have hsame (hfile : t.tls.keyfile = none ↔ t'.tls.keyfile = none) : pw = pw' := by
    rw [keyfilePassword_congr hfile hpw, hread'] at hread
    exact (Except.ok.inj hread).symm
  by_cases ho : .tlsKeyfile ∈ o.assigned
  · obtain ⟨optarg, rfl⟩ := eq_of_assigns_keyfile ho
    have hfile' : t'.tls.keyfile ≠ none := keyfile_of_mem h.more List.mem_append_cons_self
    by_cases hfile : t.tls.keyfile = none
    · have hkept : pw = t.tls.keyfilePw := keyfilePassword_of_none hfile hread
      by_contra hne
      refine hno (.keyfilePw optarg pw' hfile ?_ hne)
      rw [← hread']
      exact keyfilePassword_congr (iff_of_false (Option.some_ne_none optarg) hfile') (hkept.trans hpw)
    · exact hsame (iff_of_false hfile hfile')
  · have hfile : t.tls.keyfile = t'.tls.keyfile := ArgsValue.optText.inj (h.get_eq ho)
    exact hsame (by rw [hfile])

theorem Inserted.debug_eq (hf : .debug ∉ o.documented) (hno : ¬ SideEffect env args o) : args.debug = args'.debug := by
  obtain ⟨hargs, hargs'⟩ := h.get_eq_of_ne (f := .debug) (by simp)
  by_cases ho : .debug ∈ o.assigned
  · rcases eq_of_assigns_debug ho with rfl | ⟨optarg, rfl⟩
    · exact absurd (List.mem_singleton.mpr rfl) hf
    · have hon : args.debug = true := by
        by_contra hoff
        exact hno (.debug optarg (Bool.not_eq_true _ ▸ hoff))
      have hon' : t'.debug = true := debug_of_mem h.more List.mem_append_cons_self ho
      rw [hon]
      exact (ArgsValue.bool.inj hargs').trans hon' |>.symm
  · exact ArgsValue.bool.inj (hargs.trans ((h.get_eq ho).trans hargs'.symm))

/-- Without a side effect only documented fields differ. -/
theorem Inserted.differOnlyIn (hno : ¬ SideEffect env args o) : DifferOnlyIn o args args' where
  stage f hf := h.stage_eq hf
  fields f hf := by
    by_cases hdebug : f = .debug
    · subst hdebug
      exact congrArg ArgsValue.bool (h.debug_eq hf hno)
    · have hassigned : f ∉ o.assigned := not_mem_assigned hf hdebug
      by_cases hpasswords : f ∈ [.tlsKeyfilePw, .password]
      · rcases List.mem_pair.mp hpasswords with rfl | rfl
        · exact congrArg ArgsValue.optText (h.keyfilePw_eq hassigned hno)
        · exact congrArg ArgsValue.text (h.password_eq hassigned hno)
      · obtain ⟨hargs, hargs'⟩ := h.get_eq_of_ne hpasswords
        rw [hargs, hargs', h.get_eq hassigned]

/-- With one, another field differs. -/
theorem Inserted.not_differOnlyIn (hside : SideEffect env args o) : ¬ DifferOnlyIn o args args' := by
  intro hdiffer
  cases hside with
  | debug optarg hoff =>
    have hdebug : args.debug = args'.debug := ArgsValue.bool.inj (hdiffer.fields .debug fun hf => by cases List.mem_singleton.mp hf)
    have hon : t'.debug = true :=
      debug_of_mem h.more List.mem_append_cons_self (List.mem_cons_of_mem _ (List.mem_singleton.mpr rfl))
    have hargs' : args'.debug = t'.debug := ArgsValue.bool.inj (h.get_eq_of_ne (f := .debug) (by simp)).2
    rw [hoff, hargs', hon] at hdebug
    cases hdebug
  | password optarg huser hpassword hasked =>
    have hsame : args.password = args'.password :=
      ArgsValue.text.inj (hdiffer.fields .password fun hf => by cases List.mem_singleton.mp hf)
    have hloop : t.password = t'.password := ArgsValue.text.inj (h.get_eq (f := .password) fun hf => by cases List.mem_singleton.mp hf)
    have huser' : t'.user ≠ none := user_of_mem h.more List.mem_append_cons_self
    obtain ⟨pw, -, rfl⟩ := h.finish
    obtain ⟨pw', -, rfl⟩ := h.finish'
    have hkept : userPassword env t = t.password := userPassword_of_none huser
    have hread : userPassword env t' = env.passwordAcquire none :=
      if_pos ⟨huser', hloop.symm.trans (hkept.symm.trans hpassword)⟩
    exact hasked (hread.symm.trans (hsame.symm.trans hpassword))
  | keyfilePw optarg pw hfile hread hne =>
    have hsame : args.tls.keyfilePw = args'.tls.keyfilePw :=
      ArgsValue.optText.inj (hdiffer.fields .tlsKeyfilePw fun hf => by cases List.mem_singleton.mp hf)
    have hloop : t.tls.keyfilePw = t'.tls.keyfilePw :=
      ArgsValue.optText.inj (h.get_eq (f := .tlsKeyfilePw) fun hf => by cases List.mem_singleton.mp hf)
    have hfile' : t'.tls.keyfile ≠ none := keyfile_of_mem h.more List.mem_append_cons_self
    obtain ⟨pw₀, hread₀, rfl⟩ := h.finish
    obtain ⟨pw', hread', rfl⟩ := h.finish'
    have hkept : pw₀ = t.tls.keyfilePw := keyfilePassword_of_none hfile hread₀
    rw [keyfilePassword_congr (iff_of_false (Option.some_ne_none optarg) hfile') (hkept.trans hloop), hread'] at hread
    exact hne (hsame.trans (Except.ok.inj hread))

end

/-- An environment in which passwords are given. -/
def passwordEnvironment : CmdEnv := { failingEnv with passwordAcquire := fun _ => ['p'], getenv := fun _ => some ['q'] }

/-- A command line is accepted there without the option and with it, and they differ in other settings than it documents. -/
def ChangesOthers (before : List CmdOption) (o : CmdOption) (after : List CmdOption) : Prop :=
  ∃ args args', setArgs .littleEndian passwordEnvironment (loadDefaults passwordEnvironment) (before ++ after) = .ok args ∧
    setArgs .littleEndian passwordEnvironment (loadDefaults passwordEnvironment) (before ++ o :: after) = .ok args' ∧
    ¬ DifferOnlyIn o args args'

theorem changesOthers_of
    (h : (setArgs .littleEndian passwordEnvironment (loadDefaults passwordEnvironment) (before ++ after)).toBool = true)
    (h' : (setArgs .littleEndian passwordEnvironment (loadDefaults passwordEnvironment) (before ++ o :: after)).toBool = true)
    (hside : ∀ args, setArgs .littleEndian passwordEnvironment (loadDefaults passwordEnvironment) (before ++ after) = .ok args →
      SideEffect passwordEnvironment args o) : ChangesOthers before o after := by
  obtain ⟨args, h⟩ := eq_ok_of_toBool h
  obtain ⟨args', h'⟩ := eq_ok_of_toBool h'
  obtain ⟨t, t', hinserted⟩ := inserted_of_setArgs h h'
  exact ⟨args, args', h, h', hinserted.not_differOnlyIn (hside args h)⟩

end AerospikeBenchmark
