import AerospikeBenchmark.Args.Fields
import AerospikeBenchmark.Lib.Footprints
import AerospikeBenchmark.Lemmas.Args

/-!
# What options write

An option assigns the fields that the usage text documents for it and keeps the others, except for the one that turns debugging on
without being asked to. What it leaves in a field depends on nothing but that field.
-/

namespace AerospikeBenchmark

open CText Footprints

variable {R : AsRandom} {env : CmdEnv} {args args' a b : Args} {f g g' : ArgsField}

/-! ## Fields by position -/

attribute [ext] TlsConfig

/-- The values of all fields, in the order of `ArgsField`. -/
def Args.values (args : Args) : List ArgsValue :=
  [.text args.hosts, .int args.port, .bool args.useServicesAlternate, .int args.maxErrorRate, .int args.tenderInterval,
    .int args.errorRateWindow, .int args.maxSocketIdle, .optText args.user, .text args.password, .text args.nameSpace,
    .text args.set, .text args.binName, .nat args.startKey, .nat args.keys, .stageDef args.stageDef,
    .optText args.workloadStagesFile, .objSpec args.objSpec args.objSpecValid, .int args.transactionWorkerThreads,
    .bool args.enableCompression, .num args.compressionRatio, .int args.connTimeoutMs, .int args.readSocketTimeout,
    .int args.writeSocketTimeout, .int args.readTotalTimeout, .int args.writeTotalTimeout, .int args.maxRetries,
    .int args.sleepBetweenRetries, .bool args.debug, .bool args.latency, .nums args.latencyPercentiles, .bool args.latencyHistogram,
    .optText args.histogramOutput, .int args.histogramPeriod, .optText args.hdrOutput, .bool args.useShm, .key args.key,
    .replica args.replica, .int args.rackId, .readModeAp args.readModeAp, .readModeSc args.readModeSc,
    .commitLevel args.writeCommitLevel, .int args.minConnsPerNode, .int args.maxConnsPerNode, .int args.connPoolsPerNode,
    .int args.asyncMinConnsPerNode, .int args.asyncMaxConnsPerNode, .bool args.durableDeletes, .int args.asyncMaxCommands,
    .int args.eventLoopCapacity, .bool args.tls.enable, .optText args.tls.cafile, .optText args.tls.capath,
    .optText args.tls.protocols, .optText args.tls.cipherSuite, .bool args.tls.crlCheck, .bool args.tls.crlCheckAll,
    .optText args.tls.certBlacklist, .bool args.tls.logSessionInfo, .optText args.tls.keyfile, .optText args.tls.keyfilePw,
    .optText args.tls.certfile, .bool args.tls.forLoginOnly, .optText args.tlsName, .authMode args.authMode]

theorem values_get (args : Args) (f : ArgsField) : args.values[f.ctorIdx]? = some (args.get f) := by
  cases f <;> rfl

theorem values_eq (args : Args) : args.values = (List.range 64).map fun i => args.get (.ofNat i) := rfl

theorem values_injective : Function.Injective Args.values := by
  rintro ⟨⟩ ⟨⟩ h
  simp only [Args.values, List.cons.injEq, ArgsValue.text.injEq, ArgsValue.int.injEq, ArgsValue.bool.injEq, ArgsValue.optText.injEq,
    ArgsValue.nat.injEq, ArgsValue.num.injEq, ArgsValue.nums.injEq, ArgsValue.key.injEq, ArgsValue.replica.injEq,
    ArgsValue.readModeAp.injEq, ArgsValue.readModeSc.injEq, ArgsValue.commitLevel.injEq, ArgsValue.authMode.injEq,
    ArgsValue.stageDef.injEq, ArgsValue.objSpec.injEq, and_true] at h
  simp only [Args.mk.injEq, TlsConfig.ext_iff, h, and_self]

/-- The fields leave nothing out: arguments that agree in all of them are the same. -/
theorem eq_of_get (h : ∀ f, a.get f = b.get f) : a = b := by
  apply values_injective
  rw [values_eq, values_eq]
  exact List.map_congr_left fun i _ => h (.ofNat i)

/-- Neither do those of a stage definition. -/
theorem stage_eq_of_get {s t : CmdStage} (h : ∀ f, s.get f = t.get f) : s = t := by
  cases s
  cases t
  obtain rfl := ArgsValue.nat.inj (h .duration)
  obtain rfl := ArgsValue.nat.inj (h .tps)
  obtain rfl := ArgsValue.nat.inj (h .ttl)
  obtain rfl := ArgsValue.nat.inj (h .batchSize)
  obtain rfl := ArgsValue.nat.inj (h .batchReadSize)
  obtain rfl := ArgsValue.nat.inj (h .batchWriteSize)
  obtain rfl := ArgsValue.nat.inj (h .batchDeleteSize)
  obtain rfl := ArgsValue.bool.inj (h .async)
  obtain rfl := ArgsValue.bool.inj (h .random)
  obtain rfl := ArgsValue.optText.inj (h .workloadStr)
  obtain rfl := ArgsValue.optText.inj (h .readBinsStr)
  obtain rfl := ArgsValue.optText.inj (h .writeBinsStr)
  obtain rfl := ArgsValue.optText.inj (h .udfPackageName)
  obtain rfl := ArgsValue.optText.inj (h .udfFnName)
  obtain rfl := ArgsValue.optText.inj (h .udfFnArgs)
  rfl

theorem ctorIdx_injective : Function.Injective ArgsField.ctorIdx := Function.LeftInverse.injective ArgsField.ofNat_ctorIdx

theorem get_eq_of_values (h : b.values[f.ctorIdx]? = a.values[f.ctorIdx]?) : b.get f = a.get f := by
  rw [values_get, values_get] at h
  exact Option.some.inj h

/-- Where only one field is assigned, the others are as before. -/
theorem get_of_set {v : ArgsValue} (hf : f ∉ [g]) (h : b.values = a.values.set g.ctorIdx v) : b.get f = a.get f := by
  have hne : f ≠ g := List.ne_of_not_mem_cons hf
  apply get_eq_of_values
  rw [h, List.getElem?_set_ne (ctorIdx_injective.ne hne.symm)]

/-- Where two fields are assigned, the others are as before. -/
theorem get_of_set_set {v w : ArgsValue} (hf : f ∉ [g, g']) (h : b.values = (a.values.set g.ctorIdx v).set g'.ctorIdx w) :
    b.get f = a.get f := by
  obtain ⟨hne, hne'⟩ : f ≠ g ∧ f ≠ g' := by
    simpa using hf
  apply get_eq_of_values
  rw [h, List.getElem?_set_ne (ctorIdx_injective.ne hne'.symm), List.getElem?_set_ne (ctorIdx_injective.ne hne.symm)]

/-! ## Plain options -/

/-- The fields that an option assigns. -/
def PlainOption.assigned : PlainOption → List ArgsField
  | .sleepBetweenRetries _ => [.sleepBetweenRetries, .debug]
  | o => o.documented

/-- Debugging is the one field that an option assigns although the usage text does not say so. -/
theorem mem_documented_of_assigned {o : PlainOption} (hf : f ∈ o.assigned) :
    f ∈ o.documented ∨ f = .debug ∧ ∃ optarg, o = .sleepBetweenRetries optarg := by
  unfold PlainOption.assigned at hf
  split at hf
  · next optarg =>
    rcases List.mem_cons.mp hf with rfl | hf
    · exact .inl (List.mem_singleton.mpr rfl)
    · exact .inr ⟨List.mem_singleton.mp hf, optarg, rfl⟩
  · exact .inl hf

theorem store_keeps (o : PlainOption) (hf : f ∉ o.assigned) : (o.store env args).get f = args.get f := by
  cases o with
  | socketTimeout optarg | timeout optarg | sleepBetweenRetries optarg | outputFile optarg =>
    rw [PlainOption.store]
    exact get_of_set_set hf rfl
  | _ =>
    rw [PlainOption.store]
    exact get_of_set hf rfl

theorem store_own (o : PlainOption) (hf : f ∈ o.assigned) (h : a.get f = b.get f) : (o.store env a).get f = (o.store env b).get f := by
  cases o with
  | socketTimeout optarg | timeout optarg | sleepBetweenRetries optarg =>
    rcases List.mem_cons.mp hf with rfl | hf
    · rfl
    · obtain rfl := List.mem_singleton.mp hf
      rfl
  | outputFile optarg =>
    rcases List.mem_cons.mp hf with rfl | hf
    · rfl
    · -- the file that was named before stays if the output goes to stdout
      obtain rfl := List.mem_singleton.mp hf
      have hold : a.histogramOutput = b.histogramOutput := ArgsValue.optText.inj h
      rw [PlainOption.store, PlainOption.store, hold]
      rfl
  | _ =>
    obtain rfl := List.mem_singleton.mp hf
    rfl

/-! ## Options of a stage -/

theorem stageStore_keeps {s : CmdStage} (o : StageOption) {f : StageDefField} (hf : f ≠ o.documented) :
    (o.store s).1.get f = s.get f := by
  cases o with
  | udfPackageName optarg | udfFunctionName optarg =>
    simp only [StageOption.store]
    split
    · rfl
    · cases f <;> first | rfl | exact absurd rfl hf
  | _ => cases f <;> first | rfl | exact absurd rfl hf

theorem stageStore_own {s t : CmdStage} (o : StageOption) (hs : (o.store s).2 = none) (ht : (o.store t).2 = none) :
    (o.store s).1.get o.documented = (o.store t).1.get o.documented := by
  cases o with
  | udfPackageName optarg | udfFunctionName optarg =>
    simp only [StageOption.store] at hs ht ⊢
    split_ifs at hs ht ⊢
    rfl
  | _ => rfl

/-! ## All options -/

/-- The fields that an option assigns. -/
def CmdOption.assigned : CmdOption → List ArgsField
  | .plain o => o.assigned
  | o => o.documented

theorem not_mem_assigned {o : CmdOption} (hf : f ∉ o.documented) (hne : f ≠ .debug) : f ∉ o.assigned := by
  intro hassigned
  cases o with
  | plain o =>
    rcases mem_documented_of_assigned hassigned with hdocumented | ⟨rfl, -⟩
    · exact hf hdocumented
    · exact hne rfl
  | _ => exact hf hassigned

theorem eq_of_assigns_user {o : CmdOption} (h : .user ∈ o.assigned) : ∃ optarg, o = .plain (.user optarg) := by
  cases o with
  | plain o =>
    cases o with
    | user optarg => exact ⟨optarg, rfl⟩
    | socketTimeout | timeout | sleepBetweenRetries | outputFile => rcases List.mem_pair.mp h with h | h <;> cases h
    | _ => cases List.mem_singleton.mp h
  | version | help | unknown => cases h
  | _ => cases List.mem_singleton.mp h

theorem eq_of_assigns_keyfile {o : CmdOption} (h : .tlsKeyfile ∈ o.assigned) : ∃ optarg, o = .plain (.tlsKeyfile optarg) := by
  cases o with
  | plain o =>
    cases o with
    | tlsKeyfile optarg => exact ⟨optarg, rfl⟩
    | socketTimeout | timeout | sleepBetweenRetries | outputFile => rcases List.mem_pair.mp h with h | h <;> cases h
    | _ => cases List.mem_singleton.mp h
  | version | help | unknown => cases h
  | _ => cases List.mem_singleton.mp h

theorem eq_of_assigns_debug {o : CmdOption} (h : .debug ∈ o.assigned) :
    o = .plain .debug ∨ ∃ optarg, o = .plain (.sleepBetweenRetries optarg) := by
  cases o with
  | plain o =>
    cases o with
    | debug => exact .inl rfl
    | sleepBetweenRetries optarg => exact .inr ⟨optarg, rfl⟩
    | socketTimeout | timeout | outputFile => rcases List.mem_pair.mp h with h | h <;> cases h
    | _ => cases List.mem_singleton.mp h
  | version | help | unknown => cases h
  | _ => cases List.mem_singleton.mp h

theorem accepts_keeps {o : CmdOption} (h : Accepts R env args o args') (hf : f ∉ o.assigned) : args'.get f = args.get f := by
  cases h with
  | plain o => exact store_keeps o hf
  | _ => exact get_of_set hf rfl

theorem accepts_own {o : CmdOption} {a' b' : Args} (ha : Accepts R env a o a') (hb : Accepts R env b o b') (hf : f ∈ o.assigned)
    (h : a.get f = b.get f) : a'.get f = b'.get f := by
  cases ha with
  | plain o =>
    cases hb
    exact store_own o hf h
  | stage o =>
    cases hb
    obtain rfl := List.mem_singleton.mp hf
    have hstage : a.getOrInitStage = b.getOrInitStage := by
      rw [Args.getOrInitStage, Args.getOrInitStage, ArgsValue.stageDef.inj h]
    exact congrArg (fun s => ArgsValue.stageDef (some (o.store s).1)) hstage
  | workloadStages optarg =>
    cases hb
    obtain rfl := List.mem_singleton.mp hf
    rfl
  | objectSpec optarg o ha =>
    cases hb
    next o' hb =>
      obtain rfl := List.mem_singleton.mp hf
      obtain rfl : o = o' := Except.ok.inj (ha.symm.trans hb)
      rfl
  | replica optarg v ha | readModeAp optarg v ha | readModeSc optarg v ha | commitLevel optarg v ha | auth optarg v ha =>
    cases hb
    next v' hb =>
      obtain rfl := List.mem_singleton.mp hf
      obtain rfl : v = v' := Option.some.inj (ha.symm.trans hb)
      rfl

theorem accepts_stage_keeps {o : CmdOption} (h : Accepts R env args o args') {f : StageDefField} (hf : f ∉ o.documentedInStage) :
    args'.getOrInitStage.get f = args.getOrInitStage.get f := by
  cases h with
  | plain o => rw [Args.getOrInitStage, store_stageDef, ← Args.getOrInitStage]
  | stage o => exact stageStore_keeps o fun heq => hf (List.mem_singleton.mpr heq)
  | _ => rfl

theorem accepts_stage_own {o : CmdOption} {a' b' : Args} (ha : Accepts R env a o a') (hb : Accepts R env b o b') {f : StageDefField}
    (hf : f ∈ o.documentedInStage) : a'.getOrInitStage.get f = b'.getOrInitStage.get f := by
  cases ha with
  | stage o _ ha =>
    cases hb
    next _ hb =>
      obtain rfl := List.mem_singleton.mp hf
      exact stageStore_own o ha hb
  | _ => cases hf

/-- Every accepted option keeps the fields that it does not assign, and what it leaves in a field depends on no other field. -/
theorem setOption_fieldwise (R : AsRandom) (env : CmdEnv) :
    Fieldwise Args.get (fun (o : CmdOption) f => f ∈ o.assigned) (setOption R env) where
  keeps h hf := accepts_keeps (accepts_of_setOption h) hf
  own ha hb hf h := accepts_own (accepts_of_setOption ha) (accepts_of_setOption hb) hf h

/-- The same for the fields of the stage definition. -/
theorem setOption_stage_fieldwise (R : AsRandom) (env : CmdEnv) :
    Fieldwise (fun args => args.getOrInitStage.get) (fun (o : CmdOption) f => f ∈ o.documentedInStage) (setOption R env) where
  keeps h hf := accepts_stage_keeps (accepts_of_setOption h) hf
  own ha hb hf _ := accepts_stage_own (accepts_of_setOption ha) (accepts_of_setOption hb) hf

end AerospikeBenchmark
