import AerospikeBenchmark.Lemmas.HdrLayout

/-!
# The values an HDR histogram holds

A histogram holds a list of values if its counts, its total, its smallest and its largest value are those of the list. Recording a
value adds it to the list, in whatever order values come.
-/

namespace AerospikeBenchmark

/-- The histogram has the counts and the counters of these values. -/
structure HdrHistogram.Holds (h : HdrHistogram) (vs : List Nat) : Prop where
  valid : h.toHdrBucketConfig.Valid
  inRange : ∀ v ∈ vs, h.classOf v < h.countsLen
  counts : h.counts = (List.range h.countsLen).map fun i => vs.countP (h.classOf · = i)
  totalCount : h.totalCount = vs.length
  max_ge : ∀ v ∈ vs, v ≤ h.maxValue
  max_mem : h.maxValue = 0 ∨ h.maxValue ∈ vs
  min_le : ∀ v ∈ vs, v ≠ 0 → h.minValue ≤ v
  min_mem : h.minValue = 2 ^ 63 - 1 ∨ (h.minValue ∈ vs ∧ h.minValue ≠ 0)

theorem hdrInit_holds {lowest highest figures : Nat} {h : HdrHistogram} (hhigh : highest < 2 ^ 63)
    (hinit : hdrInit lowest highest figures = some h) : h.Holds [] := by
  unfold hdrInit at hinit
  obtain ⟨cfg, hcfg, rfl⟩ := Option.map_eq_some_iff.mp hinit
  exact {
    valid := hdrCalculateBucketConfig_valid hhigh hcfg
    inRange := fun v hv => absurd hv List.not_mem_nil
    counts := by simp [List.map_const']
    totalCount := rfl
    max_ge := fun v hv => absurd hv List.not_mem_nil
    max_mem := Or.inl rfl
    min_le := fun v hv => absurd hv List.not_mem_nil
    min_mem := Or.inl rfl }

/-- The histograms that the latencies are recorded into. -/
theorem hdrInit_latency : hdrInit 1 1000000 3 = some { latencyHdrConfig with
    minValue := 2 ^ 63 - 1, maxValue := 0, totalCount := 0, counts := List.replicate 11264 0 } := by
  rw [hdrInit, hdrCalculateBucketConfig_latency]
  rfl

/-- A histogram takes the values of the classes it has counts for. -/
def HdrBucketConfig.Takes (h : HdrBucketConfig) (value : Nat) : Prop := value < 2 ^ 63 ∧ h.classOf value < h.countsLen

instance (h : HdrBucketConfig) (value : Nat) : Decidable (h.Takes value) := inferInstanceAs (Decidable (_ ∧ _))

/-- All values up to the highest trackable one are taken. -/
theorem HdrBucketConfig.Valid.takes_of_le {h : HdrBucketConfig} (hv : h.Valid) {value : Nat} (hle : value ≤ h.highestTrackableValue) :
    h.Takes value := by
  have hlt := Nat.lt_of_le_of_lt hle hv.covers
  refine ⟨Nat.lt_of_lt_of_le hlt (Nat.pow_le_pow_right (by decide) hv.inRange), ?_⟩
  rw [hv.classOf_lt]
  exact hlt

/-- Counting one more value of a class. -/
theorem counts_modify (n k : Nat) (f g : Nat → Nat) (hg : ∀ i, g i = f i + if k = i then 1 else 0) :
    ((List.range n).map f).modify k (· + 1) = (List.range n).map g := by
  refine List.ext_getElem? fun i => ?_
  rw [List.getElem?_modify, List.getElem?_map, List.getElem?_map]
  rcases Nat.lt_or_ge i n with hlt | hge
  · rw [List.getElem?_range hlt]
    simp only [Option.map_some, hg]
    rcases eq_or_ne k i with rfl | hne
    · simp
    · simp [hne]
  · rw [List.getElem?_eq_none (by simpa using hge)]
    rfl

section

variable {h : HdrHistogram} {vs : List Nat} {value : Nat}

theorem HdrHistogram.Holds.record_taken (hh : h.Holds vs) (ht : h.Takes value) :
    (hdrRecordValueAtomic h value).1.Holds (value :: vs) := by
  have hindex := hh.valid.countsIndexFor_eq value
  rw [hdrRecordValueAtomic, if_neg (Nat.not_le.mpr ht.1)]
  dsimp only
  rw [if_neg (by rw [hindex]; exact Nat.not_le.mpr ht.2), hindex]
  refine ⟨hh.valid, ?_, ?_, ?_, ?_, ?_, ?_, ?_⟩
  · rintro v (- | ⟨-, hv⟩)
    · exact ht.2
    · exact hh.inRange v ‹_›
  · dsimp only
    rw [hh.counts]
    refine counts_modify _ _ _ _ fun i => ?_
    rw [List.countP_cons]
    simp only [decide_eq_true_eq]
  · rw [List.length_cons, hh.totalCount]
  · intro v hv
    dsimp only
    rcases List.mem_cons.mp hv with rfl | hv
    · split
      · assumption
      · exact le_rfl
    · have := hh.max_ge v hv
      split
      · exact this
      · omega
  · dsimp only
    split
    · exact hh.max_mem.imp id (List.mem_cons_of_mem _)
    · exact Or.inr List.mem_cons_self
  · intro v hv hne
    dsimp only
    rcases List.mem_cons.mp hv with rfl | hv
    · split
      · next hle => exact hle.resolve_left hne
      · exact le_rfl
    · have := hh.min_le v hv hne
      split
      · exact this
      · omega
  · dsimp only
    split
    · exact hh.min_mem.imp id fun ⟨hmem, hne⟩ => ⟨List.mem_cons_of_mem _ hmem, hne⟩
    · next hnot => exact Or.inr ⟨List.mem_cons_self, fun hzero => hnot (Or.inl hzero)⟩

/-- Recording a value adds it, or turns it away and changes nothing. -/
theorem HdrHistogram.Holds.record (hh : h.Holds vs) (value : Nat) :
    (hdrRecordValueAtomic h value).1.Holds (if h.Takes value then value :: vs else vs) := by
  split
  · next ht => exact hh.record_taken ht
  · next ht =>
    have hsame : (hdrRecordValueAtomic h value).1 = h := by
      have hindex := hh.valid.countsIndexFor_eq value
      unfold hdrRecordValueAtomic
      split
      · rfl
      · next hpos =>
        dsimp only
        rw [if_pos]
        rw [hindex]
        exact Nat.not_lt.mp fun hlt => ht ⟨Nat.not_le.mp hpos, hlt⟩
    rw [hsame]
    exact hh

/-- Recording values one after another. -/
def hdrRecordAll (h : HdrHistogram) (values : List Nat) : HdrHistogram :=
  values.foldl (fun h value => (hdrRecordValueAtomic h value).1) h

theorem hdrRecordAll_config (h : HdrHistogram) (values : List Nat) :
    (hdrRecordAll h values).toHdrBucketConfig = h.toHdrBucketConfig := by
  induction values generalizing h with
  | nil => rfl
  | cons value values ih =>
    rw [hdrRecordAll, List.foldl_cons]
    exact (ih _).trans (hdrRecordValueAtomic_config h value)

/-- After any values have been recorded one after another, the histogram holds those that it takes. -/
theorem HdrHistogram.Holds.recordAll (hh : h.Holds vs) (values : List Nat) :
    (hdrRecordAll h values).Holds ((values.filter fun v => h.Takes v).reverse ++ vs) := by
  induction values generalizing h vs with
  | nil => exact hh
  | cons value values ih =>
    have hstep := ih (hh.record value)
    have hconfig := hdrRecordValueAtomic_config h value
    rw [hconfig] at hstep
    rw [hdrRecordAll, List.foldl_cons]
    by_cases ht : h.Takes value
    · rw [if_pos ht] at hstep
      rw [List.filter_cons_of_pos (by simpa using ht), List.reverse_cons, List.append_assoc]
      exact hstep
    · rw [if_neg ht] at hstep
      rw [List.filter_cons_of_neg (by simpa using ht)]
      exact hstep

/-! ## Sums of counts -/

/-- The values of the classes before one. -/
def countBelow (h : HdrBucketConfig) (vs : List Nat) (i : Nat) : Nat := vs.countP (h.classOf · < i)

theorem countBelow_zero (h : HdrBucketConfig) (vs : List Nat) : countBelow h vs 0 = 0 := by simp [countBelow]

theorem countBelow_succ (h : HdrBucketConfig) (vs : List Nat) (i : Nat) :
    countBelow h vs (i + 1) = countBelow h vs i + vs.countP (h.classOf · = i) := by
  unfold countBelow
  induction vs with
  | nil => rfl
  | cons v vs ih =>
    simp only [List.countP_cons, decide_eq_true_eq, ih]
    rcases Nat.lt_trichotomy (h.classOf v) i with hlt | heq | hgt
    · rw [if_pos (by omega), if_pos hlt, if_neg (by omega)]
      omega
    · rw [if_pos (by omega), if_neg (by omega), if_pos heq]
      omega
    · rw [if_neg (by omega), if_neg (by omega), if_neg (by omega)]
      omega

theorem countBelow_len (hh : h.Holds vs) : countBelow h.toHdrBucketConfig vs h.countsLen = vs.length := by
  rw [countBelow, List.countP_eq_length]
  intro v hv
  simpa using hh.inRange v hv

end

end AerospikeBenchmark
