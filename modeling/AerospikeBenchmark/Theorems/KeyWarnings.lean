import AerospikeBenchmark.Coordinator.Warnings
import AerospikeBenchmark.Theorems.LinearStages

/-!
# The warnings about the keys of a linear stage

Where a linear stage operates on more than its keys: some sub-range is not a whole number of batches, so its last batch reaches into
the next sub-range or past the end of the range. The coordinator's warnings are compared with that.
-/

namespace AerospikeBenchmark

/-! ## Rounds of a loop -/

/-- The keys of the first `m` rounds of a linear loop. -/
def roundKeys (b endKey : Nat) : (m key : Nat) → List Nat
  | 0, _ => []
  | m + 1, key => if key < endKey then (linearBody b key).1 ++ roundKeys b endKey m (linearBody b key).2 else []

/-- A loop that is told to stop after `m` rounds. -/
theorem linearLoop_stopped (b endKey m i key : Nat) :
    linearLoop (fun j => decide (j < i + m)) b endKey (m + 1) i key = some (roundKeys b endKey m key) := by
  induction m generalizing i key with
  | zero => simp [linearLoop, roundKeys]
  | succ m ih =>
    unfold linearLoop roundKeys
    by_cases hkey : key < endKey
    · have hgo : decide (i < i + (m + 1)) = true ∧ key < endKey := ⟨by simp, hkey⟩
      have hrest : (fun j => decide (j < i + (m + 1))) = fun j => decide (j < i + 1 + m) := by
        funext j
        rw [Nat.add_right_comm, Nat.add_assoc]
      rw [if_pos hgo, if_pos hkey, hrest, ih]
      rfl
    · rw [if_neg (fun h => hkey h.2), if_neg hkey]

/-- A loop that runs to its end goes through the same rounds, and through no more. -/
theorem roundKeys_of_complete {b endKey fuel i key : Nat} {ks : List Nat}
    (h : linearLoop (fun _ => true) b endKey fuel i key = some ks) {m : Nat} (hm : fuel ≤ m) : roundKeys b endKey m key = ks := by
  induction fuel generalizing i key ks m with
  | zero => cases h
  | succ fuel ih =>
    obtain ⟨m, rfl⟩ := Nat.exists_eq_add_of_le' (Nat.le_trans (Nat.le_add_left 1 fuel) hm)
    unfold linearLoop at h
    unfold roundKeys
    by_cases hkey : key < endKey
    · rw [if_pos ⟨rfl, hkey⟩] at h
      obtain ⟨rest, hrest, rfl⟩ := Option.map_eq_some_iff.mp h
      rw [if_pos hkey, ih hrest (by omega)]
    · rw [if_neg (fun hc => hkey hc.2)] at h
      rw [if_neg hkey]
      exact Option.some.inj h

theorem roundKeys_mono (b endKey : Nat) {m n : Nat} (h : m ≤ n) (key : Nat) : roundKeys b endKey m key <+: roundKeys b endKey n key := by
  induction m generalizing n key with
  | zero => exact List.nil_prefix
  | succ m ih =>
    obtain ⟨n, rfl⟩ := Nat.exists_eq_add_of_le' (Nat.le_trans (Nat.le_add_left 1 m) h)
    unfold roundKeys
    split
    · exact List.prefix_append_right_inj _ |>.mpr (ih (by omega) _)
    · exact List.prefix_rfl

/-- A range of whole batches: the rounds stay in it and go through it in order. -/
theorem roundKeys_whole {b endKey key : Nat} (hb : 1 ≤ b) (hend : endKey < 2 ^ 64) (hdvd : b ∣ endKey - key) (m : Nat) :
    roundKeys b endKey m key <+: List.range' key (endKey - key) := by
  induction m generalizing key with
  | zero => exact List.nil_prefix
  | succ m ih =>
    unfold roundKeys
    split
    · next hkey =>
      have hle : b ≤ endKey - key := Nat.le_of_dvd (Nat.sub_pos_of_lt hkey) hdvd
      have hrest : endKey - key = b + (endKey - (key + b)) := by omega
      have hdvd' : b ∣ endKey - (key + b) := by
        rw [← Nat.sub_sub]
        exact Nat.dvd_sub hdvd (Nat.dvd_refl b)
      rw [linearBody_eq hb (by omega), hrest, ← List.range'_append_1]
      exact (List.prefix_append_right_inj _).mpr (ih hdvd')
    · exact List.nil_prefix

theorem mem_sequentialKeys {n key i : Nat} (hi : i < n) (hlt : key + i < 2 ^ 64) : key + i ∈ sequentialKeys n key := by
  induction n generalizing key i with
  | zero => omega
  | succ n ih =>
    rw [sequentialKeys]
    cases i with
    | zero => exact List.mem_cons_self
    | succ i =>
      have hmem := ih (show i < n by omega) (show key + 1 + i < 2 ^ 64 by omega)
      rw [Nat.mod_eq_of_lt (by omega)]
      refine List.mem_cons_of_mem _ ?_
      rwa [Nat.add_assoc, Nat.add_comm 1] at hmem

/-- The batch of a round, where a key it has to reach is given. -/
theorem mem_linearBody {b key k : Nat} (hlo : key ≤ k) (hhi : k < key + b) (hk : k < 2 ^ 64) : k ∈ (linearBody b key).1 := by
  obtain ⟨i, rfl⟩ := Nat.exists_eq_add_of_le hlo
  unfold linearBody
  split
  · have hi : i = 0 := by omega
    simp [hi]
  · exact mem_sequentialKeys (by omega) hk

/-- A range that is not a whole number of batches: some round operates on the key after the range. -/
theorem exists_round_past {b endKey key : Nat} (hb : 1 ≤ b) (hend : endKey < 2 ^ 64) (hkey : key ≤ endKey)
    (hdvd : ¬ b ∣ endKey - key) : ∃ m, endKey ∈ roundKeys b endKey m key := by
  induction hn : endKey - key using Nat.strong_induction_on generalizing key with
  | _ n ih =>
    have hlt : key < endKey := by
      rcases Nat.lt_or_ge key endKey with h | h
      · exact h
      · exact absurd (by simp [Nat.sub_eq_zero_of_le h]) hdvd
    by_cases hpast : endKey < key + b
    · refine ⟨1, ?_⟩
      rw [roundKeys, if_pos hlt]
      exact List.mem_append_left _ (mem_linearBody hkey hpast hend)
    · have hdvd' : ¬ b ∣ endKey - (key + b) := by
        rw [← Nat.sub_sub]
        intro h
        exact hdvd ((Nat.dvd_sub_iff_left (by omega) (Nat.dvd_refl b)).mp h)
      obtain ⟨m, hm⟩ := ih (endKey - (key + b)) (by omega) (by omega) hdvd' rfl
      refine ⟨m + 1, ?_⟩
      rw [roundKeys, if_pos hlt, linearBody_eq hb (by omega)]
      exact List.mem_append_right _ hm

theorem mem_roundKeys_one {b endKey key : Nat} (hb : 1 ≤ b) (hkey : key < endKey) (hend : endKey < 2 ^ 64) :
    key ∈ roundKeys b endKey 1 key := by
  rw [roundKeys, if_pos hkey]
  exact List.mem_append_left _ (mem_linearBody (Nat.le_refl key) (by omega) (by omega))

/-! ## The sub-ranges in batches -/

/-- Two multiples of a number above one that differ by at most one are equal. -/
theorem multiples_eq {b x y : Nat} (hb : 2 ≤ b) (hxy : b * x ≤ b * y + 1) (hyx : b * y ≤ b * x + 1) : b * x = b * y := by
  rcases Nat.lt_trichotomy x y with h | rfl | h
  · have hstep := Nat.mul_le_mul_left b (Nat.succ_le_of_lt h)
    rw [Nat.mul_succ] at hstep
    omega
  · rfl
  · have hstep := Nat.mul_le_mul_left b (Nat.succ_le_of_lt h)
    rw [Nat.mul_succ] at hstep
    omega

/-- All sub-ranges are whole numbers of batches exactly when batches have one key or all workers get equally many whole batches:
otherwise the sizes, which differ by at most one, are not all multiples of the batch size. -/
theorem dvd_sizes_iff {b T : Nat} (hT : 1 ≤ T) (hb : 1 ≤ b) (k n : Nat) :
    (∀ t < T, b ∣ cut k n T (t + 1) - cut k n T t) ↔ b = 1 ∨ b * T ∣ n := by
  constructor
  · intro hall
    rcases Nat.eq_or_lt_of_le hb with hone | hbig
    · exact .inl hone.symm
    right
    have hsame : ∀ t < T, cut k n T (t + 1) - cut k n T t = cut k n T 1 - cut k n T 0 := by
      intro t ht
      obtain ⟨x, hx⟩ := hall t ht
      obtain ⟨y, hy⟩ := hall 0 hT
      have h1 := cut_sizes hT k n t 0
      have h2 := cut_sizes hT k n 0 t
      rw [Nat.zero_add] at h1 h2 hy
      rw [hx, hy] at h1 h2 ⊢
      exact multiples_eq hbig h1 h2
    have hcut : ∀ t ≤ T, cut k n T t = k + t * (cut k n T 1 - cut k n T 0) := by
      intro t ht
      induction t with
      | zero => simp [cut_zero]
      | succ t ih =>
        have hstep := hsame t (by omega)
        have hmono := cut_mono k n T (Nat.le_add_right t 1)
        rw [Nat.succ_mul]
        have := ih (by omega)
        omega
    have hlast := hcut T (Nat.le_refl T)
    rw [cut_last hT] at hlast
    have hn : n = T * (cut k n T 1 - cut k n T 0) := by omega
    rw [hn, Nat.mul_comm b T]
    exact Nat.mul_dvd_mul_left T (hall 0 hT)
  · rintro (rfl | ⟨j, rfl⟩) t ht
    · exact Nat.one_dvd _
    · have hcut : ∀ u, cut k (b * T * j) T u = k + b * (j * u) := by
        intro u
        have hmul : b * T * j * u = b * (j * u) * T := by ring
        rw [cut, hmul, Nat.mul_div_cancel _ hT]
      refine ⟨j, ?_⟩
      rw [hcut, hcut, Nat.mul_add, Nat.mul_add, Nat.mul_one]
      omega

/-- A key that two threads operate on. -/
theorem not_nodup_flatMap {n t u : Nat} {f : Nat → List Nat} {key : Nat} (htu : t < u) (hu : u < n) (ht : key ∈ f t)
    (hkey : key ∈ f u) : ¬ ((List.range n).flatMap f).Nodup := by
  intro hnodup
  have hpair := (List.nodup_flatMap.mp hnodup).2
  rw [List.pairwise_iff_getElem] at hpair
  have hdisj := hpair t u (by simp; omega) (by simpa using hu) htu
  simp only [List.getElem_range] at hdisj
  exact hdisj ht hkey

/-! ## The keys of a stage -/

/-- What thread `t` of those that work on a linear stage operates on. -/
def Stage.workerKeys (s : Stage) (T : Nat) (doWork : Nat → Bool) (fuel t : Nat) : Option (List Nat) :=
  if s.async then doAsyncLinear doWork s fuel else doSyncLinear doWork s t T fuel

/-- The keys operated on when every thread has gone through `m` rounds or has ended before. -/
def Stage.keysAfter (s : Stage) (T m : Nat) : List Nat :=
  (List.range (s.issuers T)).flatMap fun t => (s.workerKeys T (fun i => decide (i < m)) (m + 1) t).getD []

/-- More than the keys of the stage: a key outside its range, or a key twice. -/
def Stage.MoreThanKeys (s : Stage) (keys : List Nat) : Prop :=
  (∃ key ∈ keys, key < s.keyStart ∨ s.keyEnd ≤ key) ∨ ¬ keys.Nodup

/-- Left to run, the threads come to operate on more than the keys of the stage. -/
def Stage.Exceeds (s : Stage) (T : Nat) : Prop := ∃ m, s.MoreThanKeys (s.keysAfter T m)

/-- Run to completion, the threads operate on the given keys. -/
def Stage.CompleteRun (s : Stage) (T : Nat) (keys : List Nat) : Prop :=
  ∃ fuel ks, (∀ t < s.issuers T, s.workerKeys T (fun _ => true) fuel t = some (ks t)) ∧
    keys = (List.range (s.issuers T)).flatMap ks

/-- More keys are more than the keys of the stage too. -/
theorem Stage.MoreThanKeys.mono {s : Stage} {keys keys' : List Nat} (hsub : keys.Sublist keys') (h : s.MoreThanKeys keys) :
    s.MoreThanKeys keys' := by
  rcases h with ⟨key, hmem, hout⟩ | hdup
  · exact .inl ⟨key, hsub.subset hmem, hout⟩
  · exact .inr fun hnodup => hdup (hnodup.sublist hsub)

/-- The coordinator gets past its checks of the keys, and warns exactly if the stage operates on more than its keys. -/
def WarningExact (s : Stage) (T : Nat) : Prop := ∃ ws, coordinatorWarnings s T = some ws ∧ (ws ≠ [] ↔ s.Exceeds T)

/-- A linear stage and the number of its workers, with numbers of their types. -/
structure LinearStage (s : Stage) (T : Nat) : Prop where
  linear : s.workload.type = .i ∨ s.workload.type = .d
  keys : s.keyStart < s.keyEnd ∧ s.keyEnd < 2 ^ 64
  workers : 1 ≤ T ∧ T ≤ 10000
  batch : 1 ≤ s.linearBatchSize ∧ s.linearBatchSize < 2 ^ 32

/-- Where the sub-range of thread `t` starts, and that of the thread before it ends. -/
def Stage.cutAt (s : Stage) (T t : Nat) : Nat := cut s.keyStart (s.keyEnd - s.keyStart) (s.issuers T) t

theorem Stage.cutAt_mono (s : Stage) (T : Nat) {t u : Nat} (htu : t ≤ u) : s.cutAt T t ≤ s.cutAt T u := cut_mono _ _ _ htu

/-- The sub-range of thread `t` is a whole number of batches. -/
def Stage.WholeBatches (s : Stage) (T t : Nat) : Prop := s.linearBatchSize ∣ s.cutAt T (t + 1) - s.cutAt T t

namespace LinearStage

variable {s : Stage} {T : Nat}

theorem issuers_pos (h : LinearStage s T) : 1 ≤ s.issuers T ∧ s.issuers T < 2 ^ 32 := by
  have hT := h.workers
  unfold Stage.issuers
  split <;> omega

theorem cutAt_last (h : LinearStage s T) : s.cutAt T (s.issuers T) = s.keyEnd := by
  rw [Stage.cutAt, cut_last h.issuers_pos.1, Nat.add_sub_cancel' h.keys.1.le]

theorem cutAt_lt (h : LinearStage s T) {t : Nat} (ht : t ≤ s.issuers T) : s.cutAt T t < 2 ^ 64 := by
  have hle := s.cutAt_mono T ht
  rw [h.cutAt_last] at hle
  exact Nat.lt_of_le_of_lt hle h.keys.2

/-- Every thread runs the loop on its sub-range: the one thread of an asynchronous stage has all of it. -/
theorem workerKeys_eq (h : LinearStage s T) (hmul : (s.keyEnd - s.keyStart) * s.issuers T < 2 ^ 64) {t : Nat}
    (ht : t < s.issuers T) (doWork : Nat → Bool) (fuel : Nat) :
    s.workerKeys T doWork fuel t = linearLoop doWork s.linearBatchSize (s.cutAt T (t + 1)) fuel 0 (s.cutAt T t) := by
  have hissuers := h.issuers_pos
  unfold Stage.workerKeys Stage.cutAt
  unfold Stage.issuers at *
  cases hasync : s.async with
  | true =>
    simp only [hasync, if_true] at ht ⊢
    obtain rfl : t = 0 := by omega
    rw [doAsyncLinear_eq h.linear, cut_zero, cut_last (Nat.le_refl 1), Nat.add_sub_cancel' h.keys.1.le]
    rfl
  | false =>
    simp only [hasync, Bool.false_eq_true, if_false] at ht hmul hissuers ⊢
    rw [doSyncLinear_eq h.linear, linearSync, calculateSubrange_eq ht hissuers.2 h.keys.1 h.keys.2 hmul]

theorem keysAfter_eq (h : LinearStage s T) (hmul : (s.keyEnd - s.keyStart) * s.issuers T < 2 ^ 64) (m : Nat) :
    s.keysAfter T m = (List.range (s.issuers T)).flatMap fun t =>
      roundKeys s.linearBatchSize (s.cutAt T (t + 1)) m (s.cutAt T t) := by
  refine List.flatMap_congr fun t ht => ?_
  have hstop := linearLoop_stopped s.linearBatchSize (s.cutAt T (t + 1)) m 0 (s.cutAt T t)
  rw [Nat.zero_add] at hstop
  rw [h.workerKeys_eq hmul (List.mem_range.mp ht), hstop, Option.getD_some]

theorem keysAfter_mono (h : LinearStage s T) (hmul : (s.keyEnd - s.keyStart) * s.issuers T < 2 ^ 64) {m n : Nat} (hmn : m ≤ n) :
    (s.keysAfter T m).Sublist (s.keysAfter T n) := by
  rw [h.keysAfter_eq hmul, h.keysAfter_eq hmul]
  exact List.Sublist.flatMap_right _ fun t _ => (roundKeys_mono _ _ hmn _).sublist

/-- Once all threads have ended, their keys are all there are. -/
theorem keysAfter_of_complete (h : LinearStage s T) (hmul : (s.keyEnd - s.keyStart) * s.issuers T < 2 ^ 64) {keys : List Nat}
    (hrun : s.CompleteRun T keys) : ∃ fuel, ∀ m, fuel ≤ m → s.keysAfter T m = keys := by
  obtain ⟨fuel, ks, hks, rfl⟩ := hrun
  refine ⟨fuel, fun m hm => ?_⟩
  rw [h.keysAfter_eq hmul]
  refine List.flatMap_congr fun t ht => ?_
  have hloop := hks t (List.mem_range.mp ht)
  rw [h.workerKeys_eq hmul (List.mem_range.mp ht)] at hloop
  exact roundKeys_of_complete hloop hm

/-- For threads that run to completion it is their keys that decide. -/
theorem exceeds_iff_of_complete (h : LinearStage s T) (hmul : (s.keyEnd - s.keyStart) * s.issuers T < 2 ^ 64)
    {keys : List Nat} (hrun : s.CompleteRun T keys) : s.Exceeds T ↔ s.MoreThanKeys keys := by
  obtain ⟨fuel, hall⟩ := h.keysAfter_of_complete hmul hrun
  constructor
  · rintro ⟨m, hm⟩
    have hsub := h.keysAfter_mono hmul (Nat.le_max_right fuel m)
    rw [hall _ (Nat.le_max_left fuel m)] at hsub
    exact hm.mono hsub
  · intro hmore
    refine ⟨fuel, ?_⟩
    rwa [hall fuel (Nat.le_refl fuel)]

/-- Sub-ranges of whole batches: each key of the stage at most once, and no other. -/
theorem not_exceeds (h : LinearStage s T) (hmul : (s.keyEnd - s.keyStart) * s.issuers T < 2 ^ 64)
    (hwhole : ∀ t < s.issuers T, s.WholeBatches T t) : ¬ s.Exceeds T := by
  rintro ⟨m, hm⟩
  have hsub : (s.keysAfter T m).Sublist (List.range' s.keyStart (s.keyEnd - s.keyStart)) := by
    have hall := flatMap_cuts s.keyStart (s.keyEnd - s.keyStart) (s.issuers T) (s.issuers T)
    rw [cut_last h.issuers_pos.1, Nat.add_sub_cancel_left] at hall
    rw [h.keysAfter_eq hmul, ← hall]
    refine List.Sublist.flatMap_right _ fun t ht => ?_
    have ht := List.mem_range.mp ht
    exact (roundKeys_whole h.batch.1 (h.cutAt_lt ht) (hwhole t ht) m).sublist
  rcases hm with ⟨key, hmem, hout⟩ | hdup
  · have hrange := List.mem_range'_1.mp (hsub.subset hmem)
    have hkeys := h.keys.1
    omega
  · exact hdup (List.Nodup.sublist hsub List.nodup_range')

/-- A sub-range that is not a whole number of batches: its last batch reaches the first key after it, which is that of another
thread or past the end of the range. -/
theorem exceeds_of_not_whole (h : LinearStage s T) (hmul : (s.keyEnd - s.keyStart) * s.issuers T < 2 ^ 64) {t : Nat}
    (ht : t < s.issuers T) (hwhole : ¬ s.WholeBatches T t) : s.Exceeds T := by
  obtain ⟨m, hm⟩ := exists_round_past h.batch.1 (h.cutAt_lt ht) (s.cutAt_mono T (Nat.le_add_right t 1)) hwhole
  have hpast := (roundKeys_mono _ _ (Nat.le_add_right m 1) _).subset hm
  have hle := s.cutAt_mono T (Nat.succ_le_of_lt ht)
  refine ⟨m + 1, ?_⟩
  rw [h.keysAfter_eq hmul]
  rw [h.cutAt_last] at hle
  rcases Nat.eq_or_lt_of_le hle with hlast | hinside
  · exact .inl ⟨_, List.mem_flatMap.mpr ⟨t, List.mem_range.mpr ht, hpast⟩, .inr hlast.ge⟩
  · right
    -- the thread whose sub-range begins with the key
    obtain ⟨u, hu, hlo, hhi⟩ : ∃ u < s.issuers T, s.cutAt T u ≤ s.cutAt T (t + 1) ∧ s.cutAt T (t + 1) < s.cutAt T (u + 1) := by
      refine exists_subrange h.issuers_pos.1 (Nat.le_add_right s.keyStart _) ?_
      rwa [Nat.add_sub_cancel' h.keys.1.le]
    have htu : t < u := by
      by_contra hnot
      have := s.cutAt_mono T (show u + 1 ≤ t + 1 by omega)
      omega
    have hstart : s.cutAt T (t + 1) = s.cutAt T u := Nat.le_antisymm (s.cutAt_mono T htu) hlo
    have hfirst := mem_roundKeys_one h.batch.1 (hstart ▸ hhi) (h.cutAt_lt hu)
    have hother := (roundKeys_mono _ _ (Nat.le_add_left 1 m) _).subset hfirst
    exact not_nodup_flatMap htu hu hpast (hstart ▸ hother)

/-- A linear stage operates on more than its keys exactly when its batches have more than one key and the threads do not all get
equally many whole batches. -/
theorem exceeds_iff (h : LinearStage s T) (hmul : (s.keyEnd - s.keyStart) * s.issuers T < 2 ^ 64) :
    s.Exceeds T ↔ ¬ (s.linearBatchSize = 1 ∨ s.linearBatchSize * s.issuers T ∣ s.keyEnd - s.keyStart) := by
  rw [← dvd_sizes_iff h.issuers_pos.1 h.batch.1 s.keyStart]
  constructor
  · intro hex hwhole
    exact h.not_exceeds hmul hwhole hex
  · intro hnot
    push Not at hnot
    obtain ⟨t, ht, hwhole⟩ := hnot
    exact h.exceeds_of_not_whole hmul ht hwhole

/-! ## The warnings -/

theorem warnings_eq (h : LinearStage s T) :
    ∃ op, coordinatorWarnings s T = linearWarnings op s.async s.linearBatchSize T (s.keyEnd - s.keyStart) := by
  have hkeys := h.keys
  have hsize : (s.keyEnd + 2 ^ 64 - s.keyStart) % 2 ^ 64 = s.keyEnd - s.keyStart := by omega
  rcases h.linear with ht | ht
  · exact ⟨.write, by simp only [coordinatorWarnings, ht, hsize, Stage.linearBatchSize, reduceCtorEq, if_false]⟩
  · exact ⟨.delete, by simp only [coordinatorWarnings, ht, hsize, Stage.linearBatchSize, if_true]⟩

/-- The warnings are exact when there is a divisor, and it divides the number of keys exactly for stages that keep to their keys. -/
theorem warningExact_iff (h : LinearStage s T) :
    WarningExact s T ↔ s.warningDivisor T ≠ 0 ∧ (s.warningDivisor T ∣ s.keyEnd - s.keyStart ↔ ¬ s.Exceeds T) := by
  obtain ⟨op, hop⟩ := h.warnings_eq
  have hkeys := h.keys.1
  have hsome := linearWarnings_isSome op s.async s.linearBatchSize T (s.keyEnd - s.keyStart)
  unfold WarningExact Stage.warningDivisor
  rw [hop]
  constructor
  · rintro ⟨ws, hws, hexact⟩
    have hne := linearWarnings_ne_nil (Nat.sub_pos_of_lt hkeys) hws
    refine ⟨hsome.mp ⟨ws, hws⟩, ?_⟩
    rw [← hexact, hne, not_not]
  · rintro ⟨hdiv, hexact⟩
    obtain ⟨ws, hws⟩ := hsome.mpr hdiv
    refine ⟨ws, hws, ?_⟩
    rw [linearWarnings_ne_nil (Nat.sub_pos_of_lt hkeys) hws, hexact, not_not]

end LinearStage

/-- An insert stage over three keys, written one by one. -/
def threeKeys : Stage := Stage.ofWorkload ⟨.i, .num 0, .num 0, .num 100, .num 100⟩ 1 4

end AerospikeBenchmark
