import AerospikeBenchmark.Transaction.Linear

/-!
# Linear stages cover the key range

The sub-ranges of the workers partition the range of a stage, and each routine goes through its range batch by batch.
-/

namespace AerospikeBenchmark

/-- Where the keys of worker `t` start, in unbounded arithmetic; the range of worker `t` ends where that of `t + 1` starts. -/
def cut (keyStart nKeys T t : Nat) : Nat := keyStart + nKeys * t / T

theorem cut_zero (k n T : Nat) : cut k n T 0 = k := by
  simp [cut]

theorem cut_last {T : Nat} (hT : 1 ≤ T) (k n : Nat) : cut k n T T = k + n := by
  rw [cut, Nat.mul_div_cancel _ hT]

theorem cut_mono (k n T : Nat) {t u : Nat} (h : t ≤ u) : cut k n T t ≤ cut k n T u :=
  Nat.add_le_add_left (Nat.div_le_div_right (Nat.mul_le_mul_left n h)) k

theorem cut_le {T t : Nat} (hT : 1 ≤ T) (ht : t ≤ T) (k n : Nat) : cut k n T t ≤ k + n :=
  cut_last hT k n ▸ cut_mono k n T ht

/-- Under the bounds of a stage the computation of `_calculate_subrange` does not wrap. -/
theorem calculateSubrange_eq {keyStart keyEnd T t : Nat} (ht : t < T) (hT : T < 2 ^ 32) (hkeys : keyStart < keyEnd)
    (hend : keyEnd < 2 ^ 64) (hmul : (keyEnd - keyStart) * T < 2 ^ 64) :
    calculateSubrange keyStart keyEnd t T =
      (cut keyStart (keyEnd - keyStart) T t, cut keyStart (keyEnd - keyStart) T (t + 1)) := by
  have hn : (keyEnd + 2 ^ 64 - keyStart) % 2 ^ 64 = keyEnd - keyStart := by omega
  have hnowrap : ∀ u ≤ T, (keyStart + (keyEnd - keyStart) * u % 2 ^ 64 / T) % 2 ^ 64 = cut keyStart (keyEnd - keyStart) T u := by
    intro u hu
    have hle : (keyEnd - keyStart) * u < 2 ^ 64 := Nat.lt_of_le_of_lt (Nat.mul_le_mul_left _ hu) hmul
    have hcut := cut_le (by omega) hu keyStart (keyEnd - keyStart)
    rw [Nat.mod_eq_of_lt hle]
    unfold cut at hcut ⊢
    exact Nat.mod_eq_of_lt (by omega)
  unfold calculateSubrange
  simp only [hn]
  rw [Nat.mod_eq_of_lt (by omega : t + 1 < 2 ^ 32), hnowrap t ht.le, hnowrap (t + 1) ht]

/-- Two sub-ranges differ in size by at most one. -/
theorem cut_sizes {T : Nat} (hT : 1 ≤ T) (k n t u : Nat) :
    cut k n T (t + 1) - cut k n T t ≤ cut k n T (u + 1) - cut k n T u + 1 := by
  -- the size of a sub-range is `n / T` or one more
  have hsize : ∀ v, n / T ≤ cut k n T (v + 1) - cut k n T v ∧ cut k n T (v + 1) - cut k n T v ≤ n / T + 1 := by
    intro v
    have hlow : n * v / T + n / T ≤ (n * v + n) / T := Nat.div_add_div_le_add_div
    have hhigh : (n * v + n) / T ≤ n * v / T + n / T + 1 := by
      rw [Nat.add_div (by omega)]
      split <;> omega
    unfold cut
    rw [Nat.mul_succ]
    generalize (n * v + n) / T = x at *
    generalize n * v / T = y at *
    generalize n / T = z at *
    omega
  have ht := (hsize t).2
  have hu := (hsize u).1
  omega

/-- Every key of a stage lies in the sub-range of some worker. -/
theorem exists_subrange {T : Nat} (hT : 1 ≤ T) {k n key : Nat} (hlo : k ≤ key) (hhi : key < k + n) :
    ∃ t < T, cut k n T t ≤ key ∧ key < cut k n T (t + 1) := by
  -- the last worker whose range starts at or before the key
  have hsearch : ∀ m ≤ T, key < cut k n T m → ∃ t < m, cut k n T t ≤ key ∧ key < cut k n T (t + 1) := by
    intro m hm hkey
    induction m with
    | zero =>
      rw [cut_zero] at hkey
      omega
    | succ m ih =>
      by_cases h : key < cut k n T m
      · obtain ⟨t, ht, hcut⟩ := ih (by omega) h
        exact ⟨t, by omega, hcut⟩
      · exact ⟨m, by omega, by omega, hkey⟩
  exact hsearch T le_rfl (by rwa [cut_last hT])

/-- The ranges of the first `m` workers, one after the other. -/
theorem flatMap_cuts (k n T m : Nat) :
    ((List.range m).flatMap fun t => List.range' (cut k n T t) (cut k n T (t + 1) - cut k n T t)) =
      List.range' k (cut k n T m - k) := by
  induction m with
  | zero => simp [cut_zero]
  | succ m ih =>
    have hmono := cut_mono k n T (Nat.le_add_right m 1)
    have hstart : k ≤ cut k n T m := Nat.le_add_right _ _
    have hsplit : cut k n T m = k + (cut k n T m - k) := by omega
    rw [List.range_succ, List.flatMap_append, ih, List.flatMap_singleton]
    nth_rewrite 2 [hsplit]
    rw [List.range'_append_1]
    congr 1
    omega

section

variable {s : Stage} {T : Nat}

theorem doSyncLinear_eq (hlin : s.workload.type = .i ∨ s.workload.type = .d) (doWork : Nat → Bool) (t fuel : Nat) :
    doSyncLinear doWork s t T fuel = linearSync s.linearBatchSize doWork s t T fuel := by
  rcases hlin with h | h
  · simp [doSyncLinear, h, linearWrites, Stage.linearBatchSize]
  · simp [doSyncLinear, h, linearDeletes, Stage.linearBatchSize]

theorem doAsyncLinear_eq (hlin : s.workload.type = .i ∨ s.workload.type = .d) (doWork : Nat → Bool) (fuel : Nat) :
    doAsyncLinear doWork s fuel = linearAsync s.linearBatchSize doWork s fuel := by
  rcases hlin with h | h
  · simp [doAsyncLinear, h, linearWritesAsync, Stage.linearBatchSize]
  · simp [doAsyncLinear, h, linearDeletesAsync, Stage.linearBatchSize]

end

/-- The start of the sub-range of worker `t`. -/
def Stage.tStart (s : Stage) (T t : Nat) : Nat := (calculateSubrange s.keyStart s.keyEnd t T).1

/-- The end of the sub-range of worker `t`. -/
def Stage.tEnd (s : Stage) (T t : Nat) : Nat := (calculateSubrange s.keyStart s.keyEnd t T).2

/-- The keys of worker `t`: from the start of its sub-range on, as many whole batches as the sub-range needs. -/
def Stage.syncKeys (s : Stage) (T t : Nat) : List Nat :=
  List.range' (s.tStart T t) (s.linearBatchSize * batches (s.tEnd T t - s.tStart T t) s.linearBatchSize)

/-- A linear stage of `T` workers, in the bounds in which its 64-bit arithmetic does not wrap. -/
structure LinearBounds (s : Stage) (T : Nat) : Prop where
  linear : s.workload.type = .i ∨ s.workload.type = .d
  workers : 1 ≤ T ∧ T < 2 ^ 32
  batch : 1 ≤ s.linearBatchSize
  keys : s.keyStart < s.keyEnd
  noWrapMul : (s.keyEnd - s.keyStart) * T < 2 ^ 64
  noWrapAdd : s.keyEnd + s.linearBatchSize ≤ 2 ^ 64

/-- The sub-ranges of the workers partition the range of the stage in order, with sizes that differ by at most one. -/
structure SubrangesPartition (s : Stage) (T : Nat) : Prop where
  first : s.tStart T 0 = s.keyStart
  last : s.tEnd T (T - 1) = s.keyEnd
  ordered : ∀ t < T, s.tStart T t ≤ s.tEnd T t
  adjacent : ∀ t, t + 1 < T → s.tEnd T t = s.tStart T (t + 1)
  balanced : ∀ t < T, ∀ u < T, s.tEnd T t - s.tStart T t ≤ s.tEnd T u - s.tStart T u + 1

/-- Where the computation does not wrap, the sub-range of a worker lies between two cuts. -/
theorem Stage.subrange_eq {s : Stage} {T : Nat} (hT : T < 2 ^ 32) (hkeys : s.keyStart < s.keyEnd) (hend : s.keyEnd < 2 ^ 64)
    (hmul : (s.keyEnd - s.keyStart) * T < 2 ^ 64) {t : Nat} (ht : t < T) :
    s.tStart T t = cut s.keyStart (s.keyEnd - s.keyStart) T t ∧ s.tEnd T t = cut s.keyStart (s.keyEnd - s.keyStart) T (t + 1) := by
  unfold Stage.tStart Stage.tEnd
  rw [calculateSubrange_eq ht hT hkeys hend hmul]
  exact ⟨rfl, rfl⟩

theorem Stage.partition_of_fits {s : Stage} {T : Nat} (hpos : 1 ≤ T) (hT : T < 2 ^ 32) (hkeys : s.keyStart < s.keyEnd)
    (hend : s.keyEnd < 2 ^ 64) (hmul : (s.keyEnd - s.keyStart) * T < 2 ^ 64) : SubrangesPartition s T := by
  have hsub {t : Nat} (ht : t < T) := Stage.subrange_eq hT hkeys hend hmul ht
  constructor
  · rw [(hsub (by omega)).1, cut_zero]
  · rw [(hsub (by omega)).2, Nat.sub_add_cancel hpos, cut_last hpos]
    omega
  · intro t ht
    rw [(hsub ht).1, (hsub ht).2]
    exact cut_mono _ _ _ (Nat.le_add_right t 1)
  · intro t ht
    rw [(hsub (by omega)).2, (hsub ht).1]
  · intro t ht u hu
    rw [(hsub ht).1, (hsub ht).2, (hsub hu).1, (hsub hu).2]
    exact cut_sizes hpos _ _ t u

theorem LinearBounds.keyEnd_lt {s : Stage} {T : Nat} (h : LinearBounds s T) : s.keyEnd < 2 ^ 64 := by
  have hadd := h.noWrapAdd
  have hb := h.batch
  omega

theorem LinearBounds.subrange {s : Stage} {T : Nat} (h : LinearBounds s T) {t : Nat} (ht : t < T) :
    s.tStart T t = cut s.keyStart (s.keyEnd - s.keyStart) T t ∧ s.tEnd T t = cut s.keyStart (s.keyEnd - s.keyStart) T (t + 1) :=
  Stage.subrange_eq h.workers.2 h.keys h.keyEnd_lt h.noWrapMul ht

theorem LinearBounds.syncLoop {s : Stage} {T : Nat} (h : LinearBounds s T) {t : Nat} (ht : t < T) :
    ∃ fuel, doSyncLinear (fun _ => true) s t T fuel = some (s.syncKeys T t) := by
  have hcut := cut_le h.workers.1 (by omega : t + 1 ≤ T) s.keyStart (s.keyEnd - s.keyStart)
  have hkeys := h.keys
  have hadd := h.noWrapAdd
  have hfit : s.tEnd T t + s.linearBatchSize ≤ 2 ^ 64 := by
    rw [(h.subrange ht).2]
    omega
  have hloop := linearLoop_eq h.batch hfit _ 0 (s.tStart T t) (Nat.lt_succ_self _)
  exact ⟨batches (s.tEnd T t - s.tStart T t) s.linearBatchSize + 1, (doSyncLinear_eq h.linear _ t _).trans hloop⟩

/-- Run to completion, synchronous worker `t` operates on exactly the keys `syncKeys`, in order; the sub-ranges partition the
range of the stage; so every key of the stage is operated on, and with batches of one key the workers together operate on each key
exactly once and on no other. An asynchronous stage operates on the batches of the whole range, each key once. -/
theorem linear_stages_cover (s : Stage) (T : Nat) (h : LinearBounds s T) :
    (∀ t < T, ∃ fuel, doSyncLinear (fun _ => true) s t T fuel = some (s.syncKeys T t)) ∧
    SubrangesPartition s T ∧
    (∀ key, s.keyStart ≤ key → key < s.keyEnd → ∃ t < T, key ∈ s.syncKeys T t) ∧
    (s.linearBatchSize = 1 → (List.range T).flatMap (s.syncKeys T) = List.range' s.keyStart (s.keyEnd - s.keyStart)) ∧
    ∃ fuel, doAsyncLinear (fun _ => true) s fuel = some (List.range' s.keyStart
      (s.linearBatchSize * batches (s.keyEnd - s.keyStart) s.linearBatchSize)) := by
  have hT := h.workers.1
  have hkeys := h.keys
  refine ⟨?_, Stage.partition_of_fits hT h.workers.2 h.keys h.keyEnd_lt h.noWrapMul, ?_, ?_, ?_⟩
  · intro t ht
    exact h.syncLoop ht
  · intro key hlo hhi
    obtain ⟨t, ht, hcut⟩ := exists_subrange (n := s.keyEnd - s.keyStart) hT hlo (by omega)
    have hlen := le_mul_batches (n := s.tEnd T t - s.tStart T t) h.batch
    rw [← (h.subrange ht).1, ← (h.subrange ht).2] at hcut
    refine ⟨t, ht, ?_⟩
    rw [Stage.syncKeys, List.mem_range'_1]
    omega
  · intro hone
    have hkeysOf : ∀ t ∈ List.range T, s.syncKeys T t = List.range' (cut s.keyStart (s.keyEnd - s.keyStart) T t)
        (cut s.keyStart (s.keyEnd - s.keyStart) T (t + 1) - cut s.keyStart (s.keyEnd - s.keyStart) T t) := by
      intro t ht
      have hsub := h.subrange (List.mem_range.mp ht)
      rw [Stage.syncKeys, hsub.1, hsub.2, hone]
      simp [batches]
    rw [List.flatMap_congr hkeysOf, flatMap_cuts, cut_last hT]
    congr 1
    omega
  · have hloop := linearLoop_eq h.batch h.noWrapAdd _ 0 s.keyStart (Nat.lt_succ_self _)
    exact ⟨_, (doAsyncLinear_eq h.linear _ _).trans hloop⟩

/-- An insert stage over seven keys, two in a batch. -/
def sevenKeys : Stage :=
  { Stage.ofWorkload ⟨.i, .num 0, .num 0, .num 100, .num 100⟩ 1 8 with batchWriteSize := 2 }

/-- Three workers with batches of two keys: the first two operate on two keys each, the third on the last three and one more. -/
theorem linear_stages_cover_seven :
    (List.range 3).map (sevenKeys.syncKeys 3) = [[1, 2], [3, 4], [5, 6, 7, 8]] ∧
      ∀ t < 3, ∃ fuel, doSyncLinear (fun _ => true) sevenKeys t 3 fuel = some (sevenKeys.syncKeys 3 t) :=
  ⟨by decide, (linear_stages_cover sevenKeys 3 ⟨by decide, by decide, by decide, by decide, by decide, by decide⟩).1⟩

end AerospikeBenchmark
