import AerospikeBenchmark.Theorems.KeyWarnings
import AerospikeBenchmark.Theorems.RangeReduction

/-!
# Linear stages at the limits of their types

A stage may be accepted with any range of 64-bit keys and any 32-bit batch sizes. Where the arithmetic of the set-up checks, of the
sub-ranges and of the key loops wraps, the checks divide by zero, the last sub-range ends too early, and the loops do not stop behind
their range.
-/

namespace AerospikeBenchmark

/-! ## Insert stages -/

/-- The definition of an insert stage with a range of keys and a batch size. -/
def insertDef (keyStart keyEnd batchWriteSize : Nat) : StageDef :=
  { StageDef.ofWorkload ['I'] with keyStart := keyStart, keyEnd := keyEnd, batchWriteSize := batchWriteSize }

/-- The stage that it gives. -/
def insertStage (keyStart keyEnd batchWriteSize : Nat) : Stage :=
  { Stage.ofWorkload ⟨.i, .num 0, .num 0, .num 100, .num 100⟩ keyStart keyEnd with batchWriteSize := batchWriteSize }

theorem insertStage_accepted {k e b : Nat} (hk : k < e) (he : e < unset64) (hb : 1 ≤ b) :
    stagesSetDefaultsAndParse .littleEndian .defaults (fun _ => insertStage k e b) [insertDef k e b] = .ok [insertStage k e b] := by
  have hstart : (insertDef k e b).startKey .defaults = k := if_neg (by simp only [insertDef]; omega)
  have hend : (insertDef k e b).endKey .defaults = e := if_neg (by simp only [insertDef]; omega)
  have hkeys : check (k < e) (.keyRange k e) = .ok () := if_pos hk
  have hstage : parseStage .littleEndian .defaults (insertStage k e b) 0 StageArgs.defaults.objSpec (insertDef k e b) =
      .ok (insertStage k e b) := by
    obtain ⟨c, rfl⟩ := Nat.exists_eq_add_of_le' hb
    unfold parseStage
    rw [hstart, hend, hkeys]
    rfl
  simp only [stagesSetDefaultsAndParse, parseStages, hstage]
  rfl

theorem insertDef_typed {k e b : Nat} (hk : k < e) (he : e < unset64) (hb : b < 2 ^ 32) : ∀ d ∈ [insertDef k e b], d.Typed := by
  intro d hd
  obtain rfl := List.mem_singleton.mp hd
  simp only [StageDef.typed_iff, insertDef, StageDef.ofWorkload, unset64] at he ⊢
  omega

/-! ## The divisors of the set-up checks -/

/-- The divisor of the check of a synchronous stage: a product of 32-bit numbers. -/
def setupDivisor (batchSize workerThreads : Nat) : Nat := batchSize * workerThreads % 2 ^ 32

/-- A product vanishes modulo `m` exactly when one factor is a multiple of what the other one lacks. -/
theorem dvd_mul_iff_div_gcd_dvd {m : Nat} (hm : 0 < m) (b T : Nat) : m ∣ b * T ↔ m / m.gcd T ∣ b := by
  have hg : 0 < m.gcd T := Nat.gcd_pos_of_pos_left T hm
  have hcoprime : (m / m.gcd T).Coprime (T / m.gcd T) := Nat.coprime_div_gcd_div_gcd hg
  have hT : b * T = b * (T / m.gcd T) * m.gcd T := by
    rw [Nat.mul_assoc, Nat.div_mul_cancel (Nat.gcd_dvd_right m T)]
  calc m ∣ b * T
      ↔ m / m.gcd T * m.gcd T ∣ b * (T / m.gcd T) * m.gcd T := by rw [Nat.div_mul_cancel (Nat.gcd_dvd_left m T), ← hT]
    _ ↔ m / m.gcd T ∣ b * (T / m.gcd T) := Nat.mul_dvd_mul_iff_right hg
    _ ↔ m / m.gcd T ∣ b := hcoprime.dvd_mul_right

theorem setupDivisor_ne_zero_iff (b T : Nat) : setupDivisor b T ≠ 0 ↔ ¬ 2 ^ 32 / (2 ^ 32).gcd T ∣ b := by
  rw [setupDivisor, ne_eq, ← Nat.dvd_iff_mod_eq_zero, dvd_mul_iff_div_gcd_dvd (by positivity)]

/-- At most 10000 workers contribute no more than 13 factors of two. -/
theorem le_div_gcd {T : Nat} (hpos : 1 ≤ T) (hT : T ≤ 10000) : 2 ^ 19 ≤ 2 ^ 32 / (2 ^ 32).gcd T := by
  obtain ⟨k, hk, hgcd⟩ := (Nat.dvd_prime_pow Nat.prime_two).mp (Nat.gcd_dvd_left (2 ^ 32) T)
  have hle : (2 ^ 32).gcd T ≤ T := Nat.gcd_le_right _ hpos
  have hsmall : k < 14 := by
    rw [← Nat.pow_lt_pow_iff_right (a := 2) (by omega), ← hgcd]
    omega
  rw [hgcd, Nat.pow_div hk (by omega)]
  exact Nat.pow_le_pow_right (by omega) (by omega)

/-- The batch sizes of an accepted stage. -/
theorem batchSizes_of_accepted {R : AsRandom} {args : StageArgs} {mem : Nat → Stage} {defs : List StageDef} {stages : List Stage}
    (h : stagesSetDefaultsAndParse R args mem defs = .ok stages) {s : Stage} (hs : s ∈ stages) :
    1 ≤ s.batchWriteSize ∧ 1 ≤ s.batchDeleteSize := by
  obtain ⟨j, spec, -, d, -, hparse⟩ := mem_parseStages h hs
  obtain ⟨parsed, hparsed⟩ := parsedStage_of_ok hparse
  have hsize := hparsed.batchSize
  rw [hparsed.batchWriteSize, hparsed.batchDeleteSize]
  constructor
  · split <;> omega
  · split <;> omega

/-- A small batch size keeps the divisor from zero. -/
theorem setupDivisor_ne_zero {b T : Nat} (hb : 1 ≤ b) (hsmall : b < 2 ^ 19) (hpos : 1 ≤ T) (hT : T ≤ 10000) : setupDivisor b T ≠ 0 := by
  rw [setupDivisor_ne_zero_iff]
  intro hdvd
  have hle := le_div_gcd hpos hT
  have := Nat.le_of_dvd hb hdvd
  omega

/-- The coordinator gets past its checks unless it divides by zero. -/
theorem coordinatorWarnings_isSome {s : Stage} {T : Nat} (hwrite : 1 ≤ s.batchWriteSize) (hdelete : 1 ≤ s.batchDeleteSize) :
    (coordinatorWarnings s T).isSome = true ↔
      (s.async = false → s.workload.type = .i → setupDivisor s.batchWriteSize T ≠ 0) ∧
      (s.async = false → s.workload.type = .d → setupDivisor s.batchDeleteSize T ≠ 0) := by
  rw [Option.isSome_iff_exists]
  unfold coordinatorWarnings setupDivisor
  cases s.workload.type <;> simp only [linearWarnings_isSome, reduceCtorEq, false_implies, implies_true, and_true, true_and,
    true_implies, Option.some.injEq, exists_eq']
  · cases s.async
    · simp
    · simp only [if_true, reduceCtorEq, false_implies, iff_true]
      omega
  · cases s.async
    · simp
    · simp only [if_true, reduceCtorEq, false_implies, iff_true]
      omega

/-- For an accepted stage and the thread counts of the command line the divisors of the set-up checks are non-zero exactly unless
`2^32 / gcd(2^32, T)` divides the batch size; batch sizes below `2^19` never give zero. The coordinator comes past its checks exactly
if the divisor it uses is not zero. -/
theorem setup_divisors_ne_zero_iff (R : AsRandom) (args : StageArgs) (mem : Nat → Stage) (defs : List StageDef) (stages : List Stage)
    (haccept : stagesSetDefaultsAndParse R args mem defs = .ok stages) (s : Stage) (hs : s ∈ stages) (T : Nat) (hpos : 1 ≤ T)
    (hT : T ≤ 10000) :
    (setupDivisor s.batchWriteSize T ≠ 0 ↔ ¬ 2 ^ 32 / (2 ^ 32).gcd T ∣ s.batchWriteSize) ∧
    (setupDivisor s.batchDeleteSize T ≠ 0 ↔ ¬ 2 ^ 32 / (2 ^ 32).gcd T ∣ s.batchDeleteSize) ∧
    (s.batchWriteSize < 2 ^ 19 → setupDivisor s.batchWriteSize T ≠ 0) ∧
    (s.batchDeleteSize < 2 ^ 19 → setupDivisor s.batchDeleteSize T ≠ 0) ∧
    ((coordinatorWarnings s T).isSome = true ↔
      (s.async = false → s.workload.type = .i → setupDivisor s.batchWriteSize T ≠ 0) ∧
      (s.async = false → s.workload.type = .d → setupDivisor s.batchDeleteSize T ≠ 0)) := by
  obtain ⟨hwrite, hdelete⟩ := batchSizes_of_accepted haccept hs
  exact ⟨setupDivisor_ne_zero_iff _ _, setupDivisor_ne_zero_iff _ _, fun hsmall => setupDivisor_ne_zero hwrite hsmall hpos hT,
    fun hsmall => setupDivisor_ne_zero hdelete hsmall hpos hT, coordinatorWarnings_isSome hwrite hdelete⟩

/-- Batches of `2^20` keys and 64 workers: the product stays below `2^32`. -/
theorem setup_divisors_ne_zero_large : setupDivisor (2 ^ 20) 64 ≠ 0 :=
  (setup_divisors_ne_zero_iff .littleEndian .defaults _ _ _ (insertStage_accepted (k := 1) (e := 1000001) (b := 2 ^ 20) (by decide)
    (by decide) (by decide)) _ (List.mem_singleton_self _) 64 (by decide) (by decide)).1.mpr (by decide)

/-- Batches of `2^28` keys and the default of 16 workers: the product wraps to zero, and the coordinator divides by it. -/
theorem large_batches_divide_by_zero :
    stagesSetDefaultsAndParse .littleEndian .defaults (fun _ => insertStage 1 1000001 (2 ^ 28)) [insertDef 1 1000001 (2 ^ 28)] =
      .ok [insertStage 1 1000001 (2 ^ 28)] ∧
    setupDivisor (insertStage 1 1000001 (2 ^ 28)).batchWriteSize 16 = 0 ∧
    coordinatorWarnings (insertStage 1 1000001 (2 ^ 28)) 16 = none :=
  ⟨insertStage_accepted (by decide) (by decide) (by decide), by decide, by decide⟩

/-! ## The sub-ranges -/

/-- Where the product of the number of keys and the number of workers does not fit, the last worker stops before the end. -/
theorem Stage.tEnd_last_lt {s : Stage} {T : Nat} (hpos : 1 ≤ T) (hT : T < 2 ^ 32) (hkeys : s.keyStart < s.keyEnd)
    (hend : s.keyEnd < 2 ^ 64) (hmul : 2 ^ 64 ≤ (s.keyEnd - s.keyStart) * T) : s.tEnd T (T - 1) < s.keyEnd := by
  have hsize : (s.keyEnd + 2 ^ 64 - s.keyStart) % 2 ^ 64 = s.keyEnd - s.keyStart := by omega
  have hshort : (s.keyEnd - s.keyStart) * T % 2 ^ 64 / T < s.keyEnd - s.keyStart := by
    rw [Nat.div_lt_iff_lt_mul hpos]
    exact Nat.lt_of_lt_of_le (Nat.mod_lt _ (by positivity)) hmul
  rw [Stage.tEnd, calculateSubrange]
  simp only [hsize, Nat.sub_add_cancel hpos, Nat.mod_eq_of_lt hT]
  generalize (s.keyEnd - s.keyStart) * T % 2 ^ 64 / T = off at hshort ⊢
  rw [Nat.mod_eq_of_lt (by omega)]
  omega

/-- The sub-ranges of an accepted stage partition its range exactly if the number of keys times the number of workers fits in 64
bits; otherwise the last one ends before the end of the range. -/
theorem subranges_partition_iff (R : AsRandom) (args : StageArgs) (mem : Nat → Stage) (defs : List StageDef) (stages : List Stage)
    (hdefs : ∀ d ∈ defs, d.Typed) (haccept : stagesSetDefaultsAndParse R args mem defs = .ok stages) (s : Stage) (hs : s ∈ stages)
    (T : Nat) (hpos : 1 ≤ T) (hT : T ≤ 10000) :
    ((s.keyEnd - s.keyStart) * T < 2 ^ 64 → SubrangesPartition s T) ∧
    (2 ^ 64 ≤ (s.keyEnd - s.keyStart) * T → s.tEnd T (T - 1) < s.keyEnd) := by
  obtain ⟨hkeys, hend⟩ := keyRange_of_accepted hdefs haccept hs
  exact ⟨Stage.partition_of_fits hpos (by omega) hkeys hend, Stage.tEnd_last_lt hpos (by omega) hkeys hend⟩

/-- Seven keys for three workers. -/
theorem subranges_partition_seven : SubrangesPartition (insertStage 1 8 2) 3 :=
  (subranges_partition_iff .littleEndian .defaults _ _ _ (insertDef_typed (by decide) (by decide) (by decide))
    (insertStage_accepted (k := 1) (e := 8) (b := 2) (by decide) (by decide) (by decide)) _ (List.mem_singleton_self _) 3 (by decide)
    (by decide)).1 (by decide)

/-- Half of all keys for two workers: the product wraps to zero, and the second worker has an empty sub-range. -/
theorem half_of_all_keys_not_covered :
    stagesSetDefaultsAndParse .littleEndian .defaults (fun _ => insertStage 0 (2 ^ 63) 1) [insertDef 0 (2 ^ 63) 1] =
      .ok [insertStage 0 (2 ^ 63) 1] ∧
    (insertStage 0 (2 ^ 63) 1).tEnd 2 0 = 2 ^ 62 ∧ (insertStage 0 (2 ^ 63) 1).tEnd 2 1 = 0 :=
  ⟨insertStage_accepted (by decide) (by decide) (by decide), by decide, by decide⟩

/-! ## The key loops -/

/-- A loop given by its result for each fuel stops after exactly `m` iterations: the test that ends it takes one more unit. -/
def EndsAfter (loop : Nat → Option (List Nat)) (m : Nat) : Prop := loop m = none ∧ (loop (m + 1)).isSome = true

theorem linearBody_snd {b : Nat} (hb : 1 ≤ b) (key : Nat) : (linearBody b key).2 = (key + b) % 2 ^ 64 := by
  unfold linearBody
  split
  · obtain rfl : b = 1 := by omega
    rfl
  · rfl

/-- An iteration of the loop. -/
theorem endsAfter_step {b endKey : Nat} (hb : 1 ≤ b) {i key : Nat} (hkey : key < endKey) (m : Nat) :
    EndsAfter (fun fuel => linearLoop (fun _ => true) b endKey fuel i key) (m + 1) ↔
      EndsAfter (fun fuel => linearLoop (fun _ => true) b endKey fuel (i + 1) ((key + b) % 2 ^ 64)) m := by
  have hround (fuel : Nat) : linearLoop (fun _ => true) b endKey (fuel + 1) i key =
      (linearLoop (fun _ => true) b endKey fuel (i + 1) ((key + b) % 2 ^ 64)).map ((linearBody b key).1 ++ ·) := by
    rw [linearLoop, if_pos ⟨rfl, hkey⟩, linearBody_snd hb]
  simp only [EndsAfter, hround, Option.map_eq_none_iff, Option.isSome_map]

theorem endsAfter_zero (b endKey i key : Nat) :
    EndsAfter (fun fuel => linearLoop (fun _ => true) b endKey fuel i key) 0 ↔ endKey ≤ key := by
  simp [EndsAfter, linearLoop]

/-- A key loop stops after as many iterations as its range has batches exactly if the key behind the last batch fits in 64 bits: a
key that wraps is below the end again. -/
theorem endsAfter_batches_iff {b endKey : Nat} (hb : 1 ≤ b) (hb32 : b < 2 ^ 32) (hend : endKey < 2 ^ 64) (i key : Nat) :
    EndsAfter (fun fuel => linearLoop (fun _ => true) b endKey fuel i key) (batches (endKey - key) b) ↔
      endKey ≤ key ∨ key + b * batches (endKey - key) b < 2 ^ 64 := by
  induction hm : batches (endKey - key) b generalizing i key with
  | zero =>
    have hle : endKey ≤ key := by
      by_contra hlt
      have := batches_step hb (Nat.sub_pos_of_lt (Nat.not_le.mp hlt))
      omega
    simp [endsAfter_zero, hle]
  | succ m ih =>
    have hkey : key < endKey := by
      by_contra hge
      rw [Nat.sub_eq_zero_of_le (Nat.not_lt.mp hge), batches_zero hb] at hm
      omega
    have hstep := batches_step hb (Nat.sub_pos_of_lt hkey)
    have hrest : endKey - key - b = endKey - (key + b) := by omega
    rw [hrest, hm] at hstep
    rw [endsAfter_step hb hkey, Nat.mul_succ]
    rcases Nat.lt_or_ge (key + b) (2 ^ 64) with hfits | hwraps
    · rw [Nat.mod_eq_of_lt hfits, ih (i + 1) (key + b) (by omega)]
      constructor
      · rintro (hpast | hlt)
        · have hzero : m = 0 := by
            rw [Nat.sub_eq_zero_of_le hpast, batches_zero hb] at hstep
            omega
          right
          rw [hzero]
          omega
        · right
          omega
      · rintro (hge | hlt)
        · omega
        · right
          omega
    · have hzero : m = 0 := by
        rw [Nat.sub_eq_zero_of_le (by omega), batches_zero hb] at hstep
        omega
      rw [hzero, endsAfter_zero]
      omega

/-- With `do_work` staying true, the loops of the asynchronous linear routines stop after exactly as many iterations as the range has
batches if and only if the key behind the last batch fits in 64 bits; the same for the loops of the workers on their sub-ranges, when
these are not empty. -/
theorem linear_loops_end_iff (R : AsRandom) (args : StageArgs) (mem : Nat → Stage) (defs : List StageDef) (stages : List Stage)
    (hdefs : ∀ d ∈ defs, d.Typed) (haccept : stagesSetDefaultsAndParse R args mem defs = .ok stages) (accepted : Stage)
    (hs : accepted ∈ stages) (b : Nat) (hb : 1 ≤ b) (hb32 : b < 2 ^ 32) (s : Stage)
    (hsize : s = { accepted with batchWriteSize := b, batchDeleteSize := b }) :
    (∀ loop ∈ [linearWritesAsync (fun _ => true) s, linearDeletesAsync (fun _ => true) s],
      EndsAfter loop (batches (s.keyEnd - s.keyStart) b) ↔ s.keyStart + b * batches (s.keyEnd - s.keyStart) b < 2 ^ 64) ∧
    ∀ T t, t < T → ∀ loop ∈ [linearWrites (fun _ => true) s t T, linearDeletes (fun _ => true) s t T],
      EndsAfter loop (batches (s.tEnd T t - s.tStart T t) b) ↔
        s.tEnd T t ≤ s.tStart T t ∨ s.tStart T t + b * batches (s.tEnd T t - s.tStart T t) b < 2 ^ 64 := by
  obtain ⟨hkeys, hend⟩ := keyRange_of_accepted hdefs haccept hs
  subst hsize
  constructor
  · intro loop hloop
    have hiff := endsAfter_batches_iff hb hb32 hend 0 accepted.keyStart
    rw [or_iff_right (Nat.not_le.mpr hkeys)] at hiff
    rcases List.mem_pair.mp hloop with rfl | rfl <;> exact hiff
  · intro T t _ loop hloop
    have hlt : (calculateSubrange accepted.keyStart accepted.keyEnd t T).2 < 2 ^ 64 := Nat.mod_lt _ (by positivity)
    have hiff := endsAfter_batches_iff hb hb32 hlt 0 (calculateSubrange accepted.keyStart accepted.keyEnd t T).1
    rcases List.mem_pair.mp hloop with rfl | rfl <;> exact hiff

/-- Seven keys in batches of two: four iterations. -/
theorem linear_loops_end_seven : EndsAfter (linearWritesAsync (fun _ => true) (insertStage 1 8 2)) 4 :=
  ((linear_loops_end_iff .littleEndian .defaults _ _ _ (insertDef_typed (by decide) (by decide) (by decide))
    (insertStage_accepted (k := 1) (e := 8) (b := 2) (by decide) (by decide) (by decide)) _ (List.mem_singleton_self _) 2 (by decide)
    (by decide) { insertStage 1 8 2 with batchDeleteSize := 2 } rfl).1 _ List.mem_cons_self).mpr (by decide)

/-- The last two keys before the largest ones, in a batch of four: the key wraps to 0 behind the batch, which is below the end, and
the loop goes on. -/
theorem last_keys_loop_goes_on :
    stagesSetDefaultsAndParse .littleEndian .defaults (fun _ => insertStage (2 ^ 64 - 4) (2 ^ 64 - 2) 4)
      [insertDef (2 ^ 64 - 4) (2 ^ 64 - 2) 4] = .ok [insertStage (2 ^ 64 - 4) (2 ^ 64 - 2) 4] ∧
    batches (2 ^ 64 - 2 - (2 ^ 64 - 4)) 4 = 1 ∧
    linearWritesAsync (fun _ => true) (insertStage (2 ^ 64 - 4) (2 ^ 64 - 2) 4) 2 = none :=
  ⟨insertStage_accepted (by decide) (by decide) (by decide), by decide, by decide⟩

end AerospikeBenchmark
