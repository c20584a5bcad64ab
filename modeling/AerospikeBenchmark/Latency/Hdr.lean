import Mathlib.Data.Nat.Bitwise
import Mathlib.Data.Nat.Log

/-!
# HDR histograms

What `hdr_histogram.c` does to set up a histogram and to record a value. The counts of 64 bits are taken as numbers. A value whose
index lies beyond the counts is turned away: `hdr_record_value_atomic` then returns false and changes nothing.
-/

namespace AerospikeBenchmark

/-- `struct hdr_histogram_bucket_config`. -/
structure HdrBucketConfig where
  lowestTrackableValue : Nat
  highestTrackableValue : Nat
  unitMagnitude : Nat
  significantFigures : Nat
  subBucketHalfCountMagnitude : Nat
  subBucketHalfCount : Nat
  subBucketMask : Nat
  subBucketCount : Nat
  bucketCount : Nat
  countsLen : Nat
deriving DecidableEq, Repr

/-- `struct hdr_histogram`, less what only its output reads. -/
structure HdrHistogram extends HdrBucketConfig where
  minValue : Nat
  maxValue : Nat
  totalCount : Nat
  counts : List Nat
deriving DecidableEq, Repr

/-! ## Setting up -/

/-- The loop of `buckets_needed_to_cover_value`. The untrackable value doubles up to `INT64_MAX / 2`, so that 64 rounds suffice. -/
def bucketsNeededLoop (value : Nat) : Nat → Nat → Nat → Nat
  | 0, _, bucketsNeeded => bucketsNeeded
  | fuel + 1, smallestUntrackableValue, bucketsNeeded =>
    if smallestUntrackableValue ≤ value then
      if (2 ^ 63 - 1) / 2 < smallestUntrackableValue then bucketsNeeded + 1
      else bucketsNeededLoop value fuel (2 * smallestUntrackableValue) (bucketsNeeded + 1)
    else bucketsNeeded

/-- `buckets_needed_to_cover_value`. -/
def bucketsNeededToCoverValue (value subBucketCount unitMagnitude : Nat) : Nat :=
  bucketsNeededLoop value 64 (subBucketCount <<< unitMagnitude) 1

/-- The logarithm to base 2, rounded up. -/
def ceilLog2 (n : Nat) : Nat := if 2 ^ n.log2 = n then n.log2 else n.log2 + 1

/-- `hdr_calculate_bucket_config`; none stands for `EINVAL`. -/
def hdrCalculateBucketConfig (lowest highest significantFigures : Nat) : Option HdrBucketConfig :=
  if lowest < 1 || significantFigures < 1 || 5 < significantFigures || highest < lowest * 2 then none
  else
    let subBucketCountMagnitude := ceilLog2 (2 * 10 ^ significantFigures)
    let halfCountMagnitude := max subBucketCountMagnitude 1 - 1
    let unitMagnitude := lowest.log2
    let subBucketCount := 2 ^ (halfCountMagnitude + 1)
    if 61 < unitMagnitude + halfCountMagnitude then none
    else
      let bucketCount := bucketsNeededToCoverValue highest subBucketCount unitMagnitude
      some {
        lowestTrackableValue := lowest
        highestTrackableValue := highest
        unitMagnitude := unitMagnitude
        significantFigures := significantFigures
        subBucketHalfCountMagnitude := halfCountMagnitude
        subBucketHalfCount := subBucketCount / 2
        subBucketMask := (subBucketCount - 1) <<< unitMagnitude
        subBucketCount := subBucketCount
        bucketCount := bucketCount
        countsLen := (bucketCount + 1) * (subBucketCount / 2) }

/-- `hdr_init`, when memory suffices. -/
def hdrInit (lowest highest significantFigures : Nat) : Option HdrHistogram :=
  (hdrCalculateBucketConfig lowest highest significantFigures).map fun cfg =>
    { cfg with minValue := 2 ^ 63 - 1, maxValue := 0, totalCount := 0, counts := List.replicate cfg.countsLen 0 }

/-! ## Recording -/

/-- `get_bucket_index`: 64 less the leading zeros is the length of the number in bits. -/
def HdrBucketConfig.getBucketIndex (h : HdrBucketConfig) (value : Nat) : Nat :=
  (value ||| h.subBucketMask).log2 + 1 - h.unitMagnitude - (h.subBucketHalfCountMagnitude + 1)

/-- `get_sub_bucket_index`. -/
def getSubBucketIndex (value bucketIndex unitMagnitude : Nat) : Nat := value >>> (bucketIndex + unitMagnitude)

/-- `counts_index`. -/
def HdrBucketConfig.countsIndex (h : HdrBucketConfig) (bucketIndex subBucketIndex : Nat) : Nat :=
  (bucketIndex + 1) <<< h.subBucketHalfCountMagnitude + subBucketIndex - h.subBucketHalfCount

/-- `counts_index_for`. -/
def HdrBucketConfig.countsIndexFor (h : HdrBucketConfig) (value : Nat) : Nat :=
  let bucketIndex := h.getBucketIndex value
  h.countsIndex bucketIndex (getSubBucketIndex value bucketIndex h.unitMagnitude)

/-- `hdr_record_value_atomic`, with what it returns. The value is an unsigned number of 64 bits that is read as a signed one. -/
def hdrRecordValueAtomic (h : HdrHistogram) (value : Nat) : HdrHistogram × Bool :=
  if 2 ^ 63 ≤ value then (h, false)
  else
    let countsIndex := h.countsIndexFor value
    if h.countsLen ≤ countsIndex then (h, false)
    else
      ({ h with
        counts := h.counts.modify countsIndex (· + 1)
        totalCount := h.totalCount + 1
        minValue := if value = 0 ∨ h.minValue ≤ value then h.minValue else value
        maxValue := if value ≤ h.maxValue then h.maxValue else value }, true)

/-- Recording leaves the configuration. -/
@[simp] theorem hdrRecordValueAtomic_config (h : HdrHistogram) (value : Nat) :
    (hdrRecordValueAtomic h value).1.toHdrBucketConfig = h.toHdrBucketConfig := by
  unfold hdrRecordValueAtomic
  split
  · rfl
  · dsimp only
    split <;> rfl

/-- A value is counted exactly when the function returns true. -/
theorem hdrRecordValueAtomic_totalCount (h : HdrHistogram) (value : Nat) :
    (hdrRecordValueAtomic h value).1.totalCount = h.totalCount + if (hdrRecordValueAtomic h value).2 then 1 else 0 := by
  unfold hdrRecordValueAtomic
  split
  · rfl
  · dsimp only
    split <;> rfl

/-! ## The histograms of the latencies -/

/-- The configuration of `hdr_init(1, 1000000, 3, ..)`. -/
def latencyHdrConfig : HdrBucketConfig := ⟨1, 1000000, 0, 3, 10, 1024, 2047, 2048, 10, 11264⟩

theorem hdrCalculateBucketConfig_latency : hdrCalculateBucketConfig 1 1000000 3 = some latencyHdrConfig := by decide +kernel

theorem mask_le_or (value : Nat) : 2047 ≤ value ||| 2047 := Nat.right_le_or

/-- The length in bits of a value joined with the mask, from 11 on, is that of the value. -/
theorem log2_or_mask_lt (value : Nat) {k : Nat} (hk : 11 ≤ k) : (value ||| 2047).log2 + 1 ≤ k ↔ value < 2 ^ k := by
  have hne : value ||| 2047 ≠ 0 := Nat.ne_of_gt (Nat.lt_of_lt_of_le (by decide) (mask_le_or value))
  have hmask : 2047 < 2 ^ k := Nat.lt_of_lt_of_le (by decide) (Nat.pow_le_pow_right (by decide) hk)
  rw [Nat.succ_le_iff, Nat.log2_lt hne]
  constructor
  · intro hlt
    exact Nat.lt_of_le_of_lt Nat.left_le_or hlt
  · intro hlt
    exact Nat.or_lt_two_pow hlt hmask

theorem eleven_le_log2_or_mask (value : Nat) : 11 ≤ (value ||| 2047).log2 + 1 := by
  have hle := mask_le_or value
  have hlog : 10 ≤ (value ||| 2047).log2 := (Nat.le_log2 (by omega)).mpr (Nat.le_trans (by decide) hle)
  omega

/-- Values of less than 20 bits fall into the counts, all others beyond them. -/
theorem latencyHdrConfig_countsIndexFor_lt (value : Nat) :
    latencyHdrConfig.countsIndexFor value < latencyHdrConfig.countsLen ↔ value < 2 ^ 20 := by
  obtain ⟨b, hb⟩ := Nat.exists_eq_add_of_le (eleven_le_log2_or_mask value)
  have hindex : latencyHdrConfig.countsIndexFor value = (b + 1) * 1024 + value / 2 ^ b - 1024 := by
    have hbucket : 11 + b - 0 - (10 + 1) = b := by omega
    simp only [HdrBucketConfig.countsIndexFor, HdrBucketConfig.getBucketIndex, latencyHdrConfig, HdrBucketConfig.countsIndex,
      getSubBucketIndex, Nat.shiftLeft_eq, Nat.shiftRight_eq_div_pow, hb, hbucket, Nat.add_zero]
  rw [hindex]
  change (b + 1) * 1024 + value / 2 ^ b - 1024 < 11264 ↔ _
  constructor
  · intro hlt
    by_contra hge
    have hb10 : 10 ≤ b := by
      by_contra hsmall
      exact hge ((log2_or_mask_lt value (by decide)).mp (by omega))
    have hvalue : 2 ^ (b + 10) ≤ value := by
      by_contra hsmall
      have hbits := (log2_or_mask_lt value (k := b + 10) (by omega)).mpr (by omega)
      omega
    have hsub : 2 ^ 10 ≤ value / 2 ^ b := by
      rw [Nat.le_div_iff_mul_le (Nat.two_pow_pos b), ← Nat.pow_add, Nat.add_comm]
      exact hvalue
    omega
  · intro hlt
    have hbits := (log2_or_mask_lt value (by decide)).mpr hlt
    have hvalue : value < 2 ^ (b + 11) := (log2_or_mask_lt value (by omega)).mp (by omega)
    have hsub : value / 2 ^ b < 2 ^ 11 := by
      rw [Nat.div_lt_iff_lt_mul (Nat.two_pow_pos b), ← Nat.pow_add, Nat.add_comm]
      exact hvalue
    omega

/-- A latency is recorded exactly when it has at most 20 bits. -/
theorem hdrRecordValueAtomic_latency {h : HdrHistogram} (hcfg : h.toHdrBucketConfig = latencyHdrConfig) (value : Nat) :
    (hdrRecordValueAtomic h value).2 = true ↔ value < 2 ^ 20 := by
  have hlt := latencyHdrConfig_countsIndexFor_lt value
  rw [← hcfg] at hlt
  unfold hdrRecordValueAtomic
  split
  · next hneg =>
    refine ⟨nofun, ?_⟩
    intro hsmall
    omega
  · dsimp only
    rw [← hlt]
    split
    · next hout => exact ⟨nofun, fun hin => absurd hin (Nat.not_lt.mpr hout)⟩
    · next hin => exact ⟨fun _ => Nat.not_le.mp hin, fun _ => rfl⟩

end AerospikeBenchmark
