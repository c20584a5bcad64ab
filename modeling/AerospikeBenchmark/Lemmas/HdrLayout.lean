import AerospikeBenchmark.Latency.HdrValues
import AerospikeBenchmark.Lib.LogLinear
import Mathlib.Tactic.Linarith

/-!
# The layout of HDR histograms

A configuration that `hdr_calculate_bucket_config` accepts lays its counts out as classes whose width doubles with each bucket: the
functions on values and indices are those of `LogLinear`, at the magnitudes of the configuration.
-/

namespace AerospikeBenchmark

/-- What the fields of a configuration have to do with each other. -/
structure HdrBucketConfig.Valid (h : HdrBucketConfig) : Prop where
  half : h.subBucketHalfCount = 2 ^ h.subBucketHalfCountMagnitude
  count : h.subBucketCount = 2 ^ (h.subBucketHalfCountMagnitude + 1)
  mask : h.subBucketMask = (2 ^ (h.subBucketHalfCountMagnitude + 1) - 1) <<< h.unitMagnitude
  len : h.countsLen = (h.bucketCount + 1) * 2 ^ h.subBucketHalfCountMagnitude
  buckets : 0 < h.bucketCount
  /-- All buckets lie within the positive numbers of 64 bits, and cover the values. -/
  inRange : h.subBucketHalfCountMagnitude + h.unitMagnitude + h.bucketCount ≤ 63
  covers : h.highestTrackableValue < 2 ^ (h.subBucketHalfCountMagnitude + h.unitMagnitude + h.bucketCount)
  digits : 10 ^ h.significantFigures ≤ 2 ^ h.subBucketHalfCountMagnitude
  unit : 2 ^ h.unitMagnitude ≤ h.lowestTrackableValue
  small : h.subBucketHalfCountMagnitude ≤ 17

/-! ## Accepted configurations -/

theorem le_two_pow_ceilLog2 (n : Nat) : n ≤ 2 ^ ceilLog2 n := by
  unfold ceilLog2
  split
  · next h => exact h.ge
  · exact Nat.lt_log2_self.le

theorem ceilLog2_le {n k : Nat} (hn : 0 < n) (h : n ≤ 2 ^ k) : ceilLog2 n ≤ k := by
  have hself := Nat.log2_self_le hn.ne'
  unfold ceilLog2
  split
  · next heq =>
    rw [← heq] at h
    exact (Nat.pow_le_pow_iff_right (by decide)).mp h
  · next hne =>
    have hlt : 2 ^ n.log2 < 2 ^ k := by omega
    exact (Nat.pow_lt_pow_iff_right (by decide)).mp hlt

/-- The buckets that the loop finds reach beyond the value, and not beyond the numbers of 64 bits. -/
theorem bucketsNeededLoop_spec {value : Nat} (hvalue : value < 2 ^ 63) (fuel e needed : Nat) (he : e ≤ 62) (hfuel : 63 ≤ fuel + e) :
    ∃ k, bucketsNeededLoop value fuel (2 ^ e) needed = needed + k ∧ e + k ≤ 63 ∧ value < 2 ^ (e + k) := by
  induction fuel generalizing e needed with
  | zero => omega
  | succ fuel ih =>
    unfold bucketsNeededLoop
    split
    · split
      · next hlarge =>
        refine ⟨1, rfl, by omega, ?_⟩
        have hpow : 2 ^ 62 ≤ 2 ^ e := by omega
        have : 62 ≤ e := (Nat.pow_le_pow_iff_right (by decide)).mp hpow
        obtain rfl : e = 62 := by omega
        exact hvalue
      · next hsmall =>
        have hlt : e < 62 := by
          rw [← Nat.pow_lt_pow_iff_right (a := 2) (by decide)]
          omega
        obtain ⟨k, hk, hle, hcover⟩ := ih (e + 1) (needed + 1) (by omega) (by omega)
        refine ⟨k + 1, ?_, by omega, ?_⟩
        · rw [show 2 * 2 ^ e = 2 ^ (e + 1) by rw [Nat.pow_succ, Nat.mul_comm], hk]
          omega
        · rw [show e + (k + 1) = e + 1 + k by omega]
          exact hcover
    · next hgt => exact ⟨0, rfl, by omega, Nat.lt_of_not_le hgt⟩

theorem hdrCalculateBucketConfig_valid {lowest highest figures : Nat} {cfg : HdrBucketConfig} (hhigh : highest < 2 ^ 63)
    (h : hdrCalculateBucketConfig lowest highest figures = some cfg) : cfg.Valid := by
  unfold hdrCalculateBucketConfig at h
  split at h
  · cases h
  next hargs =>
  dsimp only at h
  split at h
  · cases h
  next hmag =>
  simp only [Option.some.injEq] at h
  subst h
  simp only [Bool.or_eq_true, decide_eq_true_eq, not_or, Nat.not_lt] at hargs
  obtain ⟨⟨⟨hlow, -⟩, hfigures⟩, -⟩ := hargs
  have hlog := le_two_pow_ceilLog2 (2 * 10 ^ figures)
  have hten : 10 ^ figures ≤ 10 ^ 5 := Nat.pow_le_pow_right (by decide) hfigures
  have hlog' : ceilLog2 (2 * 10 ^ figures) ≤ 18 := ceilLog2_le (by positivity) (by omega)
  generalize hm : max (ceilLog2 (2 * 10 ^ figures)) 1 - 1 = m at hmag ⊢
  have hdigits : 10 ^ figures ≤ 2 ^ m := by
    have hpow : 2 ^ ceilLog2 (2 * 10 ^ figures) ≤ 2 ^ (m + 1) := Nat.pow_le_pow_right (by decide) (by omega)
    rw [Nat.pow_succ] at hpow
    omega
  have hunit : 2 ^ lowest.log2 ≤ lowest := Nat.log2_self_le (by omega)
  have hshift : 2 ^ (m + 1) <<< lowest.log2 = 2 ^ (m + 1 + lowest.log2) := by rw [Nat.shiftLeft_eq, ← Nat.pow_add]
  obtain ⟨k, hk, hle, hcover⟩ := bucketsNeededLoop_spec hhigh 64 (m + 1 + lowest.log2) 1 (by omega) (by omega)
  have hcount : bucketsNeededToCoverValue highest (2 ^ (m + 1)) lowest.log2 = k + 1 := by
    rw [bucketsNeededToCoverValue, hshift, hk, Nat.add_comm]
  have hhalf : 2 ^ (m + 1) / 2 = 2 ^ m := by rw [Nat.pow_succ, Nat.mul_div_cancel _ (by decide)]
  have hsum : m + lowest.log2 + (k + 1) = m + 1 + lowest.log2 + k := by omega
  rw [hcount]
  exact {
    half := hhalf
    count := rfl
    mask := rfl
    len := by rw [hhalf]
    buckets := Nat.succ_pos k
    inRange := by rw [hsum]; exact hle
    covers := by rw [hsum]; exact hcover
    digits := hdigits
    unit := hunit
    small := by change m ≤ 17; omega }

/-- The configuration keeps what it was asked for. -/
theorem hdrCalculateBucketConfig_args {lowest highest figures : Nat} {cfg : HdrBucketConfig}
    (h : hdrCalculateBucketConfig lowest highest figures = some cfg) :
    cfg.lowestTrackableValue = lowest ∧ cfg.highestTrackableValue = highest ∧ cfg.significantFigures = figures ∧
      lowest * 2 ≤ highest ∧ figures ≤ 5 := by
  unfold hdrCalculateBucketConfig at h
  split at h
  · cases h
  next hargs =>
  dsimp only at h
  split at h
  · cases h
  simp only [Option.some.injEq] at h
  subst h
  simp only [Bool.or_eq_true, decide_eq_true_eq, not_or, Nat.not_lt] at hargs
  exact ⟨rfl, rfl, rfl, hargs.2, hargs.1.2⟩

theorem HdrBucketConfig.Valid.countsLen_pos {h : HdrBucketConfig} (hv : h.Valid) : 0 < h.countsLen := by
  rw [hv.len]
  exact Nat.mul_pos (Nat.succ_pos _) (Nat.two_pow_pos _)

/-- There are not too many counts. -/
theorem HdrBucketConfig.Valid.countsLen_le {h : HdrBucketConfig} (hv : h.Valid) : h.countsLen ≤ 2 ^ 23 := by
  have hpow : 2 ^ h.subBucketHalfCountMagnitude ≤ 2 ^ 17 := Nat.pow_le_pow_right (by decide) hv.small
  have hbuckets := hv.inRange
  rw [hv.len]
  calc (h.bucketCount + 1) * 2 ^ h.subBucketHalfCountMagnitude ≤ 64 * 2 ^ 17 := Nat.mul_le_mul (by omega) hpow
    _ = 2 ^ 23 := by decide

/-! ## The functions on values and indices -/

namespace HdrBucketConfig

variable {h : HdrBucketConfig}

/-- The class of a value. -/
def classOf (h : HdrBucketConfig) (value : Nat) : Nat := LogLinear.index h.subBucketHalfCountMagnitude h.unitMagnitude value

theorem classOf_zero (h : HdrBucketConfig) : h.classOf 0 = 0 := by simp [classOf, LogLinear.index, LogLinear.bucket]

theorem Valid.getBucketIndex_eq (hv : h.Valid) (value : Nat) :
    h.getBucketIndex value = LogLinear.bucket h.subBucketHalfCountMagnitude h.unitMagnitude value := by
  generalize hb : LogLinear.bucket h.subBucketHalfCountMagnitude h.unitMagnitude value = b
  have hmask : h.subBucketMask = (2 ^ (h.subBucketHalfCountMagnitude + 1) - 1) * 2 ^ h.unitMagnitude := by
    rw [hv.mask, Nat.shiftLeft_eq]
  have hpow := Nat.two_pow_pos h.subBucketHalfCountMagnitude
  have hlt : value ||| h.subBucketMask < 2 ^ (h.subBucketHalfCountMagnitude + h.unitMagnitude + 1 + b) := by
    refine Nat.or_lt_two_pow (hb ▸ LogLinear.lt_bucket value) ?_
    calc h.subBucketMask < 2 ^ (h.subBucketHalfCountMagnitude + 1) * 2 ^ h.unitMagnitude := by
          rw [hmask]
          exact (Nat.mul_lt_mul_right (Nat.two_pow_pos _)).mpr (Nat.sub_lt (Nat.two_pow_pos _) one_pos)
      _ = 2 ^ (h.subBucketHalfCountMagnitude + h.unitMagnitude + 1) := by rw [← Nat.pow_add]; congr 1; omega
      _ ≤ 2 ^ (h.subBucketHalfCountMagnitude + h.unitMagnitude + 1 + b) := Nat.pow_le_pow_right (by decide) (Nat.le_add_right _ _)
  have hge : 2 ^ (h.subBucketHalfCountMagnitude + h.unitMagnitude + b) ≤ value ||| h.subBucketMask := by
    rcases Nat.eq_zero_or_pos b with rfl | hpos
    · refine Nat.le_trans ?_ Nat.right_le_or
      rw [Nat.add_zero, Nat.pow_add, hmask]
      refine Nat.mul_le_mul_right _ ?_
      rw [Nat.pow_succ]
      omega
    · exact Nat.le_trans (hb ▸ LogLinear.bucket_le (by omega)) Nat.left_le_or
  have hne : value ||| h.subBucketMask ≠ 0 := Nat.ne_of_gt (Nat.lt_of_lt_of_le (Nat.two_pow_pos _) hge)
  have hlog1 := (Nat.le_log2 hne).mpr hge
  have hlog2 := (Nat.log2_lt hne).mpr hlt
  unfold getBucketIndex
  omega

theorem Valid.countsIndexFor_eq (hv : h.Valid) (value : Nat) : h.countsIndexFor value = h.classOf value := by
  rw [countsIndexFor, hv.getBucketIndex_eq, countsIndex, getSubBucketIndex, hv.half, Nat.shiftLeft_eq, Nat.shiftRight_eq_div_pow,
    Nat.succ_mul, classOf, LogLinear.index, Nat.add_right_comm, Nat.add_sub_cancel]

theorem Valid.valueAtIndex_eq (hv : h.Valid) (index : Nat) :
    h.valueAtIndex index = LogLinear.low h.subBucketHalfCountMagnitude h.unitMagnitude index := by
  have hpow := Nat.two_pow_pos h.subBucketHalfCountMagnitude
  have hmod : index &&& (2 ^ h.subBucketHalfCountMagnitude - 1) = index % 2 ^ h.subBucketHalfCountMagnitude :=
    Nat.and_two_pow_sub_one_eq_mod _ _
  have hsplit := Nat.div_add_mod index (2 ^ h.subBucketHalfCountMagnitude)
  unfold valueAtIndex
  simp only [hv.half, hmod, Nat.shiftRight_eq_div_pow, valueFromIndex, Nat.shiftLeft_eq, Nat.add_sub_cancel]
  rw [LogLinear.low, LogLinear.width, LogLinear.bucketOf]
  generalize index / 2 ^ h.subBucketHalfCountMagnitude = d at hsplit ⊢
  split
  · next hneg =>
    obtain rfl : d = 0 := by omega
    rw [Nat.mul_zero, Nat.zero_add] at hsplit
    rw [hsplit, Nat.zero_sub, Nat.zero_mul, Nat.sub_zero]
  · next hpos =>
    obtain ⟨k, rfl⟩ : ∃ k, d = k + 1 := Nat.exists_eq_succ_of_ne_zero (by omega)
    have hplace : index - k * 2 ^ h.subBucketHalfCountMagnitude =
        index % 2 ^ h.subBucketHalfCountMagnitude + 2 ^ h.subBucketHalfCountMagnitude := by
      rw [Nat.mul_comm, Nat.succ_mul] at hsplit
      omega
    rw [Nat.add_sub_cancel, hplace, show (((k + 1 : Nat) : Int) - 1).toNat = k by omega]

theorem Valid.lowestEquivalentValue_eq (hv : h.Valid) (value : Nat) :
    h.lowestEquivalentValue value = LogLinear.low h.subBucketHalfCountMagnitude h.unitMagnitude (h.classOf value) := by
  rw [lowestEquivalentValue, hv.getBucketIndex_eq, classOf, LogLinear.low_index, getSubBucketIndex, valueFromIndex, Nat.shiftLeft_eq,
    Nat.shiftRight_eq_div_pow]

theorem Valid.sizeOfEquivalentValueRange_eq (hv : h.Valid) (value : Nat) :
    h.sizeOfEquivalentValueRange value = LogLinear.width h.subBucketHalfCountMagnitude h.unitMagnitude (h.classOf value) := by
  have hsub := LogLinear.sub_lt (m := h.subBucketHalfCountMagnitude) (u := h.unitMagnitude) value
  rw [sizeOfEquivalentValueRange, hv.getBucketIndex_eq, getSubBucketIndex, Nat.shiftRight_eq_div_pow, hv.count,
    if_neg (Nat.not_le.mpr hsub), LogLinear.width, classOf, LogLinear.bucketOf_index, Nat.shiftLeft_eq, Nat.one_mul, Nat.add_comm]

/-- A value and the largest one of its class. -/
theorem Valid.highestEquivalentValue_eq (hv : h.Valid) (value : Nat) :
    h.highestEquivalentValue value = LogLinear.high h.subBucketHalfCountMagnitude h.unitMagnitude (h.classOf value) := by
  rw [highestEquivalentValue, nextNonEquivalentValue, hv.lowestEquivalentValue_eq, hv.sizeOfEquivalentValueRange_eq, LogLinear.high]

theorem Valid.classOf_valueAtIndex (hv : h.Valid) (index : Nat) : h.classOf (h.valueAtIndex index) = index := by
  rw [hv.valueAtIndex_eq, classOf, LogLinear.index_low]

theorem Valid.highestEquivalentValue_valueAtIndex (hv : h.Valid) (index : Nat) :
    h.highestEquivalentValue (h.valueAtIndex index) = LogLinear.high h.subBucketHalfCountMagnitude h.unitMagnitude index := by
  rw [hv.highestEquivalentValue_eq, hv.classOf_valueAtIndex]

/-- The values that the counts can hold. -/
theorem Valid.classOf_lt (hv : h.Valid) (value : Nat) :
    h.classOf value < h.countsLen ↔ value < 2 ^ (h.subBucketHalfCountMagnitude + h.unitMagnitude + h.bucketCount) := by
  rw [hv.len]
  constructor
  · intro hlt
    by_contra hge
    have hmono := LogLinear.index_mono (m := h.subBucketHalfCountMagnitude) (u := h.unitMagnitude) (Nat.le_of_not_lt hge)
    have hfirst : LogLinear.index h.subBucketHalfCountMagnitude h.unitMagnitude
        (2 ^ (h.subBucketHalfCountMagnitude + h.unitMagnitude + h.bucketCount)) =
          h.bucketCount * 2 ^ h.subBucketHalfCountMagnitude + 2 ^ h.subBucketHalfCountMagnitude := by
      refine LogLinear.index_of_place ?_ (fun _ => le_rfl) ?_ ?_
      · rw [Nat.pow_succ]
        have := Nat.two_pow_pos h.subBucketHalfCountMagnitude
        omega
      · rw [← Nat.pow_add]
        exact Nat.pow_le_pow_right (by decide) (by omega)
      · rw [Nat.succ_mul, ← Nat.pow_add, show h.subBucketHalfCountMagnitude + (h.bucketCount + h.unitMagnitude) =
          h.subBucketHalfCountMagnitude + h.unitMagnitude + h.bucketCount by omega]
        exact Nat.lt_add_of_pos_right (Nat.two_pow_pos _)
    rw [hfirst] at hmono
    rw [Nat.succ_mul] at hlt
    exact absurd hlt (Nat.not_lt.mpr hmono)
  · intro hlt
    exact LogLinear.index_lt hlt hv.buckets

end HdrBucketConfig

end AerospikeBenchmark
