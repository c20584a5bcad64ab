import AerospikeBenchmark.Latency.Hdr
import AerospikeBenchmark.Lib.FpArith

/-!
# Reading HDR histograms

What `hdr_histogram.c` computes from the counts: the values that an index stands for, the smallest and the largest value, the value
at a percentile, and the counters that are set again after the counts have been read from a file.
-/

namespace AerospikeBenchmark

open CText

/-! ## Values and indices -/

/-- `value_from_index`. -/
def valueFromIndex (bucketIndex subBucketIndex unitMagnitude : Nat) : Nat := subBucketIndex <<< (bucketIndex + unitMagnitude)

namespace HdrBucketConfig

variable (h : HdrBucketConfig)

/-- `hdr_value_at_index`. -/
def valueAtIndex (index : Nat) : Nat :=
  let bucketIndex : Int := (index >>> h.subBucketHalfCountMagnitude : Nat) - 1
  let subBucketIndex := (index &&& (h.subBucketHalfCount - 1)) + h.subBucketHalfCount
  if bucketIndex < 0 then valueFromIndex 0 (subBucketIndex - h.subBucketHalfCount) h.unitMagnitude
  else valueFromIndex bucketIndex.toNat subBucketIndex h.unitMagnitude

/-- `hdr_size_of_equivalent_value_range`. -/
def sizeOfEquivalentValueRange (value : Nat) : Nat :=
  let bucketIndex := h.getBucketIndex value
  let subBucketIndex := getSubBucketIndex value bucketIndex h.unitMagnitude
  let adjustedBucket := if h.subBucketCount ≤ subBucketIndex then bucketIndex + 1 else bucketIndex
  1 <<< (h.unitMagnitude + adjustedBucket)

/-- `lowest_equivalent_value`. -/
def lowestEquivalentValue (value : Nat) : Nat :=
  let bucketIndex := h.getBucketIndex value
  valueFromIndex bucketIndex (getSubBucketIndex value bucketIndex h.unitMagnitude) h.unitMagnitude

/-- `hdr_next_non_equivalent_value`. -/
def nextNonEquivalentValue (value : Nat) : Nat := h.lowestEquivalentValue value + h.sizeOfEquivalentValueRange value

/-- `highest_equivalent_value`. -/
def highestEquivalentValue (value : Nat) : Nat := h.nextNonEquivalentValue value - 1

end HdrBucketConfig

/-! ## Counters -/

/-- What the loop of `hdr_reset_internal_counters` has found. -/
structure ObservedCounts where
  minNonZeroIndex : Option Nat
  maxIndex : Option Nat
  totalCount : Nat

/-- The loop of `hdr_reset_internal_counters` from index `i` on. -/
def observeCounts : (counts : List Nat) → (i : Nat) → ObservedCounts → ObservedCounts
  | [], _, o => o
  | count :: counts, i, o =>
    observeCounts counts (i + 1)
      (if 0 < count then
        { minNonZeroIndex := if o.minNonZeroIndex = none ∧ i ≠ 0 then some i else o.minNonZeroIndex
          maxIndex := some i
          totalCount := o.totalCount + count }
      else o)

/-- `hdr_reset_internal_counters`. -/
def hdrResetInternalCounters (h : HdrHistogram) : HdrHistogram :=
  let o := observeCounts h.counts 0 ⟨none, none, 0⟩
  { h with
    maxValue := match o.maxIndex with
      | none => 0
      | some i => h.highestEquivalentValue (h.valueAtIndex i)
    minValue := match o.minNonZeroIndex with
      | none => 2 ^ 63 - 1
      | some i => h.valueAtIndex i
    totalCount := o.totalCount }

/-! ## Queries -/

/-- `hdr_max`. -/
def hdrMax (h : HdrHistogram) : Nat := if h.maxValue = 0 then 0 else h.highestEquivalentValue h.maxValue

/-- `non_zero_min`. -/
def nonZeroMin (h : HdrHistogram) : Nat := if h.minValue = 2 ^ 63 - 1 then 2 ^ 63 - 1 else h.lowestEquivalentValue h.minValue

/-- `hdr_min`. -/
def hdrMin (h : HdrHistogram) : Nat := if 0 < h.counts.getD 0 0 then 0 else nonZeroMin h

/-- The number of values that `hdr_value_at_percentile` looks for, computed in `double`. -/
def countAtPercentile (totalCount : Nat) (percentile : FpNum) : Option Nat :=
  let requested := if percentile.lt (.num 100) then percentile else .num 100
  let count := (binary64.add (binary64.mul (binary64.unscale 100 requested) (binary64.ofRat totalCount)) (.num (1 / 2))).toSigned 64
  count.map fun count => (max count 1).toNat

/-- The loop of `hdr_value_at_percentile` over all indices, from `index` on. -/
def valueAtPercentileLoop (h : HdrBucketConfig) (count : Nat) : (counts : List Nat) → (index total : Nat) → Nat
  | [], _, _ => 0
  | c :: counts, index, total =>
    if count ≤ total + c then h.highestEquivalentValue (h.valueAtIndex index)
    else valueAtPercentileLoop h count counts (index + 1) (total + c)

/-- `hdr_value_at_percentile`; none when the conversion of the number of values is undefined. -/
def hdrValueAtPercentile (h : HdrHistogram) (percentile : FpNum) : Option Nat :=
  (countAtPercentile h.totalCount percentile).map fun count => valueAtPercentileLoop h.toHdrBucketConfig count h.counts 0 0

end AerospikeBenchmark
