import AerospikeBenchmark.Latency.Buckets
import AerospikeBenchmark.Lib.Tiling

/-!
# The layout of the buckets

What `histogram_init` leaves: how many buckets the ranges have, that the buckets tile the range of the histogram, and that with fewer
than `2 ^ 31` buckets every delay finds its counter.
-/

namespace AerospikeBenchmark

open CText Tiling

/-- The exact number of buckets of a list of ranges. -/
def totalBuckets : Nat → List RangeSpec → Nat
  | _, [] => 0
  | rangeStart, r :: ranges => (r.upperBound - rangeStart) / r.bucketWidth + totalBuckets r.upperBound ranges

/-- What one round of the loop leaves. -/
theorem histogramInitLoop_cons {start total : Nat} {r : RangeSpec} {ranges : List RangeSpec} {bounds : List BucketRangeDesc}
    {rangeEnd final : Nat} (h : histogramInitLoop start total (r :: ranges) = some (bounds, rangeEnd, final)) :
    start < r.upperBound ∧ 0 < r.bucketWidth ∧ r.bucketWidth ∣ r.upperBound - start ∧
      ∃ rest, bounds = ⟨start, r.bucketWidth, total, (r.upperBound - start) / r.bucketWidth % 2 ^ 32⟩ :: rest ∧
        histogramInitLoop r.upperBound ((total + (r.upperBound - start) / r.bucketWidth % 2 ^ 32) % 2 ^ 32) ranges =
          some (rest, rangeEnd, final) := by
  simp only [histogramInitLoop, Option.ite_none_left_eq_some, Option.map_eq_some_iff, Prod.mk.injEq, Prod.exists] at h
  obtain ⟨hvalid, rest, e, t, hrest, rfl, rfl, rfl⟩ := h
  push Not at hvalid
  obtain ⟨hlt, hwidth, hdvd⟩ := hvalid
  exact ⟨hlt, Nat.pos_of_ne_zero hwidth, Nat.dvd_of_mod_eq_zero hdvd, rest, rfl, hrest⟩

/-- The number of all buckets is that of the ranges together, kept in 32 bits. -/
theorem histogramInitLoop_total {ranges : List RangeSpec} {start total : Nat} {bounds : List BucketRangeDesc} {rangeEnd final : Nat}
    (h : histogramInitLoop start total ranges = some (bounds, rangeEnd, final)) (htotal : total < 2 ^ 32) :
    final = (total + (bounds.map BucketRangeDesc.nBuckets).sum) % 2 ^ 32 := by
  induction ranges generalizing start total bounds with
  | nil =>
    simp only [histogramInitLoop, Option.some.injEq, Prod.mk.injEq] at h
    obtain ⟨rfl, -, rfl⟩ := h
    exact (Nat.mod_eq_of_lt htotal).symm
  | cons r ranges ih =>
    obtain ⟨-, -, -, rest, rfl, hrest⟩ := histogramInitLoop_cons h
    rw [ih hrest (Nat.mod_lt _ (by decide)), List.map_cons, List.sum_cons, Nat.mod_add_mod, Nat.add_assoc]

/-- The ranges start where they are said to start and end, and each begins where another ends. -/
theorem histogramInitLoop_bounds {ranges : List RangeSpec} {start total : Nat} {bounds : List BucketRangeDesc} {rangeEnd final : Nat}
    (h : histogramInitLoop start total ranges = some (bounds, rangeEnd, final)) :
    start ≤ rangeEnd ∧ ∀ r ∈ bounds, start ≤ r.lowerBound := by
  induction ranges generalizing start total bounds with
  | nil =>
    simp only [histogramInitLoop, Option.some.injEq, Prod.mk.injEq] at h
    obtain ⟨rfl, rfl, -⟩ := h
    exact ⟨Nat.le_refl _, by simp⟩
  | cons r ranges ih =>
    obtain ⟨hlt, -, -, rest, rfl, hrest⟩ := histogramInitLoop_cons h
    obtain ⟨hend, hlower⟩ := ih hrest
    refine ⟨by omega, ?_⟩
    intro q hq
    rcases List.mem_cons.mp hq with rfl | hq
    · exact Nat.le_refl _
    · have := hlower q hq
      omega

theorem add_mod_eq_of_fits {total n : Nat} (h : total + n < 2 ^ 32) : (total + n % 2 ^ 32) % 2 ^ 32 = total + n := by
  rw [Nat.add_mod_mod, Nat.mod_eq_of_lt h]

/-- A number of buckets that fits is exact. -/
theorem histogramInitLoop_exact {ranges : List RangeSpec} {start total : Nat} {bounds : List BucketRangeDesc} {rangeEnd final : Nat}
    (h : histogramInitLoop start total ranges = some (bounds, rangeEnd, final)) (hfit : total + totalBuckets start ranges < 2 ^ 32) :
    final = total + totalBuckets start ranges := by
  induction ranges generalizing start total bounds with
  | nil =>
    simp only [histogramInitLoop, Option.some.injEq, Prod.mk.injEq] at h
    obtain ⟨-, -, rfl⟩ := h
    rfl
  | cons r ranges ih =>
    obtain ⟨-, -, -, rest, -, hrest⟩ := histogramInitLoop_cons h
    simp only [totalBuckets] at hfit ⊢
    rw [add_mod_eq_of_fits (by omega)] at hrest
    rw [ih hrest (by omega)]
    omega

/-- The buckets of a range, with the lower bound that is printed for each, and its width. -/
def BucketRangeDesc.buckets (r : BucketRangeDesc) : List (Nat × Nat) := blocks r.lowerBound r.bucketWidth r.nBuckets

/-- The buckets of a histogram in the order in which they are printed. -/
def Histogram.buckets (h : Histogram) : List (Nat × Nat) := h.bounds.flatMap BucketRangeDesc.buckets

theorem length_buckets (bounds : List BucketRangeDesc) :
    (bounds.flatMap BucketRangeDesc.buckets).length = (bounds.map BucketRangeDesc.nBuckets).sum := by
  simp only [List.length_flatMap, BucketRangeDesc.buckets, length_blocks]

/-- When the buckets fit, those of the ranges fill the histogram's range. -/
theorem histogramInitLoop_tiles {ranges : List RangeSpec} {start total : Nat} {bounds : List BucketRangeDesc} {rangeEnd final : Nat}
    (h : histogramInitLoop start total ranges = some (bounds, rangeEnd, final)) (hfit : total + totalBuckets start ranges < 2 ^ 32) :
    Tiles start (bounds.flatMap BucketRangeDesc.buckets) rangeEnd := by
  induction ranges generalizing start total bounds with
  | nil =>
    simp only [histogramInitLoop, Option.some.injEq, Prod.mk.injEq] at h
    obtain ⟨rfl, rfl, -⟩ := h
    exact rfl
  | cons r ranges ih =>
    obtain ⟨hlt, hwidth, hdvd, rest, rfl, hrest⟩ := histogramInitLoop_cons h
    simp only [totalBuckets] at hfit
    rw [add_mod_eq_of_fits (by omega)] at hrest
    have hfirst := tiles_blocks start hwidth ((r.upperBound - start) / r.bucketWidth)
    rw [Nat.div_mul_cancel hdvd, Nat.add_sub_cancel' hlt.le] at hfirst
    rw [List.flatMap_cons, BucketRangeDesc.buckets, Nat.mod_eq_of_lt (by omega)]
    exact hfirst.append (ih hrest (by omega))

/-- When the buckets fit, the search finds for a delay inside the ranges the bucket that it lies in. -/
theorem histogramInitLoop_find {ranges : List RangeSpec} {start total : Nat} {bounds : List BucketRangeDesc} {rangeEnd final : Nat}
    (h : histogramInitLoop start total ranges = some (bounds, rangeEnd, final)) (hfit : total + totalBuckets start ranges < 2 ^ 32)
    {elapsedUs : Nat} (hlow : start ≤ elapsedUs) (hhigh : elapsedUs < rangeEnd) :
    ∃ r i seg, (bounds.reverse.find? fun r => r.lowerBound ≤ elapsedUs) = some r ∧
      r.offset + (elapsedUs - r.lowerBound) / r.bucketWidth = total + i ∧
      (bounds.flatMap BucketRangeDesc.buckets)[i]? = some seg ∧ Within seg elapsedUs := by
  induction ranges generalizing start total bounds with
  | nil =>
    simp only [histogramInitLoop, Option.some.injEq, Prod.mk.injEq] at h
    obtain ⟨-, rfl, -⟩ := h
    omega
  | cons r ranges ih =>
    obtain ⟨hlt, hwidth, hdvd, rest, rfl, hrest⟩ := histogramInitLoop_cons h
    simp only [totalBuckets] at hfit
    rw [add_mod_eq_of_fits (by omega)] at hrest
    have hsize : (r.upperBound - start) / r.bucketWidth % 2 ^ 32 = (r.upperBound - start) / r.bucketWidth := Nat.mod_eq_of_lt (by omega)
    rw [hsize, List.reverse_cons, List.find?_append, List.flatMap_cons]
    by_cases hin : elapsedUs < r.upperBound
    · -- no later range starts at or below the delay
      have hnone : (rest.reverse.find? fun q => decide (q.lowerBound ≤ elapsedUs)) = none := by
        rw [List.find?_eq_none]
        intro q hq
        have hle := (histogramInitLoop_bounds hrest).2 q (List.mem_reverse.mp hq)
        simp only [decide_eq_true_eq]
        omega
      have hbucket : (elapsedUs - start) / r.bucketWidth < (r.upperBound - start) / r.bucketWidth :=
        Nat.div_lt_div_of_lt_of_dvd hdvd (by omega)
      refine ⟨_, _, _, by rw [hnone, Option.none_or, List.find?_cons_of_pos (by simpa using hlow)], rfl, ?_,
        within_block hwidth hlow⟩
      rw [BucketRangeDesc.buckets, List.getElem?_append_left (by simpa using hbucket)]
      exact getElem?_blocks _ _ hbucket
    · obtain ⟨q, i, seg, hq, hidx, hget, hwithin⟩ := ih hrest (by omega) (by omega)
      refine ⟨q, (r.upperBound - start) / r.bucketWidth + i, seg, by rw [hq, Option.some_or], by omega, ?_, hwithin⟩
      rw [List.getElem?_append_right (by simp [BucketRangeDesc.buckets])]
      simpa [BucketRangeDesc.buckets] using hget

/-- A histogram laid out by `histogram_init`. -/
theorem histogramInit_eq {lowb : Nat} {ranges : List RangeSpec} {h : Histogram} (hinit : histogramInit lowb ranges = some h) :
    histogramInitLoop lowb 0 ranges = some (h.bounds, h.rangeMax, h.nBuckets) ∧ h.rangeMin = lowb ∧ h.counts = fun _ => 0 := by
  simp only [histogramInit, Option.map_eq_some_iff, Prod.exists] at hinit
  obtain ⟨bounds, rangeEnd, total, hloop, rfl⟩ := hinit
  exact ⟨hloop, rfl, rfl⟩

/-- The buckets of the ranges are not more than their exact number. -/
theorem sum_nBuckets_le {ranges : List RangeSpec} {start total : Nat} {bounds : List BucketRangeDesc} {rangeEnd final : Nat}
    (h : histogramInitLoop start total ranges = some (bounds, rangeEnd, final)) :
    (bounds.map BucketRangeDesc.nBuckets).sum ≤ totalBuckets start ranges := by
  induction ranges generalizing start total bounds with
  | nil =>
    simp only [histogramInitLoop, Option.some.injEq, Prod.mk.injEq] at h
    obtain ⟨rfl, -, -⟩ := h
    exact Nat.le_refl 0
  | cons r ranges ih =>
    obtain ⟨-, -, -, rest, rfl, hrest⟩ := histogramInitLoop_cons h
    rw [List.map_cons, List.sum_cons, totalBuckets]
    exact Nat.add_le_add (Nat.mod_le _ _) (ih hrest)

section

variable {lowb : Nat} {ranges : List RangeSpec} {h : Histogram} (hinit : histogramInit lowb ranges = some h)
  (hsmall : totalBuckets lowb ranges < 2 ^ 31)

include hinit hsmall

/-- When the buckets fit, there is a counter for each bucket of the ranges. -/
theorem nBuckets_eq_sum : h.nBuckets = (h.bounds.map BucketRangeDesc.nBuckets).sum := by
  obtain ⟨hloop, -, -⟩ := histogramInit_eq hinit
  have hle := sum_nBuckets_le hloop
  rw [histogramInitLoop_total hloop (by decide), Nat.zero_add, Nat.mod_eq_of_lt (by omega)]

theorem length_histogramBuckets : h.buckets.length = h.nBuckets := by
  rw [Histogram.buckets, length_buckets, nBuckets_eq_sum hinit hsmall]

theorem histogram_tiles : Tiles h.rangeMin h.buckets h.rangeMax := by
  obtain ⟨hloop, rfl, -⟩ := histogramInit_eq hinit
  exact histogramInitLoop_tiles hloop (by omega)

/-- The index of a delay inside the range is that of a bucket that it lies in. -/
theorem histogramGetIndex_within {elapsedUs : Nat} (hlow : h.rangeMin ≤ elapsedUs) (hhigh : elapsedUs < h.rangeMax) :
    ∃ (i : Nat) (seg : Nat × Nat), histogramGetIndex h elapsedUs = some (i : Int) ∧ histogramCell h elapsedUs = some (.bucket i) ∧
      h.buckets[i]? = some seg ∧ Within seg elapsedUs := by
  obtain ⟨hloop, rfl, -⟩ := histogramInit_eq hinit
  obtain ⟨r, i, seg, hfind, hidx, hseg, hwithin⟩ := histogramInitLoop_find hloop (by omega) hlow hhigh
  rw [Nat.zero_add] at hidx
  have hlt : i < h.nBuckets := by
    rw [← length_histogramBuckets hinit hsmall]
    exact (List.getElem?_eq_some_iff.mp hseg).1
  have hfinal := histogramInitLoop_exact hloop (by omega)
  have hint : toInt32 i = i := by
    unfold toInt32
    rw [Nat.mod_eq_of_lt (by omega), if_pos (by omega)]
  have hindex : histogramGetIndex h elapsedUs = some (i : Int) := by
    rw [histogramGetIndex, if_neg (by omega), if_neg (by omega), hfind, Option.map_some, hidx, hint]
  refine ⟨i, seg, hindex, ?_, hseg, hwithin⟩
  rw [histogramCell, hindex, Option.bind_some, histogramGetBucket, if_neg (by omega), if_neg (by omega), if_pos (by omega),
    Int.toNat_natCast]

/-- With fewer than `2 ^ 31` buckets every delay finds its counter. -/
theorem histogramCell_isSome (elapsedUs : Nat) : ∃ c, histogramCell h elapsedUs = some c := by
  by_cases hlow : elapsedUs < h.rangeMin
  · exact ⟨.underflow, by rw [histogramCell, histogramGetIndex, if_pos hlow]; rfl⟩
  by_cases hhigh : h.rangeMax ≤ elapsedUs
  · exact ⟨.overflow, by rw [histogramCell, histogramGetIndex, if_neg hlow, if_pos hhigh]; rfl⟩
  obtain ⟨i, -, -, hcell, -⟩ := histogramGetIndex_within hinit hsmall (Nat.not_lt.mp hlow) (Nat.not_le.mp hhigh)
  exact ⟨_, hcell⟩

end

end AerospikeBenchmark
