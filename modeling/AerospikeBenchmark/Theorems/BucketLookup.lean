import AerospikeBenchmark.Latency.Sinks
import AerospikeBenchmark.Theorems.PrintClear

/-!
# Lookup and print of the buckets

`_histogram_get_index` inverts the layout that `histogram_init` makes and the prints show, and the two prints agree on a histogram
that nobody counts into.
-/

namespace AerospikeBenchmark

open CText Runs Tiling

/-! ## What is printed for the buckets -/

/-- The pairs printed for some buckets, with counts one for each. -/
def printedPairs (buckets : List (Nat × Nat)) (cnts : List UInt32) : List (Nat × UInt32) :=
  (buckets.zip cnts).flatMap fun e => printCount e.1.1 e.2

theorem printedPairs_append {bs bs' : List (Nat × Nat)} {cs cs' : List UInt32} (h : bs.length = cs.length) :
    printedPairs (bs ++ bs') (cs ++ cs') = printedPairs bs cs ++ printedPairs bs' cs' := by
  rw [printedPairs, List.zip_append h, List.flatMap_append]
  rfl

/-- The inner loop from bucket `j` of its range on. -/
theorem printRange_eq (r : BucketRangeDesc) (cnts : List UInt32) {n : Nat} (j idx : Nat) (h : idx + n ≤ cnts.length) :
    printRange r cnts n j idx =
      some (printedPairs (blocks (r.lowerBound + j * r.bucketWidth) r.bucketWidth n) ((cnts.drop idx).take n)) := by
  induction n generalizing j idx with
  | zero => rfl
  | succ n ih =>
    have hlt : idx < cnts.length := by omega
    have hblocks : blocks (r.lowerBound + j * r.bucketWidth) r.bucketWidth (n + 1) =
        (r.lowerBound + j * r.bucketWidth, r.bucketWidth) :: blocks (r.lowerBound + (j + 1) * r.bucketWidth) r.bucketWidth n := by
      simp only [blocks, List.range_succ_eq_map, List.map_cons, List.map_map, Nat.zero_mul, Nat.add_zero]
      congr 1
      refine List.map_congr_left fun i _ => ?_
      simp only [Function.comp_apply, Nat.succ_mul]
      congr 1
      omega
    rw [printRange, List.getElem?_eq_getElem hlt, ih (j + 1) (idx + 1) (by omega), hblocks, List.drop_eq_getElem_cons hlt,
      List.take_succ_cons]
    rfl

theorem printRanges_eq {cnts : List UInt32} {bounds : List BucketRangeDesc} (idx : Nat)
    (h : idx + (bounds.map BucketRangeDesc.nBuckets).sum ≤ cnts.length) :
    printRanges cnts bounds idx = some (printedPairs (bounds.flatMap BucketRangeDesc.buckets)
      ((cnts.drop idx).take (bounds.map BucketRangeDesc.nBuckets).sum)) := by
  induction bounds generalizing idx with
  | nil => rfl
  | cons r bounds ih =>
    rw [List.map_cons, List.sum_cons] at h ⊢
    have hfirst := printRange_eq r cnts (n := r.nBuckets) 0 idx (by omega)
    rw [Nat.zero_mul, Nat.add_zero] at hfirst
    have hlen : r.buckets.length = ((cnts.drop idx).take r.nBuckets).length := by
      rw [BucketRangeDesc.buckets, length_blocks, List.length_take, List.length_drop]
      omega
    rw [printRanges, hfirst, ih (idx + r.nBuckets) (by omega), List.take_add, List.drop_drop, List.flatMap_cons,
      printedPairs_append hlen]
    rfl

/-- The pairs that `histogram_print` prints, when there is a counter for each bucket of the ranges. -/
theorem histogramPrint_entries {h : Histogram} (hbuckets : h.nBuckets = (h.bounds.map BucketRangeDesc.nBuckets).sum) (period : Nat) :
    (histogramPrint h period).map HistogramLine.entries =
      some (printCount 0 (h.counts .underflow) ++ printedPairs h.buckets h.bucketCounts ++
        printCount h.rangeMax (h.counts .overflow)) := by
  have hlen : h.bucketCounts.length = (h.bounds.map BucketRangeDesc.nBuckets).sum := by
    rw [Histogram.bucketCounts, List.length_map, List.length_range, hbuckets]
  rw [histogramPrint, printLine, printRanges_eq 0 (by omega), List.drop_zero, List.take_of_length_le hlen.le]
  rfl

/-! ## The bucket of a delay -/

/-- The printed pairs give a lower bound for every bucket; the buckets from these bounds on, with the width of their range, fill the
range of the histogram in order. A delay below the range counts as underflow, one at or beyond its end as overflow, and for any other
the search returns the index of the one bucket that it lies in. -/
theorem bucket_lookup_inverts_layout (lowb : Nat) (ranges : List RangeSpec) (h : Histogram) (hinit : histogramInit lowb ranges = some h)
    (hsmall : totalBuckets lowb ranges < 2 ^ 31) :
    (∀ counts period, (histogramPrint { h with counts := counts } period).map HistogramLine.entries =
      some (printCount 0 (counts .underflow) ++
        printedPairs h.buckets ((List.range h.nBuckets).map fun i => counts (.bucket i)) ++
        printCount h.rangeMax (counts .overflow))) ∧
    h.buckets.length = h.nBuckets ∧
    Tiles h.rangeMin h.buckets h.rangeMax ∧
    (h.buckets.map Prod.fst).Pairwise (· < ·) ∧
    (∀ d < h.rangeMin, histogramCell h d = some .underflow) ∧
    (∀ d, h.rangeMax ≤ d → histogramCell h d = some .overflow) ∧
    ∀ d, h.rangeMin ≤ d → d < h.rangeMax → ∃ i < h.nBuckets, histogramGetIndex h d = some (i : Int) ∧
      histogramCell h d = some (.bucket i) ∧ ∀ j seg, h.buckets[j]? = some seg → (Within seg d ↔ j = i) := by
  have htiles := histogram_tiles hinit hsmall
  have hlen := length_histogramBuckets hinit hsmall
  refine ⟨?_, hlen, htiles, htiles.starts_increasing, ?_, ?_, ?_⟩
  · intro counts period
    have hbuckets := nBuckets_eq_sum hinit hsmall
    exact histogramPrint_entries (h := { h with counts := counts }) hbuckets period
  · intro d hd
    rw [histogramCell, histogramGetIndex, if_pos hd]
    rfl
  · intro d hd
    obtain ⟨hloop, rfl, -⟩ := histogramInit_eq hinit
    have hle := (histogramInitLoop_bounds hloop).1
    rw [histogramCell, histogramGetIndex, if_neg (by omega), if_pos hd]
    rfl
  · intro d hlow hhigh
    obtain ⟨i, seg, hindex, hcell, hseg, hwithin⟩ := histogramGetIndex_within hinit hsmall hlow hhigh
    refine ⟨i, hlen ▸ (List.getElem?_eq_some_iff.mp hseg).1, hindex, hcell, fun j seg' hseg' => ⟨?_, ?_⟩⟩
    · intro hwithin'
      exact htiles.within_unique hseg' hseg hwithin' hwithin
    · rintro rfl
      obtain rfl : seg = seg' := Option.some.inj (hseg.symm.trans hseg')
      exact hwithin

/-- In the histograms of `initialize_histograms` a delay of 4500 us is in the first bucket of 1000 us, number 39 of 115. -/
theorem bucket_lookup_latency_ranges :
    ∃ h, histogramInit 100 latencyRanges = some h ∧ h.nBuckets = 115 ∧ h.buckets[39]? = some (4000, 1000) ∧
      histogramCell h 4500 = some (.bucket 39) := by
  refine ⟨_, rfl, rfl, rfl, ?_⟩
  obtain ⟨i, -, -, hcell, hunique⟩ :=
    (bucket_lookup_inverts_layout 100 latencyRanges _ rfl (by decide)).2.2.2.2.2.2 4500 (by decide) (by decide)
  obtain rfl : 39 = i := (hunique 39 (4000, 1000) rfl).mp ⟨by decide, by decide⟩
  exact hcell

/-! ## The totals -/

/-- The sum of all counts of a histogram. -/
def Histogram.exactTotal (h : Histogram) : Nat :=
  (h.counts .underflow).toNat + sumOf h.bucketCounts + (h.counts .overflow).toNat

theorem length_bucketCounts (h : Histogram) : h.bucketCounts.length = h.nBuckets := by
  simp [Histogram.bucketCounts]

theorem length_take_bucketCounts {h : Histogram} {k : Nat} (hk : k ≤ h.nBuckets) : (h.bucketCounts.take k).length = k := by
  rw [List.length_take, length_bucketCounts, Nat.min_eq_left hk]

/-- Adding counts to a total of `n` counts, not more than `2 ^ 32 + 1` in all, does not wrap. -/
theorem toNat_foldl_counts (cnts : List UInt32) {total : UInt64} {n : Nat} (htotal : total.toNat ≤ n * (2 ^ 32 - 1))
    (hn : n + cnts.length ≤ 2 ^ 32 + 1) :
    (cnts.foldl (fun t cnt => t + cnt.toUInt64) total).toNat = total.toNat + sumOf cnts := by
  induction cnts generalizing total n with
  | nil => simp [sumOf]
  | cons cnt cnts ih =>
    rw [List.length_cons] at hn
    have hlt := cnt.toNat_lt
    have hadd := toNat_add_count htotal (by omega) cnt
    have hle : (total + cnt.toUInt64).toNat ≤ (n + 1) * (2 ^ 32 - 1) := by
      rw [hadd]
      omega
    rw [List.foldl_cons, ih hle (by omega), hadd, Nat.add_assoc]
    rfl

/-- The total that `histogram_calc_total` computes loses `2 ^ 32` when its first addition wraps. -/
theorem toNat_histogramCalcTotal {h : Histogram} (hbuckets : h.nBuckets < 2 ^ 32) :
    (histogramCalcTotal h).toNat =
      ((h.counts .underflow).toNat + (h.counts .overflow).toNat) % 2 ^ 32 + sumOf h.bucketCounts := by
  have hfirst : (h.counts .underflow + h.counts .overflow).toUInt64.toNat ≤ 1 * (2 ^ 32 - 1) := by
    have := (h.counts .underflow + h.counts .overflow).toNat_lt
    rw [UInt32.toNat_toUInt64]
    omega
  rw [histogramCalcTotal, toNat_foldl_counts h.bucketCounts hfirst (by rw [length_bucketCounts]; omega), UInt32.toNat_toUInt64, UInt32.toNat_add]

theorem histogramCalcTotal_exact_iff {h : Histogram} (hbuckets : h.nBuckets < 2 ^ 32) :
    (histogramCalcTotal h).toNat = h.exactTotal ↔ (h.counts .underflow).toNat + (h.counts .overflow).toNat < 2 ^ 32 := by
  rw [toNat_histogramCalcTotal hbuckets, Histogram.exactTotal]
  omega

/-- The total that `histogram_print_clear` accumulates. -/
def clearTotal (h : Histogram) : UInt64 :=
  h.bucketCounts.foldl (fun total cnt => total + cnt.toUInt64) (h.counts .underflow).toUInt64 + (h.counts .overflow).toUInt64

theorem toNat_clearTotal {h : Histogram} (hbuckets : h.nBuckets < 2 ^ 32) : (clearTotal h).toNat = h.exactTotal := by
  have hfirst : (h.counts .underflow).toUInt64.toNat ≤ 1 * (2 ^ 32 - 1) := by
    have := (h.counts .underflow).toNat_lt
    rw [UInt32.toNat_toUInt64]
    omega
  have hsum := toNat_foldl_counts h.bucketCounts hfirst (by rw [length_bucketCounts]; omega)
  have hle := sumOf_le h.bucketCounts
  rw [length_bucketCounts] at hle
  have hroom : (h.bucketCounts.foldl (fun t cnt => t + cnt.toUInt64) (h.counts .underflow).toUInt64).toNat ≤
      (h.nBuckets + 1) * (2 ^ 32 - 1) := by
    rw [hsum]
    omega
  rw [clearTotal, toNat_add_count hroom (by omega), hsum, UInt32.toNat_toUInt64, Histogram.exactTotal]

/-! ## A print that clears, alone -/

/-- A print that clears has taken the underflow and the first `k` buckets, and nobody has counted since. -/
structure ClearedTo (h : Histogram) (period k : Nat) (st : ClearState) : Prop where
  layout : LaidOutAs h st.hist
  rest : ∀ i, k ≤ i → st.hist.counts (.bucket i) = h.counts (.bucket i)
  overflow : st.hist.counts .overflow = h.counts .overflow
  pass : st.pass = some ⟨period, h.counts .underflow, h.bucketCounts.take k,
    (h.bucketCounts.take k).foldl (fun t cnt => t + cnt.toUInt64) (h.counts .underflow).toUInt64⟩
  lines : st.lines = []

namespace ClearedTo

variable {h : Histogram} {period k : Nat} {st : ClearState}

theorem begin (h : Histogram) (period : Nat) :
    ∃ st, clearStep (ClearState.init h) (.begin period) = some st ∧ ClearedTo h period 0 st := by
  refine ⟨_, rfl, ⟨_, rfl⟩, fun i _ => ?_, ?_, rfl, rfl⟩
  · simp [ClearState.init, ClearState.swap, Histogram.set]
  · simp [ClearState.init, ClearState.swap, Histogram.set]

/-- The next bucket is exchanged. -/
theorem exchange (hst : ClearedTo h period k st) (hk : k < h.nBuckets) :
    ∃ st', clearStep st .exchange = some st' ∧ ClearedTo h period (k + 1) st' := by
  have hlen := length_take_bucketCounts hk.le
  obtain ⟨counts, hhist⟩ := hst.layout
  have htaken : h.bucketCounts.take (k + 1) = h.bucketCounts.take k ++ [h.counts (.bucket k)] := by
    rw [List.take_add_one, Histogram.bucketCounts, List.getElem?_map, List.getElem?_range hk]
    rfl
  have hmore : k < st.hist.nBuckets := by rw [hhist]; exact hk
  have hcount := hst.rest k (Nat.le_refl k)
  have hstep : clearStep st .exchange = some { st.swap (.bucket k) with
      pass := some ⟨period, h.counts .underflow, h.bucketCounts.take (k + 1),
        (h.bucketCounts.take (k + 1)).foldl (fun t cnt => t + cnt.toUInt64) (h.counts .underflow).toUInt64⟩ } := by
    rw [clearStep, hst.pass]
    dsimp only
    rw [hlen, if_pos hmore, hcount, htaken, List.foldl_append]
    rfl
  refine ⟨_, hstep, hst.layout.set _ 0, fun i hi => ?_, ?_, rfl, hst.lines⟩
  · have hne : Cell.bucket i ≠ .bucket k := by simp; omega
    simp only [ClearState.swap, Histogram.set, Function.update_of_ne hne]
    exact hst.rest i (by omega)
  · simp only [ClearState.swap, Histogram.set, ne_eq, reduceCtorEq, not_false_eq_true, Function.update_of_ne]
    exact hst.overflow

theorem exchanges (hst : ClearedTo h period k st) {m : Nat} (hm : k + m = h.nBuckets) :
    ∃ st', run clearStep st (List.replicate m .exchange) = some st' ∧ ClearedTo h period h.nBuckets st' := by
  induction m generalizing k st with
  | zero =>
    rw [Nat.add_zero] at hm
    exact ⟨st, rfl, hm ▸ hst⟩
  | succ m ih =>
    obtain ⟨st₁, hstep, hst₁⟩ := hst.exchange (by omega)
    obtain ⟨st', hrun, hst'⟩ := ih hst₁ (by omega)
    refine ⟨st', ?_, hst'⟩
    rw [List.replicate_succ, run, hstep]
    exact hrun

/-- The last exchange, and the print. -/
theorem last (hst : ClearedTo h period h.nBuckets st) :
    (clearStep st .exchange).map ClearState.lines =
      (printLine h period (clearTotal h) (h.counts .underflow) (h.counts .overflow) h.bucketCounts).map fun line => [line] := by
  have hlen := length_take_bucketCounts (Nat.le_refl h.nBuckets)
  have hall : h.bucketCounts.take h.nBuckets = h.bucketCounts := List.take_of_length_le (length_bucketCounts h).le
  obtain ⟨counts, hhist⟩ := hst.layout
  have hlast : ¬ h.nBuckets < st.hist.nBuckets := by rw [hhist]; exact Nat.lt_irrefl _
  rw [clearStep, hst.pass]
  dsimp only
  rw [hlen, if_neg hlast, hall, hst.overflow, hst.lines, hhist, Option.map_map]
  rfl

end ClearedTo

/-- The line of a print that clears, while nobody counts. -/
theorem histogramPrintClear_line (h : Histogram) (period : Nat) :
    (histogramPrintClear h period).map Prod.fst =
      printLine h period (clearTotal h) (h.counts .underflow) (h.counts .overflow) h.bucketCounts := by
  obtain ⟨st₀, hbegin, hst₀⟩ := ClearedTo.begin h period
  obtain ⟨st, hrun, hst⟩ := hst₀.exchanges (Nat.zero_add _)
  have hall : run clearStep (ClearState.init h) (.begin period :: List.replicate (h.nBuckets + 1) .exchange) =
      clearStep st .exchange := by
    rw [run, hbegin, Option.bind_some, List.replicate_succ', run_append, hrun]
    simp [run]
  have hlast := hst.last
  rw [histogramPrintClear, hall]
  cases hstep : clearStep st .exchange with
  | none =>
    rw [hstep, Option.map_none] at hlast
    rw [Option.map_eq_none_iff.mp hlast.symm]
    rfl
  | some st' =>
    rw [hstep, Option.map_some] at hlast
    obtain ⟨line, hline, hlines⟩ := Option.map_eq_some_iff.mp hlast.symm
    rw [hline]
    simp [← hlines]

/-- On a histogram that nobody counts into the two prints print the same pairs, and `histogram_print_clear` prints the sum of all
counts; `histogram_calc_total` is that sum, and the totals of the two lines agree, exactly if the underflow and the overflow together
fit in 32 bits. Both prints end when there is a counter for each bucket of the ranges. -/
theorem prints_agree_iff (h : Histogram) (hbuckets : h.nBuckets < 2 ^ 32) (period : Nat) :
    (histogramPrint h period).map HistogramLine.entries = (histogramPrintClear h period).map (fun r => r.1.entries) ∧
    (h.nBuckets = (h.bounds.map BucketRangeDesc.nBuckets).sum → (histogramPrint h period).isSome = true) ∧
    (∀ line h', histogramPrintClear h period = some (line, h') → line.totalCnt.toNat = h.exactTotal) ∧
    ((histogramCalcTotal h).toNat = h.exactTotal ↔ (h.counts .underflow).toNat + (h.counts .overflow).toNat < 2 ^ 32) ∧
    ∀ line line' h', histogramPrint h period = some line → histogramPrintClear h period = some (line', h') →
      (line.totalCnt = line'.totalCnt ↔ (h.counts .underflow).toNat + (h.counts .overflow).toNat < 2 ^ 32) := by
  have hclear := histogramPrintClear_line h period
  have hexact := histogramCalcTotal_exact_iff hbuckets
  have htotal (line : HistogramLine) (h' : Histogram) (hline : histogramPrintClear h period = some (line, h')) :
      line.totalCnt = clearTotal h := by
    rw [hline, Option.map_some] at hclear
    obtain ⟨entries, -, rfl⟩ := Option.map_eq_some_iff.mp hclear.symm
    rfl
  refine ⟨?_, ?_, ?_, hexact, ?_⟩
  · have hmap : (histogramPrintClear h period).map (fun r => r.1.entries) =
        ((histogramPrintClear h period).map Prod.fst).map HistogramLine.entries := by
      rw [Option.map_map]
      rfl
    rw [hmap, hclear, histogramPrint, printLine, printLine, Option.map_map, Option.map_map]
    rfl
  · intro hlayout
    have hentries := histogramPrint_entries hlayout period
    obtain ⟨line, hline, -⟩ := Option.map_eq_some_iff.mp hentries
    rw [hline]
    rfl
  · intro line h' hline
    rw [htotal line h' hline, toNat_clearTotal hbuckets]
  · intro line line' h' hline hline'
    obtain ⟨entries, -, rfl⟩ := Option.map_eq_some_iff.mp hline
    rw [htotal line' h' hline', ← hexact, ← toNat_clearTotal hbuckets]
    exact UInt64.toNat_inj.symm

/-- One sample in the first of two buckets, one below the range and one beyond it. -/
theorem prints_agree_three_samples :
    (histogramPrint { twoBuckets with counts := fun c => if c = .bucket 1 then 0 else 1 } 1).map HistogramLine.entries =
      some [(0, 1), (100, 1), (200, 1)] ∧
    ((histogramPrintClear { twoBuckets with counts := fun c => if c = .bucket 1 then 0 else 1 } 1).map fun r => r.1.entries) =
      some [(0, 1), (100, 1), (200, 1)] := by
  have h := (prints_agree_iff { twoBuckets with counts := fun c => if c = .bucket 1 then 0 else 1 } (by decide) 1).1
  exact ⟨by decide +kernel, h ▸ by decide +kernel⟩

/-- `2 ^ 31` samples below the range and as many beyond it: `histogram_print` prints the total 0, and `histogram_print_clear` prints
`2 ^ 32`. -/
theorem underflow_and_overflow_wrap :
    (histogramPrint { twoBuckets with counts := fun c => if c = .underflow ∨ c = .overflow then 2147483648 else 0 } 1).map
      HistogramLine.totalCnt = some 0 ∧
    ((histogramPrintClear { twoBuckets with counts := fun c => if c = .underflow ∨ c = .overflow then 2147483648 else 0 } 1).map
      fun r => r.1.totalCnt) = some 4294967296 := by
  decide +kernel

end AerospikeBenchmark
