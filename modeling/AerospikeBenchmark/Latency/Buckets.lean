import AerospikeBenchmark.Lib.CText
import AerospikeBenchmark.Lib.Runs
import Mathlib.Logic.Function.Basic

/-!
# Histograms with fixed buckets

`histogram.c`: the layout of the buckets, the bucket of a delay, and the print that clears the buckets while other threads go on
counting. An index that addresses no counter of the histogram gives none, as does a read behind the counts of a print.
-/

namespace AerospikeBenchmark

open CText

/-- `rangespec_t`. -/
structure RangeSpec where
  upperBound : Nat
  bucketWidth : Nat
deriving DecidableEq, Repr

/-- `bucket_range_desc_t`. -/
structure BucketRangeDesc where
  lowerBound : Nat
  bucketWidth : Nat
  offset : Nat
  nBuckets : Nat
deriving DecidableEq, Repr

/-- The counters of a histogram. -/
inductive Cell where
  | underflow
  | overflow
  | bucket (idx : Nat)
deriving DecidableEq, Repr

/-- `histogram_t`: the three kinds of counters are one function. -/
structure Histogram where
  counts : Cell → UInt32
  bounds : List BucketRangeDesc
  name : Option Text
  rangeMin : Nat
  rangeMax : Nat
  nBuckets : Nat

/-- A histogram that was never initialised, in memory cleared to zero. -/
def Histogram.zeroed : Histogram := ⟨fun _ => 0, [], none, 0, 0, 0⟩

/-! ## The layout -/

/-- The loop of `histogram_init`, from a range start and a number of buckets on: the ranges, the end of the last one, and the number
of all buckets, which is kept in 32 bits. -/
def histogramInitLoop : Nat → Nat → List RangeSpec → Option (List BucketRangeDesc × Nat × Nat)
  | rangeStart, totalBuckets, [] => some ([], rangeStart, totalBuckets)
  | rangeStart, totalBuckets, r :: ranges =>
    if r.upperBound ≤ rangeStart ∨ r.bucketWidth = 0 ∨ (r.upperBound - rangeStart) % r.bucketWidth ≠ 0 then none
    else
      let nBuckets := (r.upperBound - rangeStart) / r.bucketWidth % 2 ^ 32
      (histogramInitLoop r.upperBound ((totalBuckets + nBuckets) % 2 ^ 32) ranges).map fun (bounds, rangeEnd, total) =>
        (⟨rangeStart, r.bucketWidth, totalBuckets, nBuckets⟩ :: bounds, rangeEnd, total)

/-- `histogram_init`; none stands for a failure. -/
def histogramInit (lowb : Nat) (ranges : List RangeSpec) : Option Histogram :=
  (histogramInitLoop lowb 0 ranges).map fun (bounds, rangeEnd, total) => ⟨fun _ => 0, bounds, none, lowb, rangeEnd, total⟩

/-- A number of 32 bits read as a signed one. -/
def toInt32 (n : Nat) : Int := if n % 2 ^ 32 < 2 ^ 31 then (n % 2 ^ 32 : Nat) else (n % 2 ^ 32 : Nat) - 2 ^ 32

/-- `_histogram_get_index`: -2 is below the range and -1 beyond it. The search for the range of a delay goes from the last range
down. -/
def histogramGetIndex (h : Histogram) (elapsedUs : Nat) : Option Int :=
  if elapsedUs < h.rangeMin then some (-2)
  else if h.rangeMax ≤ elapsedUs then some (-1)
  else
    (h.bounds.reverse.find? fun r => r.lowerBound ≤ elapsedUs).map fun r =>
      toInt32 (r.offset + (elapsedUs - r.lowerBound) / r.bucketWidth)

/-- `__histogram_get_bucket`: the two negative indices are the counters next to each other in the struct. -/
def histogramGetBucket (h : Histogram) (idx : Int) : Option Cell :=
  if idx = -2 then some .underflow
  else if idx = -1 then some .overflow
  else if 0 ≤ idx ∧ idx.toNat < h.nBuckets then some (.bucket idx.toNat)
  else none

/-- The counter that `histogram_incr` increments for a delay. -/
def histogramCell (h : Histogram) (elapsedUs : Nat) : Option Cell := (histogramGetIndex h elapsedUs).bind (histogramGetBucket h)

/-- A counter set to a value. -/
def Histogram.set (h : Histogram) (c : Cell) (n : UInt32) : Histogram := { h with counts := Function.update h.counts c n }

/-- `histogram_incr`. -/
def histogramIncr (h : Histogram) (elapsedUs : Nat) : Option Histogram :=
  (histogramCell h elapsedUs).map fun c => h.set c (h.counts c + 1)

/-! ## Printing -/

/-- A printed line: the header with the name, the duration of the period and the total, and the pairs of bound and count. The time
of day is left out. -/
structure HistogramLine where
  name : Option Text
  periodDurationUs : Nat
  totalCnt : UInt64
  entries : List (Nat × UInt32)
deriving DecidableEq, Repr

/-- A pair, printed only if its count is not zero. -/
def printCount (bound : Nat) (cnt : UInt32) : List (Nat × UInt32) := if 0 < cnt then [(bound, cnt)] else []

/-- The inner loop of the print: the buckets of a range from its bucket `j` on, whose counts start at `idx`. -/
def printRange (r : BucketRangeDesc) (cnts : List UInt32) : Nat → Nat → Nat → Option (List (Nat × UInt32))
  | 0, _, _ => some []
  | n + 1, j, idx => do
    let cnt ← cnts[idx]?
    let rest ← printRange r cnts n (j + 1) (idx + 1)
    return printCount (r.lowerBound + j * r.bucketWidth) cnt ++ rest

/-- The loops of the print over all ranges. -/
def printRanges (cnts : List UInt32) : List BucketRangeDesc → Nat → Option (List (Nat × UInt32))
  | [], _ => some []
  | r :: bounds, idx => do
    let first ← printRange r cnts r.nBuckets 0 idx
    let rest ← printRanges cnts bounds (idx + r.nBuckets)
    return first ++ rest

/-- The line that `histogram_print_clear` prints, from the counts it has taken. -/
def printLine (h : Histogram) (periodDurationUs : Nat) (totalCnt : UInt64) (underflowCnt overflowCnt : UInt32)
    (cnts : List UInt32) : Option HistogramLine :=
  (printRanges cnts h.bounds 0).map fun entries =>
    ⟨h.name, periodDurationUs, totalCnt, printCount 0 underflowCnt ++ entries ++ printCount h.rangeMax overflowCnt⟩

/-- The array of the counts of the buckets. -/
def Histogram.bucketCounts (h : Histogram) : List UInt32 := (List.range h.nBuckets).map fun i => h.counts (.bucket i)

/-- `histogram_calc_total`: the first addition is one of 32-bit numbers. -/
def histogramCalcTotal (h : Histogram) : UInt64 :=
  h.bucketCounts.foldl (fun total cnt => total + cnt.toUInt64) (h.counts .underflow + h.counts .overflow).toUInt64

/-- `histogram_print`: its loops are those of the print that clears, on the counts in their places. -/
def histogramPrint (h : Histogram) (periodDurationUs : Nat) : Option HistogramLine :=
  printLine h periodDurationUs (histogramCalcTotal h) (h.counts .underflow) (h.counts .overflow) h.bucketCounts

/-! ## Counting while a print clears -/

/-- The locals of `histogram_print_clear` between two exchanges. -/
structure ClearPass where
  periodDurationUs : Nat
  underflowCnt : UInt32
  cnts : List UInt32
  totalCnt : UInt64
deriving DecidableEq, Repr

/-- A histogram that threads count into while one thread prints and clears it again and again, with a record of what has happened
to each counter: its increments, those since its last exchange, and the counts taken from it. -/
structure ClearState where
  hist : Histogram
  pass : Option ClearPass
  lines : List HistogramLine
  increments : Cell → Nat
  since : Cell → Nat
  taken : Cell → Nat

/-- The atomic steps. -/
inductive ClearEvent where
  /-- Some thread's `histogram_incr`. -/
  | incr (elapsedUs : Nat)
  /-- A call of `histogram_print_clear` with its first exchange, that of the underflow. -/
  | begin (periodDurationUs : Nat)
  /-- Its next exchange; the last one is followed by the print. -/
  | exchange
deriving DecidableEq, Repr

/-- A histogram before anything has happened to it. -/
def ClearState.init (h : Histogram) : ClearState := ⟨h, none, [], fun _ => 0, fun _ => 0, fun _ => 0⟩

/-- An increment of a counter. -/
def ClearState.incr (st : ClearState) (c : Cell) : ClearState :=
  { st with
    hist := st.hist.set c (st.hist.counts c + 1)
    increments := Function.update st.increments c (st.increments c + 1)
    since := Function.update st.since c (st.since c + 1) }

/-- An exchange of a counter with zero. -/
def ClearState.swap (st : ClearState) (c : Cell) : ClearState :=
  { st with
    hist := st.hist.set c 0
    since := Function.update st.since c 0
    taken := Function.update st.taken c (st.taken c + (st.hist.counts c).toNat) }

/-- A step. -/
def clearStep (st : ClearState) : ClearEvent → Option ClearState
  | .incr elapsedUs => (histogramCell st.hist elapsedUs).map st.incr
  | .begin periodDurationUs =>
    match st.pass with
    | some _ => none
    | none =>
      let cnt := st.hist.counts .underflow
      some { st.swap .underflow with pass := some ⟨periodDurationUs, cnt, [], cnt.toUInt64⟩ }
  | .exchange =>
    match st.pass with
    | none => none
    | some p =>
      if p.cnts.length < st.hist.nBuckets then
        let cnt := st.hist.counts (.bucket p.cnts.length)
        some { st.swap (.bucket p.cnts.length) with
          pass := some { p with cnts := p.cnts ++ [cnt], totalCnt := p.totalCnt + cnt.toUInt64 } }
      else
        let cnt := st.hist.counts .overflow
        (printLine st.hist p.periodDurationUs (p.totalCnt + cnt.toUInt64) p.underflowCnt cnt p.cnts).map fun line =>
          { st.swap .overflow with pass := none, lines := st.lines ++ [line] }

/-- A call of `histogram_print_clear` while no thread counts: its exchanges one after the other, and the line they end with. -/
def histogramPrintClear (h : Histogram) (periodDurationUs : Nat) : Option (HistogramLine × Histogram) := do
  let st ← Runs.run clearStep (ClearState.init h) (.begin periodDurationUs :: List.replicate (h.nBuckets + 1) .exchange)
  let line ← st.lines.head?
  return (line, st.hist)

end AerospikeBenchmark
