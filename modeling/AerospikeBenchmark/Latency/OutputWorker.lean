import AerospikeBenchmark.Transaction.Accounting

/-!
# The output thread

`periodic_output_worker`, as far as the histogram output goes. The thread wakes up about once a second, and at the end of a stage; at
some of these ticks it prints the histograms. The lines for standard output are left out.
-/

namespace AerospikeBenchmark

open CText

/-- A wake-up: whether the sleep was interrupted, which it is at the end of a stage, the counters that are taken, the time in
microseconds, and the time after the barrier at the end of the stage. -/
structure Tick where
  interrupted : Bool
  counts : Counters
  time : UInt64
  timeAfter : UInt64
deriving DecidableEq, Repr

/-- `any_records`: the sum of the counters, in 64 bits, is not zero. -/
def Counters.anyRecords (n : Counters) : Bool :=
  n.writeCount + n.writeTimeoutCount + n.writeErrorCount + n.readHitCount + n.readMissCount + n.readTimeoutCount + n.readErrorCount +
    n.udfCount + n.udfTimeoutCount + n.udfErrorCount != 0

/-- What does not change during a run: which classes the stages contain, the stages' number and descriptions, and the period of the
output, which the command line requires to be positive. -/
structure OutputSetup where
  has : PerClass Bool
  nStages : Nat
  desc : Nat → Option Text
  period : Nat
  period_pos : 0 < period

/-- A line of the histogram output with the index of the stage in which it is printed: the header of `fprint_stage` with the stage's
description, or the line of `histogram_print_clear` for a class with the length of the period. -/
inductive OutLine where
  | header (stageIdx : Nat) (desc : Option Text)
  | histogram (stageIdx : Nat) (c : OpClass) (periodUs : UInt64)
deriving DecidableEq, Repr

/-- The local variables of the worker, its stage and whether it is finished, and what it has printed. -/
structure OutputState where
  genCount : UInt64
  prevTimeHist : UInt64
  firstLogOfStage : Bool
  stageIdx : Nat
  finished : Bool
  output : List OutLine
deriving DecidableEq, Repr

/-- Before the first sleep. -/
def OutputState.start (startTime : UInt64) : OutputState := ⟨0, startTime, true, 0, false, []⟩

/-- The classes whose histograms are printed, in the order of printing. -/
def OutputSetup.classes (o : OutputSetup) : List OpClass := [.write, .read, .udf].filter o.has.get

/-- The lines printed when it is time to print and there are records. -/
def printHistograms (o : OutputSetup) (s : OutputState) (t : Tick) : List OutLine :=
  (if s.firstLogOfStage then [.header s.stageIdx (o.desc s.stageIdx)] else []) ++
    o.classes.map fun c => .histogram s.stageIdx c (t.time - s.prevTimeHist)

/-- Whether it is time to print: at the end of a stage, or when the period is over. -/
def OutputSetup.timeToPrint (o : OutputSetup) (genCount : UInt64) (t : Tick) : Bool :=
  t.interrupted || genCount.toNat % o.period == 0

/-- The lines printed at a tick. -/
def tickLines (o : OutputSetup) (s : OutputState) (t : Tick) : List OutLine :=
  if o.timeToPrint (s.genCount + 1) t && t.counts.anyRecords then printHistograms o s t else []

/-- The body of the loop. At the end of a stage the thread waits at the barrier, behind which the coordinator has either gone on to
the next stage or declared that all are finished. -/
def outputTick (o : OutputSetup) (s : OutputState) (t : Tick) : Option OutputState :=
  if s.finished then none
  else
    let output := s.output ++ tickLines o s t
    if t.interrupted then
      if s.stageIdx + 1 = o.nStages then some { s with finished := true, output := output }
      else some ⟨0, t.timeAfter, true, s.stageIdx + 1, false, output⟩
    else
      let prevTimeHist := if o.timeToPrint (s.genCount + 1) t then t.time else s.prevTimeHist
      some ⟨s.genCount + 1, prevTimeHist, false, s.stageIdx, false, output⟩

end AerospikeBenchmark
