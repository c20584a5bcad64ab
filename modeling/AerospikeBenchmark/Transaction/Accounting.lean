import AerospikeBenchmark.Workload.Basic

/-!
# Accounting of results

What a finished operation does to the counters and histograms of `cdata_t`: the record functions, the synchronous routines, which
classify the status of their own call, and `_async_listener`, which does so for all asynchronous calls. The error messages of the
debug mode are left out.
-/

namespace AerospikeBenchmark

/-- The status codes of the client library that the benchmark tells apart; any other code is `other`. -/
inductive AsStatus where
  | ok
  | errRecordNotFound
  | errTimeout
  | errNoMoreConnections
  | other (code : Int)
deriving DecidableEq, Repr

/-- The classes under which operations are counted. Deletes are writes of nil bins. -/
inductive OpClass where
  | read
  | write
  | udf
deriving DecidableEq, Repr

/-- One value for each class of operations. -/
structure PerClass (α : Type) where
  read : α
  write : α
  udf : α
deriving DecidableEq, Repr

/-- The value for a class. -/
def PerClass.get {α : Type} (p : PerClass α) : OpClass → α
  | .read => p.read
  | .write => p.write
  | .udf => p.udf

/-- The ten counters of `cdata_t`. -/
structure Counters where
  readHitCount : UInt64 := 0
  readMissCount : UInt64 := 0
  readTimeoutCount : UInt64 := 0
  readErrorCount : UInt64 := 0
  writeCount : UInt64 := 0
  writeTimeoutCount : UInt64 := 0
  writeErrorCount : UInt64 := 0
  udfCount : UInt64 := 0
  udfTimeoutCount : UInt64 := 0
  udfErrorCount : UInt64 := 0
deriving DecidableEq, Repr

/-- The two histograms of a class. -/
inductive HistogramType where
  /-- The HDR histogram that `hdr_init` allocates. -/
  | hdr
  /-- The histogram with fixed buckets that `histogram_init` sets up. -/
  | buckets
deriving DecidableEq, Repr

/-- A use of a histogram by a record function: the histogram, the value recorded, and whether the histogram was initialised. -/
structure HistogramUse where
  type : HistogramType
  opClass : OpClass
  value : Nat
  initialised : Bool
deriving DecidableEq, Repr

/-- The part of `cdata_t` that `initialize_histograms` sets up and accounting only reads. A file and an HDR histogram stand for
whether their pointer is set, a bucket histogram for whether it has been initialised. -/
structure LatencySetup where
  latency : Bool
  histogramOutput : Bool
  hdrCompOutput : PerClass Bool
  hdr : PerClass Bool
  histogram : PerClass Bool
deriving DecidableEq, Repr

/-- The part of `cdata_t` that accounting uses, with the list of all uses of histograms made so far. -/
structure CData where
  setup : LatencySetup
  counters : Counters
  uses : List HistogramUse
deriving DecidableEq, Repr

/-- `cdata_t` as it is cleared before the run. -/
def CData.cleared : CData where
  setup := ⟨false, false, ⟨false, false, false⟩, ⟨false, false, false⟩, ⟨false, false, false⟩⟩
  counters := {}
  uses := []

/-- An increment of a counter. -/
def CData.count (incr : Counters → Counters) (cd : CData) : CData := { cd with counters := incr cd.counters }

/-! ## The record functions -/

/-- The uses of histograms that recording a value under a class makes. -/
def LatencySetup.uses (l : LatencySetup) (c : OpClass) (dtUs : Nat) : List HistogramUse :=
  (if l.latency then [⟨.hdr, c, dtUs, l.hdr.get c⟩] else []) ++
    (if l.histogramOutput || l.hdrCompOutput.get c then [⟨.buckets, c, dtUs, l.histogram.get c⟩] else [])

/-- The body of the record functions. -/
def record (c : OpClass) (incr : Counters → Counters) (dtUs : Nat) (cd : CData) : CData :=
  { cd.count incr with uses := cd.uses ++ cd.setup.uses c dtUs }

/-- `_record_read`. -/
def recordRead : Nat → CData → CData := record .read fun n => { n with readHitCount := n.readHitCount + 1 }

/-- `_record_write`. -/
def recordWrite : Nat → CData → CData := record .write fun n => { n with writeCount := n.writeCount + 1 }

/-- `_record_udf`. -/
def recordUdf : Nat → CData → CData := record .udf fun n => { n with udfCount := n.udfCount + 1 }

/-! ## The other outcomes -/

/-- A timeout of an operation. -/
def countTimeout : OpClass → CData → CData
  | .read => CData.count fun n => { n with readTimeoutCount := n.readTimeoutCount + 1 }
  | .write => CData.count fun n => { n with writeTimeoutCount := n.writeTimeoutCount + 1 }
  | .udf => CData.count fun n => { n with udfTimeoutCount := n.udfTimeoutCount + 1 }

/-- Another error of an operation. -/
def countError : OpClass → CData → CData
  | .read => CData.count fun n => { n with readErrorCount := n.readErrorCount + 1 }
  | .write => CData.count fun n => { n with writeErrorCount := n.writeErrorCount + 1 }
  | .udf => CData.count fun n => { n with udfErrorCount := n.udfErrorCount + 1 }

/-! ## Synchronous calls -/

/-- `_write_record_sync`, from the status of the call on. -/
def writeRecordSync (status : AsStatus) (dtUs : Nat) (cd : CData) : CData :=
  match status with
  | .ok => recordWrite dtUs cd
  | .errTimeout => countTimeout .write cd
  | _ => countError .write cd

/-- `_batch_write_record_sync`: the whole batch is one write. -/
def batchWriteRecordSync : AsStatus → Nat → CData → CData := writeRecordSync

/-- `_read_record_sync`. -/
def readRecordSync (status : AsStatus) (dtUs : Nat) (cd : CData) : CData :=
  match status with
  | .ok => recordRead dtUs cd
  | .errRecordNotFound => cd.count fun n => { n with readMissCount := n.readMissCount + 1 }
  | .errTimeout => countTimeout .read cd
  | _ => countError .read cd

/-- `_batch_read_record_sync`: no misses here. -/
def batchReadRecordSync (status : AsStatus) (dtUs : Nat) (cd : CData) : CData :=
  match status with
  | .ok => recordRead dtUs cd
  | .errTimeout => countTimeout .read cd
  | _ => countError .read cd

/-- `_apply_udf_sync`: a call on a record that does not exist is a success. -/
def applyUdfSync (status : AsStatus) (dtUs : Nat) (cd : CData) : CData :=
  match status with
  | .ok | .errRecordNotFound => recordUdf dtUs cd
  | .errTimeout => countTimeout .udf cd
  | _ => countError .udf cd

/-! ## Asynchronous calls -/

/-- The tag of an asynchronous operation. -/
inductive OpTag where
  | readOp
  | writeOp
  | deleteOp
  | udfOp
deriving DecidableEq, Repr

/-- The class a tag is accounted under. A tag that was never set is whatever the memory held, possibly none of the four. -/
def tagClass (op : Option OpTag) : OpClass :=
  if op = some .readOp then .read else if op = some .udfOp then .udf else .write

/-- The error that a listener gets for a status: none when the call succeeded. -/
def AsStatus.err : AsStatus → Option AsStatus
  | .ok => none
  | s => some s

/-- A success, recorded under a class. -/
def recordClass : OpClass → Nat → CData → CData
  | .read => recordRead
  | .write => recordWrite
  | .udf => recordUdf

/-- `_async_listener`, on an item tagged `op`. -/
def asyncListener (op : Option OpTag) (err : Option AsStatus) (dtUs : Nat) (cd : CData) : CData :=
  match err with
  | none => recordClass (tagClass op) dtUs cd
  | some .errTimeout => countTimeout (tagClass op) cd
  | some _ => countError (tagClass op) cd

/-! ## One operation under its class -/

/-- The tag that an operation of a class carries. -/
def OpClass.tag : OpClass → OpTag
  | .read => .readOp
  | .write => .writeOp
  | .udf => .udfOp

@[simp] theorem tagClass_tag (c : OpClass) : tagClass (some c.tag) = c := by cases c <;> rfl

/-- The result of a call on a single record. -/
structure OpResult where
  op : OpClass
  status : AsStatus
  dtUs : Nat
deriving DecidableEq, Repr

/-- A result accounted by the synchronous routine of its class. -/
def accountSync (cd : CData) (r : OpResult) : CData :=
  match r.op with
  | .read => readRecordSync r.status r.dtUs cd
  | .write => writeRecordSync r.status r.dtUs cd
  | .udf => applyUdfSync r.status r.dtUs cd

/-- A result accounted by the listener, on an item tagged with its class. -/
def accountAsync (cd : CData) (r : OpResult) : CData := asyncListener (some r.op.tag) r.status.err r.dtUs cd

end AerospikeBenchmark
