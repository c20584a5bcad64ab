import AerospikeBenchmark.Transaction.Operations
import AerospikeBenchmark.Workload.Parse

/-!
# The record of nil bins

Deletes write a record of nil bins. `init_stage` fills it once for each worker and stage (`fixed_delete_record`), and every delete
of the stage sends it: as it is, or as a list of bin operations for each key of a batch. Records belong to the client library, whose
functions on them are parameters.
-/

namespace AerospikeBenchmark

open CText

/-- A bin of a record: its name, and its value or nil. -/
abbrev RecordBin := Text × Option AsVal

/-- The functions of the client library on records, as far as the record of nil bins needs them. -/
structure RecordLib where
  Record : Type
  /-- `as_record_init`, with room for a number of bins. -/
  init : Nat → Record
  /-- `as_record_set_nil`. -/
  setNil : Record → Text → Record
  /-- `as_record_destroy`: what is left of the record. -/
  destroy : Record → Record
  /-- The bins of a record. -/
  bins : Record → List RecordBin
  /-- The number of bins a record has room for. -/
  capacity : Record → Nat

/-- The bins with one of them set to nil; it is added when it is not there. -/
def setNilBin (bins : List RecordBin) (name : Text) : List RecordBin :=
  if name ∈ bins.map Prod.fst then bins.map fun b => if b.1 = name then (name, none) else b else bins ++ [(name, none)]

/-- What the client library documents of these functions. -/
structure RecordLib.Lawful (L : RecordLib) : Prop where
  bins_init : ∀ n, L.bins (L.init n) = []
  capacity_init : ∀ n, n < 2 ^ 16 → L.capacity (L.init n) = n
  bins_setNil : ∀ r name, name ∈ (L.bins r).map Prod.fst ∨ (L.bins r).length < L.capacity r →
    L.bins (L.setNil r name) = setNilBin (L.bins r) name
  capacity_setNil : ∀ r name, L.capacity (L.setNil r name) = L.capacity r

/-! ## The bins a selection addresses -/

/-- The inner loop of `FOR_EACH_WRITE_BIN` on one spec: the bins visited, and the bin to go on with at the next spec unless the
selection has ended. `idx` is the current bin and `rest` the selection after it. -/
def visitSpec (tot nRepeats : Nat) : (idx : Nat) → (rest : List Nat) → List Nat × Option (Nat × List Nat)
  | idx, [] => if (tot + nRepeats) % 2 ^ 32 ≤ idx then ([], some (idx, [])) else ([idx], none)
  | idx, next :: rest =>
    if (tot + nRepeats) % 2 ^ 32 ≤ idx then ([], some (idx, next :: rest))
    else
      let r := visitSpec tot nRepeats next rest
      (idx :: r.1, r.2)

/-- The outer loop of `FOR_EACH_WRITE_BIN` from the spec with `tot` bins before it; no result when it runs past the specs or the
bins, which the source declares unreachable. -/
def visitSpecs (nBinSpecs : Nat) : List BinSpec → (tot idx : Nat) → (rest : List Nat) → Option (List Nat)
  | [], _, _, _ => none
  | e :: es, tot, idx, rest =>
    if tot < nBinSpecs then
      match visitSpec tot e.nRepeats idx rest with
      | (visited, none) => some visited
      | (visited, some (idx', rest')) =>
        (visitSpecs nBinSpecs es ((tot + e.nRepeats) % 2 ^ 32) idx' rest').map (visited ++ ·)
    else none

/-- The bins for which `FOR_EACH_WRITE_BIN` runs its body. An empty selection is read as if it selected the first bin: the list ends
with a zero. -/
def forEachWriteBin (o : ObjSpec) (writeBins : List Nat) : Option (List Nat) :=
  visitSpecs o.nBinSpecs o.binSpecs 0 (writeBins.headD 0) writeBins.tail

/-! ## The worker -/

variable (L : RecordLib)

/-- A record with room for `n` bins in which the given bins are nil. The capacity is a 16-bit number. -/
def nilRecord (binName : Text) (n : Nat) (idxs : List Nat) : L.Record :=
  idxs.foldl (fun r i => L.setNil r (genBinName binName i)) (L.init (n % 2 ^ 16))

/-- `init_stage` on the record of nil bins, which held `old` before; no result where the source declares a point unreachable or
an assertion fails. -/
def initDeleteRecord (binName : Text) (s : Stage) (old : L.Record) : Option L.Record :=
  let n := s.objSpec.nBinSpecs
  let full :=
    if s.workload.containsDeletes && (s.workload.type != .d || !s.workload.writeAllPct.eq (.num 0)) then
      nilRecord L binName n (List.range n)
    else old
  if s.workload.containsDeletes && s.workload.type == .d && !s.workload.writeAllPct.eq (.num 100) then
    s.writeBins.bind fun bins => (forEachWriteBin s.objSpec bins).map (nilRecord L binName bins.length)
  else some full

/-- What a delete sends: a record, or the bin operations of each key of a batch. -/
inductive DeleteRequest where
  | put (bins : List RecordBin)
  | batch (ops : List (List RecordBin))
deriving DecidableEq, Repr

/-- The bins that each key of a request gets. -/
def DeleteRequest.payloads : DeleteRequest → List (List RecordBin)
  | .put bins => [bins]
  | .batch ops => ops

/-- A worker, as far as deletes go: its record of nil bins and the deletes sent so far. -/
structure DeleteWorker where
  record : L.Record
  sent : List DeleteRequest

variable {L}

/-- A delete of a single key sends the record itself (`_gen_nil_record`). -/
def DeleteWorker.putRecord (w : DeleteWorker L) : DeleteWorker L := { w with sent := w.sent ++ [.put (L.bins w.record)] }

/-- `_gen_batch_deletes` and the call: for each key the bins of the record as operations. -/
def DeleteWorker.putBatch (s : Stage) (w : DeleteWorker L) : DeleteWorker L :=
  { w with sent := w.sent ++ [.batch (List.replicate s.batchDeleteSize (L.bins w.record))] }

/-- `_destroy_record` on the record of nil bins. -/
def DeleteWorker.destroyRecord (s : Stage) (w : DeleteWorker L) : DeleteWorker L :=
  if s.random then { w with record := L.destroy w.record } else w

/-- `random_delete`. -/
def randomDeleteSend (s : Stage) (w : DeleteWorker L) : DeleteWorker L :=
  if s.batchDeleteSize ≤ 1 then w.putRecord else w.putBatch s

/-- `random_delete_async`. -/
def randomDeleteAsyncSend (s : Stage) (w : DeleteWorker L) : DeleteWorker L :=
  if s.batchDeleteSize ≤ 1 then w.putRecord.destroyRecord s else w.putBatch s

/-- The bodies of `linear_deletes` and `linear_deletes_async`. -/
def linearDeleteSend (s : Stage) (w : DeleteWorker L) : DeleteWorker L :=
  if s.batchDeleteSize ≤ 1 then w.putRecord.destroyRecord s else w.putBatch s

/-- A round of a stage on the record of nil bins: only deletes use it. -/
def deleteRound (cast : FpNum → Nat) (s : Stage) (w : DeleteWorker L) (word : Nat) : DeleteWorker L :=
  match s.workload.choose cast (randomFp word) with
  | .delete =>
    if s.workload.type = .d then linearDeleteSend s w
    else if s.async then randomDeleteAsyncSend s w
    else randomDeleteSend s w
  | .read | .write | .udf => w

end AerospikeBenchmark
