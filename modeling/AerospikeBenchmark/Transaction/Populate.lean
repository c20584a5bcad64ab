import AerospikeBenchmark.ObjectSpec.WriteBins
import AerospikeBenchmark.Transaction.DeleteRecord
import AerospikeBenchmark.Workload.BinNames

/-!
# Generating the values of a selection

`obj_spec_populate_bins` stores generated values in the bins of a record, and `obj_spec_gen_value` gathers them in a list. Both take
a selection of bins or the null pointer for all of them.
-/

namespace AerospikeBenchmark

open CText Words

/-- The functions of the client library on records, with `as_record_set`: the record with a bin set, or none when it fails. -/
structure RecordSetLib extends RecordLib where
  set : Record → Text → AsVal → Option Record

/-- The bins with one of them set to a value; it is added when it is not there. -/
def setBin (bins : List RecordBin) (name : Text) (v : AsVal) : List RecordBin :=
  if bins.any fun b => b.1 = name then bins.map fun b => if b.1 = name then (name, some v) else b else bins ++ [(name, some v)]

/-- What the client library documents of `as_record_set`. The capacity of a record is a 16-bit number. -/
structure RecordSetLib.LawfulSet (L : RecordSetLib) : Prop where
  capacity_lt : ∀ r, L.capacity r < 2 ^ 16
  set_some : ∀ r name v, name.length < binNameSize → name ∈ (L.bins r).map Prod.fst ∨ (L.bins r).length < L.capacity r →
    ∃ r', L.set r name v = some r' ∧ L.bins r' = setBin (L.bins r) name v ∧ L.capacity r' = L.capacity r

/-- What follows a loop over write bins. The source declares the other ends unreachable. -/
def LoopEnd.andThen {α : Type} (e : LoopEnd) (g : Gen α) : Gen α :=
  match e with
  | .exit => g
  | .unreachable => stop .outOfBounds
  | .outOfBounds => stop .outOfBounds

variable (L : RecordSetLib) (R : AsRandom) (cLen : Nat → Nat) (binName : Text)

/-! ## obj_spec_populate_bins -/

/-- The body of both loops of `obj_spec_populate_bins`: generate a value and store it. False stands for the return of `-1`, with the
record as it is then. -/
def populateBin (spec : BinSpec) (idx : Nat) (rec : L.Record) : Gen (Bool × L.Record) := do
  let val ← binSpecRandomVal R cLen spec
  match L.set rec (genBinName binName idx) val with
  | some rec' => pure (true, rec')
  | none => pure (false, rec)

/-- The inner loop over the repetitions of a spec: `for (j = 0; j < n_repeats; j++, cnt++)`. -/
def populateRepeats (spec : BinSpec) : (n cnt : Nat) → L.Record → Gen (Bool × L.Record)
  | 0, _, rec => pure (true, rec)
  | n + 1, cnt, rec => do
    let r ← populateBin L R cLen binName spec cnt rec
    if r.1 then populateRepeats spec n ((cnt + 1) % 2 ^ 32) r.2 else pure r

/-- The loop over all bins: `for (i = 0, cnt = 0; cnt < n_bin_specs; i++)`, from a spec and a count on. -/
def populateAll (nBinSpecs : Nat) : List BinSpec → (cnt : Nat) → L.Record → Gen (Bool × L.Record)
  | [], cnt, rec => if cnt < nBinSpecs then stop .outOfBounds else pure (true, rec)
  | spec :: specs, cnt, rec =>
    if cnt < nBinSpecs then do
      let r ← populateRepeats L R cLen binName spec spec.nRepeats cnt rec
      if r.1 then populateAll nBinSpecs specs ((cnt + spec.nRepeats) % 2 ^ 32) r.2 else pure r
    else pure (true, rec)

/-- Bins stored one after the other, each given by its index and its spec. -/
def populateEach : List (Nat × BinSpec) → L.Record → Gen (Bool × L.Record)
  | [], rec => pure (true, rec)
  | (idx, spec) :: rest, rec => do
    let r ← populateBin L R cLen binName spec idx rec
    if r.1 then populateEach rest r.2 else pure r

/-- The bin and the spec that a body of the loop over write bins is run on. -/
def WriteBinVisit.bin (v : WriteBinVisit) : Nat × BinSpec := (v.idx, v.spec)

/-- The loop over a selection. -/
def populateSelected (o : ObjSpec) (writeBins : BinList Nat) (rec : L.Record) : Gen (Bool × L.Record) := do
  let trace := writeBinTrace o writeBins.entries writeBins.count
  let r ← populateEach L R cLen binName ((bodies trace.1).map WriteBinVisit.bin) rec
  if r.1 then trace.2.andThen (pure r) else pure r

/-- `obj_spec_populate_bins`. -/
def objSpecPopulateBins (o : ObjSpec) (rec : L.Record) (writeBins : Option (BinList Nat)) : Gen (Bool × L.Record) :=
  match writeBins with
  | none =>
    if L.capacity rec < o.nBinSpecs then pure (false, rec) else populateAll L R cLen binName o.nBinSpecs o.binSpecs 0 rec
  | some writeBins => if L.capacity rec < writeBins.count then pure (false, rec) else populateSelected L R cLen binName o writeBins rec

/-! ## obj_spec_gen_value -/

/-- `as_list_append` on a list made with a capacity and the block size zero, which does not grow. -/
def appendFixed (capacity : Nat) (vs : List AsVal) (v : AsVal) : List AsVal := if vs.length < capacity then vs ++ [v] else vs

/-- The bodies of the loop of `obj_spec_gen_compressible_value`, each of which appends to the list. -/
def genEach (capacity : Nat) : List BinSpec → List AsVal → Gen (List AsVal)
  | [], vs => pure vs
  | spec :: specs, vs => do
    let val ← binSpecRandomVal R cLen spec
    genEach capacity specs (appendFixed capacity vs val)

/-- `obj_spec_gen_compressible_value` on a selection. -/
def objSpecGenSelectedValue (o : ObjSpec) (writeBins : BinList Nat) : Gen AsVal := do
  let trace := writeBinTrace o writeBins.entries writeBins.count
  let vs ← genEach R cLen writeBins.count ((bodies trace.1).map WriteBinVisit.spec) []
  trace.2.andThen (pure (.list vs))

/-- `obj_spec_gen_value`: the compression ratio is one. -/
def objSpecGenBinsValue (o : ObjSpec) (writeBins : Option (BinList Nat)) : Gen AsVal :=
  match writeBins with
  | none => objSpecGenValue R o
  | some writeBins => objSpecGenSelectedValue R fullLength o writeBins

end AerospikeBenchmark
