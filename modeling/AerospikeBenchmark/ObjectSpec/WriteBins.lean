import AerospikeBenchmark.ObjectSpec.Gen

/-!
# The loop over write bins

The macros `FOR_EACH_WRITE_BIN` and `END_FOR_EACH_WRITE_BIN`: an outer loop over the specs and an inner one over the selected bins
that belong to a spec. The loop is given by its trace, the tests it makes and the bodies it runs, and by the way it ends.
-/

namespace AerospikeBenchmark

/-- A run of the body: the iteration, the bin, and the spec with its index. -/
structure WriteBinVisit where
  iter : Nat
  idx : Nat
  specIdx : Nat
  spec : BinSpec

/-- What the loop does. -/
inductive WriteBinStep where
  /-- The test `__tot + n_repeats <= idx`. -/
  | test (tot nRepeats idx : Nat)
  | body (visit : WriteBinVisit)

/-- How the loop ends. -/
inductive LoopEnd where
  /-- By the jump behind it. -/
  | exit
  /-- At `__builtin_unreachable`. -/
  | unreachable
  /-- By an access past the end of `bin_specs` or of `write_bins`. -/
  | outOfBounds
deriving DecidableEq, Repr

/-- The bodies of a trace. -/
def bodies : List WriteBinStep → List WriteBinVisit
  | [] => []
  | .test _ _ _ :: steps => bodies steps
  | .body v :: steps => v :: bodies steps

@[simp] theorem bodies_append (s t : List WriteBinStep) : bodies (s ++ t) = bodies s ++ bodies t := by
  induction s with
  | nil => rfl
  | cons a s ih => cases a <;> simp [bodies, ih]

/-- Where the inner loop leaves off: the loop goes on at the next spec with an iteration, its bin and the array after it; or it
ends. -/
inductive InnerEnd where
  | next (iter idx : Nat) (rest : List Nat)
  | stop (e : LoopEnd)

/-- The inner loop on one spec. `rest` is the array of write bins behind the current one; it can be longer than the selection, which
has `n` bins. -/
def innerLoop (n tot specIdx : Nat) (spec : BinSpec) : (iter idx : Nat) → (rest : List Nat) → List WriteBinStep × InnerEnd
  | iter, idx, [] =>
    if (tot + spec.nRepeats) % 2 ^ 32 ≤ idx then ([.test tot spec.nRepeats idx], .next iter idx [])
    else ([.test tot spec.nRepeats idx, .body ⟨iter, idx, specIdx, spec⟩], .stop (if n ≤ iter + 1 then .exit else .outOfBounds))
  | iter, idx, idx' :: rest =>
    if (tot + spec.nRepeats) % 2 ^ 32 ≤ idx then ([.test tot spec.nRepeats idx], .next iter idx (idx' :: rest))
    else if n ≤ iter + 1 then ([.test tot spec.nRepeats idx, .body ⟨iter, idx, specIdx, spec⟩], .stop .exit)
    else
      let r := innerLoop n tot specIdx spec (iter + 1) idx' rest
      (.test tot spec.nRepeats idx :: .body ⟨iter, idx, specIdx, spec⟩ :: r.1, r.2)

/-- The outer loop from the spec with index `specIdx` on. -/
def outerLoop (nBinSpecs n : Nat) : List BinSpec → (specIdx tot iter idx : Nat) → (rest : List Nat) → List WriteBinStep × LoopEnd
  | [], _, tot, _, _, _ => ([], if tot < nBinSpecs then .outOfBounds else .unreachable)
  | spec :: specs, specIdx, tot, iter, idx, rest =>
    if tot < nBinSpecs then
      match innerLoop n tot specIdx spec iter idx rest with
      | (steps, .stop e) => (steps, e)
      | (steps, .next iter' idx' rest') =>
        let r := outerLoop nBinSpecs n specs (specIdx + 1) ((tot + spec.nRepeats) % 2 ^ 32) iter' idx' rest'
        (steps ++ r.1, r.2)
    else ([], .unreachable)

/-- The loop over the first `n` bins of an array, which is read at least once. -/
def writeBinTrace (o : ObjSpec) (writeBins : List Nat) (n : Nat) : List WriteBinStep × LoopEnd :=
  match writeBins with
  | [] => ([], .outOfBounds)
  | idx :: rest => outerLoop o.nBinSpecs n o.binSpecs 0 0 0 idx rest

/-! ## The spec of a bin -/

/-- The spec with index `i` owns a bin: the bins of the specs before it come before, and its own reach beyond. -/
def ObjSpec.Owns (o : ObjSpec) (bin i : Nat) (spec : BinSpec) : Prop :=
  o.binSpecs[i]? = some spec ∧ totalRepeats (o.binSpecs.take i) ≤ bin ∧ bin < totalRepeats (o.binSpecs.take i) + spec.nRepeats

end AerospikeBenchmark
