import Mathlib.Logic.Function.Basic
import AerospikeBenchmark.ObjectSpec.Free
import AerospikeBenchmark.ObjectSpec.Parse

/-!
# Object-spec handles

The four operations on `obj_spec_t`: who owns a parsed spec is told by the flag `valid` of the handles that point to it. Handles are
of any type; operations may be applied to one handle in two places. Every array that `obj_spec_parse` has allocated has a number.
-/

namespace AerospikeBenchmark

open CText

/-- The fields of `struct obj_spec_s` before `valid`: the number of the array that `bin_specs` points to, and `n_bin_specs`. -/
structure SpecFields where
  binSpecs : Nat
  nBinSpecs : Nat
deriving DecidableEq, Repr

/-- `struct obj_spec_s`, once `valid` has been written. The other fields may not have been. -/
structure Handle where
  fields : Option SpecFields
  valid : Bool
deriving DecidableEq, Repr

/-- The arrays allocated so far, the handles that have been written, and the blocks released so far, each with the number of the array
at its root. -/
structure HandleState (η : Type) where
  arrays : List (List BinSpec)
  handles : η → Option Handle
  released : List (Nat × BlockPath)

/-- Before any operation. -/
def HandleState.initial {η : Type} : HandleState η := ⟨[], fun _ => none, []⟩

/-- An operation and the handles it is applied to. -/
inductive HandleOp (η : Type) where
  | parse (baseObj : η) (objSpecStr : Text)
  | move (dst src : η)
  | shallowCopy (dst src : η)
  | free (objSpec : η)

section

variable {η : Type} [DecidableEq η]

/-- Write a handle. -/
def HandleState.write (s : HandleState η) (x : η) (h : Handle) : HandleState η :=
  { s with handles := Function.update s.handles x (some h) }

/-- `obj_spec_parse`. Of a handle for which parsing fails only `valid` is written. -/
def handleParse (R : AsRandom) (s : HandleState η) (baseObj : η) (objSpecStr : Text) : HandleState η :=
  match objSpecParse R objSpecStr with
  | .ok o => { s with arrays := s.arrays ++ [o.binSpecs] }.write baseObj ⟨some ⟨s.arrays.length, o.nBinSpecs⟩, true⟩
  | .error _ => s.write baseObj ⟨(s.handles baseObj).bind Handle.fields, false⟩

/-- `src->valid = false`. -/
def HandleState.invalidate (s : HandleState η) (src : η) : HandleState η :=
  { s with handles := Function.update s.handles src ((s.handles src).map ({ · with valid := false })) }

/-- `obj_spec_move`: the fields are copied, `dst` becomes valid and then `src` invalid, also when they are one handle. -/
def handleMove (s : HandleState η) (dst src : η) : Option (HandleState η) := do
  let source ← s.handles src
  if source.valid then some ((s.write dst ⟨source.fields, true⟩).invalidate src) else none

/-- `obj_spec_shallow_copy`. -/
def handleShallowCopy (s : HandleState η) (dst src : η) : Option (HandleState η) := do
  let source ← s.handles src
  some (s.write dst ⟨source.fields, false⟩)

/-- `obj_spec_free`. -/
def handleFree (s : HandleState η) (objSpec : η) : Option (HandleState η) := do
  let h ← s.handles objSpec
  if h.valid then
    let fields ← h.fields
    let binSpecs ← s.arrays[fields.binSpecs]?
    let blocks ← objSpecFree binSpecs fields.nBinSpecs
    some ({ s with released := s.released ++ blocks.map (fields.binSpecs, ·) }.invalidate objSpec)
  else some s

/-- One operation. There is none on a handle that is read before it has been written, and no move from an invalid handle. -/
def handleStep (R : AsRandom) (s : HandleState η) : HandleOp η → Option (HandleState η)
  | .parse baseObj objSpecStr => some (handleParse R s baseObj objSpecStr)
  | .move dst src => handleMove s dst src
  | .shallowCopy dst src => handleShallowCopy s dst src
  | .free objSpec => handleFree s objSpec

end

end AerospikeBenchmark
