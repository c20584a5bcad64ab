import AerospikeBenchmark.ObjectSpec.Handles
import AerospikeBenchmark.Workload.Parse

/-!
# The object specs of the stages

A stage without an object spec of its own has a shallow copy of the spec of an earlier stage, or of the global one. Here are the
operations on `obj_spec_t` that `stages_set_defaults_and_parse` performs when it succeeds; what they do to arrays and owners is in
`ObjectSpec.Handles`.
-/

namespace AerospikeBenchmark

open CText

/-- The places of an `obj_spec_t`: one in the arguments and two in each stage. -/
inductive SpecPlace where
  | args
  | objSpec (i : Nat)
  | udfFnArgs (i : Nat)
deriving DecidableEq, Repr

/-- What `prev_obj_spec` points to after the stage with index `i`. -/
def nextSpecPlace (i : Nat) (prev : SpecPlace) (d : StageDef) : SpecPlace := if d.objSpecStr = none then prev else .objSpec i

/-- The operation on the object spec of a stage, at the place `x`, by the string that the stage gives. -/
def objSpecOp (x prev : SpecPlace) : Option Text → HandleOp SpecPlace
  | none => .shallowCopy x prev
  | some str => .parse x str

/-- The operations for the stage `s` with index `i`; `prev` is the place that `prev_obj_spec` points to. -/
def stageSpecOps (i : Nat) (prev : SpecPlace) (d : StageDef) (s : Stage) : List (HandleOp SpecPlace) :=
  objSpecOp (.objSpec i) prev d.objSpecStr :: (if s.workload.containsUdfs then [.parse (.udfFnArgs i) (d.udfFnArgs.getD [])] else [])

/-- The operations of the loop from stage `i` on. -/
def specOps : (i : Nat) → (prev : SpecPlace) → List StageDef → List Stage → List (HandleOp SpecPlace)
  | i, prev, d :: ds, s :: ss => stageSpecOps i prev d s ++ specOps (i + 1) (nextSpecPlace i prev d) ds ss
  | _, _, _, _ => []

/-- Before the loop the global spec has been parsed. -/
def StageArgs.handles (args : StageArgs) : HandleState SpecPlace where
  arrays := [args.objSpec.binSpecs]
  handles := Function.update (fun _ => none) .args (some ⟨some ⟨0, args.objSpec.nBinSpecs⟩, true⟩)
  released := []

/-- The spec that a handle refers to, and whether the handle owns it. -/
def HandleState.Holds {η : Type} (σ : HandleState η) (x : η) (o : ObjSpec) (valid : Bool) : Prop :=
  ∃ array, σ.handles x = some ⟨some ⟨array, o.nBinSpecs⟩, valid⟩ ∧ σ.arrays[array]? = some o.binSpecs

end AerospikeBenchmark
