import AerospikeBenchmark.Lib.Snprintf
import AerospikeBenchmark.ObjectSpec.Free
import AerospikeBenchmark.ObjectSpec.Parse

/-!
# Releasing what a failed parse has built

When an error is found, every consumer state still holds the array it was building. The bin specs in the arrays are in different
states: most are built, the last may be reserved only, and a key that was refused is already released. `_destroy_consumer_states`
has to tell them apart by the size of the array and the state of a map.
-/

namespace AerospikeBenchmark

open Snprintf

/-- A bin spec in the array of a consumer state. -/
inductive SpecCell where
  | unbuilt
  | built (spec : BinSpec)
  | released (spec : BinSpec)
deriving DecidableEq, Repr

/-- `bin_spec_free` on a bin spec of an array. There is no result on one that is not built or that was released before. -/
def SpecCell.free : SpecCell → Option (List BlockPath)
  | .built spec => binSpecFree spec
  | .unbuilt | .released _ => none

/-- The blocks of a bin spec that has been built. -/
def SpecCell.blocks : SpecCell → List BlockPath
  | .unbuilt => []
  | .built spec | .released spec => spec.blocks

/-- The last bin spec of the array, if one was reserved. -/
def Slot.cells : Slot → List SpecCell
  | .none => []
  | .reserved => [.unbuilt]
  | .filled spec => [.built spec]
  | .freed val => [.released (.scalar 1 val)]

/-- `list_builder` of a list. -/
def ListConsumer.cells (c : ListConsumer) (slot : Slot) : List SpecCell := c.listBuilder.map .built ++ slot.cells

/-- `list_builder` of a map. A key and its value are reserved together. -/
def MapConsumer.cells (c : MapConsumer) (slot : Slot) : List (SpecCell × SpecCell) :=
  c.listBuilder.map (fun p => (.built p.1, .built p.2)) ++
    match c.state with
    | .val key => slot.cells.map fun cell => (.built key, cell)
    | .key | .done => slot.cells.map fun cell => (cell, .unbuilt)

/-! ## The loops -/

/-- `for (i = 0; i < bound; i++) free(a[i])`, on the array from index `i` on. There is no result when the loop leaves the array. -/
def freeBelow {α : Type} (free : Nat → α → Option (List BlockPath)) (bound : Int) : (i : Nat) → List α → Option (List BlockPath)
  | i, [] => if i < bound then none else some []
  | i, a :: as =>
    if i < bound then do
      let released ← free i a
      let rest ← freeBelow free bound (i + 1) as
      pure (released ++ rest)
    else some []

/-- `bin_spec_free` on the bin spec at index `i` of a list. -/
def freeElem (i : Nat) (cell : SpecCell) : Option (List BlockPath) := cell.free.map (List.map (.elem i :: ·))

/-- `bin_spec_free` on the key at index `i` of a map. -/
def freeKey (i : Nat) (cell : SpecCell) : Option (List BlockPath) := cell.free.map (List.map (.key i :: ·))

/-- `bin_spec_free` on the value at index `i` of a map. -/
def freeVal (i : Nat) (cell : SpecCell) : Option (List BlockPath) := cell.free.map (List.map (.val i :: ·))

/-- `bin_spec_free` on the key and the value at index `i` of a map. -/
def freePair (i : Nat) (p : SpecCell × SpecCell) : Option (List BlockPath) := do
  let keyBlocks ← freeKey i p.1
  let valBlocks ← freeVal i p.2
  pure (keyBlocks ++ valBlocks)

/-- The last pair of a map. The case of `MAP_DONE` falls through to that of `MAP_VAL`. -/
def freeLastPair (state : MapState) (i : Nat) (p : SpecCell × SpecCell) : Option (List BlockPath) :=
  match state with
  | .done => do
    let valBlocks ← freeVal i p.2
    let keyBlocks ← freeKey i p.1
    pure (valBlocks ++ keyBlocks)
  | .val _ => freeKey i p.1
  | .key => some []

/-- The case `CONSUMER_TYPE_LIST`: all but the last, with both sides of the comparison as `int32_t`. -/
def ListConsumer.destroy (c : ListConsumer) (slot : Slot) : Option (List BlockPath) :=
  let size := (c.cells slot).length
  freeBelow freeElem (asInt32 (size + (2 ^ 32 - 1))) 0 (c.cells slot)

/-- The case `CONSUMER_TYPE_MAP`. The size is an `uint32_t`. -/
def MapConsumer.destroy (c : MapConsumer) (slot : Slot) : Option (List BlockPath) :=
  let size := (c.cells slot).length % 2 ^ 32
  if size = 0 then some []
  else do
    let released ← freeBelow freePair ((size - 1 : Nat) : Int) 0 (c.cells slot)
    let last ← (c.cells slot)[size - 1]?
    let lastReleased ← freeLastPair c.state (size - 1) last
    pure (released ++ lastReleased)

/-- The bin specs that one iteration of `_destroy_consumer_states` releases. -/
def Consumer.destroy : Consumer → Slot → Option (List BlockPath)
  | .list c, slot => c.destroy slot
  | .map c, slot => c.destroy slot

/-! ## All states -/

/-- Memory of a parse that is under way: a block of a bin spec in the array of a consumer state, the array, and the state itself. The
consumer states are numbered from the top level in. -/
inductive Owned where
  | spec (depth : Nat) (path : BlockPath)
  | listBuilder (depth : Nat)
  | state (depth : Nat)
deriving DecidableEq, Repr

/-- What belongs to a consumer state itself. The one for the top level is on the stack. -/
def ownedState : (depth : Nat) → List Owned
  | 0 => [.listBuilder 0]
  | depth + 1 => [.listBuilder (depth + 1), .state (depth + 1)]

/-- `_destroy_consumer_states`. Only the innermost array may have its last bin spec in another state than reserved. -/
def destroyConsumerStates : List Consumer → Slot → Option (List Owned)
  | [], _ => some []
  | c :: parents, slot => do
    let released ← c.destroy slot
    let rest ← destroyConsumerStates parents .reserved
    pure (released.map (.spec parents.length) ++ ownedState parents.length ++ rest)

/-- `bin_spec_free(bin_spec)` on a constant key that is refused. -/
def freeRefused (top : Consumer) : Slot → Option (List BlockPath)
  | .freed val =>
    match top with
    | .map c => (binSpecFree (.scalar 1 val)).map (List.map (.key c.listBuilder.length :: ·))
    | .list _ => none
  | _ => some []

/-- What an error of `_parse_bin_types` releases before it returns. -/
def ParseError.release (e : ParseError) : Option (List Owned) :=
  match e.states with
  | [] => none
  | top :: parents => do
    let refused ← freeRefused top e.slot
    let rest ← destroyConsumerStates (top :: parents) e.slot
    pure (refused.map (.spec parents.length) ++ rest)

/-! ## What there is to release -/

/-- The blocks of an array from index `i` on. -/
def blocksFrom {α : Type} (owns : Nat → α → List BlockPath) : (i : Nat) → List α → List BlockPath
  | _, [] => []
  | i, a :: as => owns i a ++ blocksFrom owns (i + 1) as

/-- The blocks of the bin spec at index `i` of a list. -/
def elemBlocks (i : Nat) (cell : SpecCell) : List BlockPath := cell.blocks.map (.elem i :: ·)

/-- The blocks of the pair at index `i` of a map. -/
def pairBlocks (i : Nat) (p : SpecCell × SpecCell) : List BlockPath := p.1.blocks.map (.key i :: ·) ++ p.2.blocks.map (.val i :: ·)

/-- The blocks in the array of a consumer state. -/
def Consumer.blocks : Consumer → Slot → List BlockPath
  | .list c, slot => blocksFrom elemBlocks 0 (c.cells slot)
  | .map c, slot => blocksFrom pairBlocks 0 (c.cells slot)

/-- All that consumer states own. -/
def ownedByStates : List Consumer → Slot → List Owned
  | [], _ => []
  | c :: parents, slot =>
    (c.blocks slot).map (.spec parents.length) ++ ownedState parents.length ++ ownedByStates parents .reserved

/-- All that is built and not yet part of something else when an error is found. -/
def ParseError.owned (e : ParseError) : List Owned := ownedByStates e.states e.slot

/-- The collection that the next iteration turns into a constant; its bin specs are then released. -/
def ParseState.folds (S : ParseState) : Option BinSpec :=
  if CText.peek S.str = S.top.delimiter then
    match S.top with
    | .list ⟨some n, true, listBuilder, listLen⟩ => some (.list n listLen listBuilder)
    | .map ⟨n, .key, true, [], _⟩ => some (.map n 0 0 [])
    | .map ⟨n, .done, true, listBuilder, listLen⟩ => some (.map n listBuilder.length listLen listBuilder)
    | _ => none
  else none

end AerospikeBenchmark
