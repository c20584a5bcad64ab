import AerospikeBenchmark.ObjectSpec.Basic

/-!
# Releasing a spec

The memory a parsed spec owns is a tree of blocks: the array of its bin specs, and for each bin spec that owns memory (a constant
string, a folded collection, a list or a map) one block, named by the way from the root to the bin spec. `bin_spec_free` and
`obj_spec_free` give the blocks they release, in the order in which they release them.
-/

namespace AerospikeBenchmark

/-- From a collection to a bin spec in it. -/
inductive BlockStep where
  | elem (i : Nat)
  | key (i : Nat)
  | val (i : Nat)
deriving DecidableEq, Repr

/-- The way from a spec to a bin spec in it. The block of the spec itself is the empty one. -/
abbrev BlockPath := List BlockStep

/-- `for (uint32_t i = 0, cnt = 0; cnt < length; i++) { cnt += a[i].n_repeats; bin_spec_free(&a[i]); }`, on the numbers `n_repeats` of
the array and what is released for each of its entries. There is no result when the loop leaves the array. -/
def freeLoop (length : Nat) : (cnt : Nat) → List (Nat × Option (List BlockPath)) → Option (List BlockPath)
  | cnt, [] => if cnt < length then none else some []
  | cnt, (nRepeats, entry) :: entries =>
    if cnt < length then do
      let released ← entry
      let rest ← freeLoop length ((cnt + nRepeats) % 2 ^ 32) entries
      pure (released ++ rest)
    else some []

mutual

/-- `bin_spec_free`. The loop for a map is bounded by `bin_spec->list.length`, which is `n_entries` in the memory of a map. -/
def binSpecFree : BinSpec → Option (List BlockPath)
  | .scalar _ (.constStr _) => some [[]]
  | .scalar _ _ => some []
  | .list _ length es => (freeLoop length 0 (elemEntries 0 es)).map (· ++ [[]])
  | .constList _ _ => some [[]]
  | .map _ nEntries _ kvs => (freeLoop nEntries 0 (pairEntriesFree 0 kvs)).map (· ++ [[]])
  | .constMap _ _ => some [[]]

/-- The entries of the array of a list, the first of which has index `i`. -/
def elemEntries (i : Nat) : List BinSpec → List (Nat × Option (List BlockPath))
  | [] => []
  | e :: es => (e.nRepeats, (binSpecFree e).map (List.map (.elem i :: ·))) :: elemEntries (i + 1) es

/-- The entries of the array of a map, the first of which has index `i`. -/
def pairEntriesFree (i : Nat) : List (BinSpec × BinSpec) → List (Nat × Option (List BlockPath))
  | [] => []
  | (k, v) :: kvs =>
    (k.nRepeats, do
      let keyBlocks ← binSpecFree k
      let valBlocks ← binSpecFree v
      pure (keyBlocks.map (.key i :: ·) ++ valBlocks.map (.val i :: ·))) :: pairEntriesFree (i + 1) kvs

end

/-- `obj_spec_free` on a valid handle: what is released of the array `bin_specs`. -/
def objSpecFree (binSpecs : List BinSpec) (nBinSpecs : Nat) : Option (List BlockPath) :=
  (freeLoop nBinSpecs 0 (elemEntries 0 binSpecs)).map (· ++ [[]])

/-! ## The blocks of a spec -/

mutual

/-- The blocks a bin spec owns. -/
def BinSpec.blocks : BinSpec → List BlockPath
  | .scalar _ (.constStr _) => [[]]
  | .scalar _ _ => []
  | .list _ _ es => blocksElems 0 es ++ [[]]
  | .constList _ _ => [[]]
  | .map _ _ _ kvs => blocksPairs 0 kvs ++ [[]]
  | .constMap _ _ => [[]]

/-- The blocks of the elements of a list, from index `i` on. -/
def blocksElems (i : Nat) : List BinSpec → List BlockPath
  | [] => []
  | e :: es => e.blocks.map (.elem i :: ·) ++ blocksElems (i + 1) es

/-- The blocks of the pairs of a map, from index `i` on. -/
def blocksPairs (i : Nat) : List (BinSpec × BinSpec) → List BlockPath
  | [] => []
  | (k, v) :: kvs => (k.blocks.map (.key i :: ·) ++ v.blocks.map (.val i :: ·)) ++ blocksPairs (i + 1) kvs

end

end AerospikeBenchmark
