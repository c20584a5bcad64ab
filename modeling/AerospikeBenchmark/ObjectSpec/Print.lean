import AerospikeBenchmark.Lib.Snprintf
import AerospikeBenchmark.ObjectSpec.Basic

/-!
# Printing a spec

`snprint_obj_spec` and `_sprint_bin`, on a buffer given by a pointer and a size. The texts of doubles and of folded collections are
made by the C library and the client library.
-/

namespace AerospikeBenchmark

open CText Snprintf

/-- The texts made by the libraries. -/
structure PrintLib where
  /-- `%.10lg`. -/
  double : Nat → Text
  /-- `as_val_tostring`. -/
  valToString : AsVal → Text

/-- The buffer while it is printed to: what has been stored, `out_str` as its distance from the start, and the size left. -/
structure OutBuf where
  mem : Stored
  out : Nat
  size : Nat

/-- The macro `sprint` on an output. -/
def sprint (s : Text) (b : OutBuf) : OutBuf where
  mem := snprintf b.mem b.out b.size s
  out := b.out + if written s < b.size then written s else b.size
  size := if written s < b.size then b.size - written s else 0

/-- The `%*.*s` of a constant string, width and precision both its length as an `int32_t`. A negative length gives no precision. -/
def constStrText (s : Text) : Text :=
  let len := asInt32 s.length
  if len < 0 then s else s.take len.toNat

/-- What `_sprint_bin` prints for a scalar. -/
def scalarText (L : PrintLib) : Scalar → Text
  | .bool => ['b']
  | .constBool true => ['t', 'r', 'u', 'e']
  | .constBool false => ['f', 'a', 'l', 's', 'e']
  | .int range => 'I' :: decimal (range + 1 : Nat)
  | .constInt v => decimal v
  | .str length => 'S' :: decimal length
  | .constStr s => '"' :: (constStrText s ++ ['"'])
  | .bytes length => 'B' :: decimal length
  | .double => ['D']
  | .constDouble bits => L.double bits ++ ['f']

/-- The multiplier, printed with `%d`. -/
def multText (n : Nat) : Text := decimal (asInt32 n) ++ ['*']

/-- `if (bin->n_repeats != 1) sprint(out_str, str_size, "%d*", bin->n_repeats)`. -/
def sprintMult (n : Nat) (b : OutBuf) : OutBuf := if n = 1 then b else sprint (multText n) b

mutual

/-- `_sprint_bin`. There is no result when a loop leaves its array. -/
def sprintBin (L : PrintLib) : BinSpec → OutBuf → Option OutBuf
  | .scalar n s, b => some (sprint (scalarText L s) (sprintMult n b))
  | .list n length es, b => do
    let b ← sprintElems L length 0 es (sprint ['['] (sprintMult n b))
    some (sprint [']'] b)
  | .constList n vs, b => some (sprint (L.valToString (.list vs)) (sprintMult n b))
  | .map n nEntries _ kvs, b => do
    let b ← sprintPairs L nEntries 0 kvs (sprint ['\x7b'] (sprintMult n b))
    some (sprint ['\x7d'] b)
  | .constMap n m, b => some (sprint (L.valToString (.map m)) (sprintMult n b))

/-- The loop over the elements of a list. -/
def sprintElems (L : PrintLib) (length : Nat) : (cnt : Nat) → List BinSpec → OutBuf → Option OutBuf
  | cnt, [], b => if cnt < length then none else some b
  | cnt, e :: es, b =>
    if cnt < length then do
      let b ← sprintBin L e b
      let cnt := (cnt + e.nRepeats) % 2 ^ 32
      sprintElems L length cnt es (if cnt ≠ length then sprint [','] b else b)
    else some b

/-- The loop over the pairs of a map. -/
def sprintPairs (L : PrintLib) (nEntries : Nat) : (entryIdx : Nat) → List (BinSpec × BinSpec) → OutBuf → Option OutBuf
  | entryIdx, [], b => if entryIdx < nEntries then none else some b
  | entryIdx, (k, v) :: kvs, b =>
    if entryIdx < nEntries then do
      let b ← sprintBin L k b
      let b ← sprintBin L v (sprint [':'] b)
      sprintPairs L nEntries (entryIdx + 1) kvs (if entryIdx < nEntries - 1 then sprint [','] b else b)
    else some b

end

/-- The loop of `snprint_obj_spec`. -/
def snprintLoop (L : PrintLib) (nBinSpecs : Nat) : (cnt : Nat) → List BinSpec → OutBuf → Option OutBuf
  | cnt, [], b => if cnt < nBinSpecs then none else some b
  | cnt, e :: es, b =>
    if cnt < nBinSpecs then do
      let b ← sprintBin L e b
      let cnt := (cnt + e.nRepeats) % 2 ^ 32
      snprintLoop L nBinSpecs cnt es (if cnt ≠ nBinSpecs ∧ 0 < b.size then sprint [',', ' '] b else b)
    else some b

/-- `snprint_obj_spec`: the buffer afterwards, with the NUL that is stored at the end. -/
def snprintObjSpec (L : PrintLib) (o : ObjSpec) (size : Nat) : Option OutBuf := do
  let b ← snprintLoop L o.nBinSpecs 0 o.binSpecs ⟨fun _ => none, 0, size⟩
  some { b with mem := store b.mem b.out ['\x00'] }

/-! ## The outputs -/

/-- Outputs with a separator between them. -/
def joinPieces (sep : Text) : List (List Text) → List Text
  | [] => []
  | [p] => p
  | p :: q :: ps => p ++ sep :: joinPieces sep (q :: ps)

/-- The output for a multiplier. -/
def multPieces (n : Nat) : List Text := if n = 1 then [] else [multText n]

mutual

/-- The outputs of a spec, one for each use of `sprint`. -/
def BinSpec.pieces (L : PrintLib) : BinSpec → List Text
  | .scalar n s => multPieces n ++ [scalarText L s]
  | .list n _ es => multPieces n ++ ['['] :: (joinPieces [','] (piecesList L es) ++ [[']']])
  | .constList n vs => multPieces n ++ [L.valToString (.list vs)]
  | .map n _ _ kvs => multPieces n ++ ['\x7b'] :: (joinPieces [','] (piecesPairs L kvs) ++ [['\x7d']])
  | .constMap n m => multPieces n ++ [L.valToString (.map m)]

/-- The outputs of each of some specs. -/
def piecesList (L : PrintLib) : List BinSpec → List (List Text)
  | [] => []
  | e :: es => e.pieces L :: piecesList L es

/-- The outputs of each of some pairs. -/
def piecesPairs (L : PrintLib) : List (BinSpec × BinSpec) → List (List Text)
  | [] => []
  | (k, v) :: kvs => (k.pieces L ++ [':'] :: v.pieces L) :: piecesPairs L kvs

end

/-- The full printed text of a spec. -/
def BinSpec.text (L : PrintLib) (e : BinSpec) : Text := (e.pieces L).flatten

/-- The outputs of an object spec. -/
def ObjSpec.pieces (L : PrintLib) (o : ObjSpec) : List Text := joinPieces [',', ' '] (piecesList L o.binSpecs)

/-- The full printed text of an object spec. -/
def ObjSpec.text (L : PrintLib) (o : ObjSpec) : Text := (o.pieces L).flatten

end AerospikeBenchmark
