import AerospikeBenchmark.ObjectSpec.Checked
import AerospikeBenchmark.ObjectSpec.Grammar

/-!
# The two passes over a string literal

`parse_string_literal` with the buffer it fills: the first pass counts the characters and finds the closing quote, the second one
stores a character for each step. What the two passes accept is a little more than the literals that are documented, since the two
characters after `\x` are read by `strtoul`.
-/

namespace AerospikeBenchmark

open CText

/-- The second pass, from index `i` of the buffer on: the characters it stores, each with its index, and where it ends, unless it
fails. -/
def fillBuffer (stop : Ptr) : (fuel i : Nat) → Ptr → Option (List (Char × Nat) × Except String Ptr)
  | 0, _, _ => none
  | fuel + 1, i, s =>
    if s.same stop then some ([], .ok s)
    else do
      let c ← s.load
      if c = '\\' then
        match ← Checked.decodeEscape s with
        | .error msg => return ([], .error msg)
        | .ok (d, s) =>
          let rest ← fillBuffer stop fuel (i + 1) s
          return ((d, i) :: rest.1, rest.2)
      else
        let rest ← fillBuffer stop fuel (i + 1) s.succ
        return ((c, i) :: rest.1, rest.2)

/-- A call of `parse_string_literal` that comes to the second pass: the length and the closing quote that the first pass has found, what
the second pass stores, and where it ends. -/
structure LiteralRun where
  len : Nat
  quote : Ptr
  stores : List (Char × Nat)
  finish : Except String Ptr

/-- What the call returns: all that is stored in the buffer, with the NUL behind the last character, and `*endptr`. -/
def LiteralRun.result (run : LiteralRun) : Except String (List (Char × Nat) × Ptr) :=
  run.finish.map fun _ => (run.stores ++ [('\x00', run.len)], run.quote.succ)

/-- `parse_string_literal`, up to the end of its second pass. -/
def runLiteral (str : Ptr) : Option (Except String LiteralRun) := do
  let c ← str.load
  if c = '"' then
    let fuel := (← str.string).length
    match ← Checked.literalEnd fuel str.succ with
    | .error msg => return .error msg
    | .ok (len, quote) =>
      let filled ← fillBuffer quote fuel 0 str.succ
      return .ok ⟨len, quote, filled.1, filled.2⟩
  else return .error "Expected a '\"' at the beginning of the string\n"

/-! ## What is accepted -/

/-- What may stand between the quotes, and the characters that are stored for it. -/
inductive AcceptedBody : Text → Text → Prop where
  | nil : AcceptedBody [] []
  | plain {c : Char} {s t : Text} : c ≠ '"' → c ≠ '\\' → AcceptedBody s t → AcceptedBody (c :: s) (c :: t)
  | simple {e d : Char} {s t : Text} : simpleEscapes.lookup e = some d → AcceptedBody s t → AcceptedBody ('\\' :: e :: s) (d :: t)
  | octal {e a b : Char} {s t : Text} : '0' ≤ e ∧ e ≤ '3' → isOctal a = true → isOctal b = true → AcceptedBody s t →
      AcceptedBody ('\\' :: e :: a :: b :: s) (Char.ofNat (digitOf e * 64 + digitOf a * 8 + digitOf b) :: t)
  | hex {a b : Char} {v : Scan Nat} {s t : Text} : strtoul 16 [a, b] = some v → v.rest = [] → AcceptedBody s t →
      AcceptedBody ('\\' :: 'x' :: a :: b :: s) (Char.ofNat (v.value % 256) :: t)

end AerospikeBenchmark
