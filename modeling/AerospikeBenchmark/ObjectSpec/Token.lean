import AerospikeBenchmark.Lib.Float
import AerospikeBenchmark.ObjectSpec.Basic

/-!
# Reading one token of an object spec

The part of `_parse_bin_types` that reads a multiplier and a bin type, with `_parse_const_val` and `parse_string_literal`. A
failure is the message and the place in the text that `_print_parse_error` is given.
-/

namespace AerospikeBenchmark

open CText

/-! ## String literals -/

/-- Whether a character is an octal digit. -/
def isOctal (c : Char) : Bool := '0' ≤ c && c ≤ '7'

/-- One character more in front of a string. -/
def oneMore : Except String (Nat × Text) → Except String (Nat × Text) := Except.map fun p => (p.1 + 1, p.2)

/-- The first pass of `parse_string_literal`, after the opening quote: the number of characters of the string, and the text from
the closing quote on. The error is the message printed. -/
def literalEnd : Text → Except String (Nat × Text)
  | [] => .error "Unterminated '\"' in string literal\n"
  | c :: r =>
    if c = '"' then .ok (0, c :: r)
    else if c = '\\' then
      match r with
      | [] => .error "Dangling escape character\n"
      | e :: r =>
        if e = 'x' then
          match r with
          | _ :: _ :: r => oneMore (literalEnd r)
          | _ => .error "Unterminated hexadecimal escape sequence\n"
        else if '0' ≤ e ∧ e ≤ '3' then
          match r with
          | a :: b :: r =>
            if isOctal a && isOctal b then oneMore (literalEnd r)
            else .error ("Invalid octal string \"" ++ String.ofList [c, e, a, b] ++ "\"\n")
          | _ => .error ("Invalid octal string \"" ++ String.ofList (c :: e :: r) ++ "\"\n")
        else oneMore (literalEnd r)
    else oneMore (literalEnd r)

/-- The escapes of a backslash and one character, and what they stand for. -/
def simpleEscapes : List (Char × Char) :=
  [('a', '\x07'), ('b', '\x08'), ('e', '\x1b'), ('f', '\x0c'), ('n', '\n'), ('r', '\r'), ('t', '\t'), ('v', '\x0b'),
    ('\\', '\\'), ('\'', '\''), ('"', '"'), ('?', '?')]

/-- The escape `\x` and two characters, which `strtoul` has to read both. -/
def hexEscape : Text → Except String (Char × Text)
  | a :: b :: r =>
    match strtoul 16 [a, b] with
    | some v =>
      if v.rest = [] then .ok (Char.ofNat (v.value % 256), r)
      else .error ("Invalid hexadecimal escape sequence \"\\" ++ String.ofList ['x', a, b] ++ "\"\n")
    | none => .error ("Invalid hexadecimal escape sequence \"\\" ++ String.ofList ['x', a, b] ++ "\"\n")
  | _ => .error "read past the end"

/-- An escape of three octal digits, the first of them given. -/
def octalEscape (e : Char) : Text → Except String (Char × Text)
  | a :: b :: r => .ok (Char.ofNat (digitOf e * 64 + digitOf a * 8 + digitOf b), r)
  | _ => .error "read past the end"

/-- What follows a backslash in the second pass: the character it stands for, and the text after it. -/
def decodeEscape : Text → Except String (Char × Text)
  | [] => .error "read past the end"
  | e :: r =>
    match simpleEscapes.lookup e with
    | some d => .ok (d, r)
    | none =>
      if '0' ≤ e ∧ e ≤ '3' then octalEscape e r
      else if e = 'x' then hexEscape r
      else .error ("Unknown escape sequence \"\\" ++ String.ofList [e] ++ "\"\n")

/-- The second pass of `parse_string_literal`: decode until the text left has the length `stop`, that of the text from the closing
quote on. Every iteration takes a character, so the length of the text is fuel enough; running out of it, like reading past the
end, would be reading beyond the NUL. -/
def decodeLiteral (stop : Nat) : Nat → Text → Except String Text
  | 0, s => if s.length = stop then .ok [] else .error "read past the end"
  | fuel + 1, s =>
    if s.length = stop then .ok []
    else if peek s = '\\' then do
      let p ← decodeEscape s.tail
      let t ← decodeLiteral stop fuel p.2
      pure (p.1 :: t)
    else do
      let t ← decodeLiteral stop fuel s.tail
      pure (peek s :: t)

/-- `parse_string_literal`: the buffer it fills, without the NUL it appends, and `*endptr`. -/
def parseStringLiteral (s : Text) : Except String (Text × Text) :=
  if peek s = '"' then do
    let p ← literalEnd s.tail
    let t ← decodeLiteral p.2.length s.length s.tail
    pure (t, p.2.tail)
  else .error "Expected a '\"' at the beginning of the string\n"

/-- The string a C function sees in a buffer: up to the first NUL. -/
def cString (buf : Text) : Text := buf.takeWhile fun c => c != '\x00'

example : parseStringLiteral "\"a\\x41\\102\\n\":".toList = .ok (['a', 'A', 'B', '\n'], [':']) := by decide +kernel

/-! ## Constant scalars -/

/-- Where a bin type stands: an element of a list or of the top level, a map key after the keys read so far, or a map value. -/
inductive Role where
  | elem
  | key (seen : List BinSpec)
  | val
deriving Repr

/-- Whether the type that is read is a map key. -/
def Role.isKey : Role → Bool
  | .key _ => true
  | _ => false

/-- Whether the type that is read is a map value. -/
def Role.isVal : Role → Bool
  | .val => true
  | _ => false

/-- A parse error: the message, the text from the place it points to, and a constant that is freed before the states are. -/
structure Fail where
  msg : String
  loc : Text
  freed : Option Scalar
deriving DecidableEq, Repr

/-- Fail with a message at a place. -/
def failAt {α : Type} (msg : String) (loc : Text) : Except Fail α := .error ⟨msg, loc, none⟩

/-- `_parse_const_val` on a boolean that ends before `r`. -/
def constBoolean (role : Role) (b : Bool) (s r : Text) : Except Fail (Scalar × Text) :=
  if role.isKey then failAt "Map key cannot be boolean" s else .ok (.constBool b, r)

/-- The message `_parse_const_val` ends with. -/
def expectSpecifier : String :=
  "Expect 'I', 'S', 'B', or 'D' specifier, a const value, or a list/map"

/-- `_parse_const_val` on a boolean written as a whole word, in any case. -/
def constWord (role : Role) (b : Bool) (word s : Text) : Except Fail (Scalar × Text) :=
  match dropWord word s with
  | some r => if (peek r).isAlpha then failAt expectSpecifier s else constBoolean role b s r
  | none => failAt expectSpecifier s

/-- The characters in which `_parse_const_val` looks for a point: up to the next comma or the delimiter of the collection. -/
def numberWindow (delim : Char) (s : Text) : Text := s.takeWhile fun c => c != ',' && c != delim

/-- `_parse_const_val` on a number with a point. -/
def constDouble (role : Role) (s : Text) : Except Fail (Scalar × Text) :=
  match strtod s with
  | none => failAt "Invalid floating point value" s
  | some r =>
    if r.erange then failAt "Invalid floating point value" s
    else if role.isKey then failAt "Map key cannot be double" s
    else .ok (.constDouble r.value, if peek r.rest = 'f' then r.rest.tail else r.rest)

/-- A 64-bit pattern as the `int64_t` it is stored in. -/
def toInt64 (n : Nat) : Int := if n < 2 ^ 63 then (n : Int) else (n : Int) - 2 ^ 64

/-- `_parse_const_val` on a number without a point. -/
def constInteger (s : Text) : Except Fail (Scalar × Text) :=
  let r : Option (Scan Int) :=
    if peek s = '0' ∧ (peek s.tail = 'x' ∨ peek s.tail = 'X') then
      (strtoul 16 s).map fun r => ⟨toInt64 r.value, r.rest, r.erange⟩
    else strtol 10 s
  match r with
  | none => failAt "Invalid integer value" s
  | some r => if r.erange then failAt "Invalid integer value" s else .ok (.constInt r.value, r.rest)

/-- `_parse_const_val`. -/
def parseConstVal (role : Role) (delim : Char) (s : Text) : Except Fail (Scalar × Text) :=
  if peek s = 'T' ∧ (peek s.tail).isAlpha = false then constBoolean role true s s.tail
  else if peek s = 'T' ∨ peek s = 't' then constWord role true ['t', 'r', 'u', 'e'] s
  else if peek s = 'F' ∧ (peek s.tail).isAlpha = false then constBoolean role false s s.tail
  else if peek s = 'F' ∨ peek s = 'f' then constWord role false ['f', 'a', 'l', 's', 'e'] s
  else if peek s = '"' then
    match parseStringLiteral s with
    | .error _ => failAt expectSpecifier s
    | .ok p => .ok (.constStr (cString p.1), p.2)
  else if '.' ∈ numberWindow delim s then constDouble role s
  else constInteger s

/-! ## Multipliers and bin types -/

/-- The optional multiplier in front of a bin type, 1 when there is none. A number without a `*` after it is left in the text. -/
def readMultiplier (role : Role) (s : Text) : Except Fail (Nat × Text) :=
  match strtoul 10 s with
  | none => .ok (1, s)
  | some r =>
    if r.erange ∨ isDigit 10 (peek s) = false then .ok (1, s)
    else if peek (skipBlank r.rest) = '*' then
      if role.isVal = true ∧ r.value ≠ 1 then failAt "Map value cannot have a multiplier" s
      else if r.value = 0 then failAt "Cannot have a multiplier of 0" s
      else if 2 ^ 32 ≤ r.value then failAt "Multiplier exceeds maximum unsigned 32-bit integer value" s
      else .ok (r.value, skipBlank (skipBlank r.rest).tail)
    else .ok (1, s)

/-- `as_double_get(a) == as_double_get(b)` on the bits. -/
def doubleEq (a b : Nat) : Bool :=
  let isNan (x : Nat) : Bool := binary64.infBits < x % 2 ^ 63
  !isNan a && !isNan b && (a == b || (a % 2 ^ 63 == 0 && b % 2 ^ 63 == 0))

/-- Whether two constant keys are of one type and equal. -/
def sameConstKey : Scalar → Scalar → Bool
  | .constBool a, .constBool b => a == b
  | .constInt a, .constInt b => a == b
  | .constStr a, .constStr b => a == b
  | .constDouble a, .constDouble b => doubleEq a b
  | _, _ => false

/-- `_consumer_state_map_repeat_const_key`: whether a constant key is among the keys read so far. -/
def repeatConstKey (seen : List BinSpec) (s : Scalar) : Bool :=
  seen.any fun
    | .scalar _ k => sameConstKey k s
    | _ => false

/-- What stands in front of the parser: a whole scalar, or the start of a collection. -/
inductive Token where
  | scalar (s : Scalar)
  | openList
  | openMap
deriving DecidableEq, Repr

/-- The number after an `S` or a `B`. -/
def readLength (missing invalid : String) (make : Nat → Scalar) (s : Text) : Except Fail (Token × Text) :=
  match strtoul 10 s with
  | none => failAt missing s
  | some r => if 2 ^ 32 ≤ r.value then failAt invalid s else .ok (.scalar (make r.value), r.rest)

/-- A bin type that no map key may have. -/
def unlessKey (role : Role) (msg : String) (s : Text) (t : Token) (r : Text) : Except Fail (Token × Text) :=
  if role.isKey then failAt msg s else .ok (t, r)

/-- A constant, with the two checks on constant map keys. -/
def readConstant (role : Role) (delim : Char) (mult : Nat) (s : Text) : Except Fail (Token × Text) :=
  match parseConstVal role delim s with
  | .error e => .error e
  | .ok (c, r) =>
    match role with
    | .key seen =>
      if mult ≠ 1 then .error ⟨"Map key cannot be a constant value if it has a multiplier > 1", s, some c⟩
      else if repeatConstKey seen c then .error ⟨"Key value is used more than once\n", s, some c⟩
      else .ok (.scalar c, r)
    | _ => .ok (.scalar c, r)

/-- The `switch` of `_parse_bin_types` over the first character of a bin type. -/
def readToken (role : Role) (delim : Char) (mult : Nat) (s : Text) : Except Fail (Token × Text) :=
  if peek s = 'b' then unlessKey role "Map key cannot be boolean" s (.scalar .bool) s.tail
  else if peek s = 'I' then
    if '1' ≤ peek s.tail ∧ peek s.tail ≤ '8' then .ok (.scalar (.int ((peek s.tail).toNat - 49)), s.tail.tail)
    else .ok (.scalar (.int 3), s.tail)
  else if peek s = 'S' then
    readLength "Expect a number following an 'S' specifier" "Invalid string length" .str s.tail
  else if peek s = 'B' then
    readLength "Expect a number following a 'B' specifier" "Invalid bytes length" .bytes s.tail
  else if peek s = 'D' then unlessKey role "Map key cannot be double" s (.scalar .double) s.tail
  else if peek s = '[' then
    unlessKey role "Map key must be scalar type, cannot be list" s .openList (skipBlank s.tail)
  else if peek s = '\x7b' then
    unlessKey role "Map key must be scalar type, cannot be map" s .openMap (skipBlank s.tail)
  else readConstant role delim mult s

/-- A multiplier and a bin type. -/
def readElement (role : Role) (delim : Char) (s : Text) : Except Fail (Nat × Token × Text) := do
  let m ← readMultiplier role s
  let t ← readToken role delim m.1 m.2
  pure (m.1, t)

end AerospikeBenchmark
