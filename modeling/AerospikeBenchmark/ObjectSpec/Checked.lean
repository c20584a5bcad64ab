import AerospikeBenchmark.Lib.CPointer
import AerospikeBenchmark.ObjectSpec.Parse

/-!
# The object-spec parser on pointers

`parse_string_literal`, `_parse_const_val` and `_parse_bin_types` once more, now with every `*str` as a read through a pointer that
may have been moved beyond the NUL, in the order of the source. There is no result when such a read is made, and none when a loop has
run out of its fuel. Error messages and the stores of the loop are as in `ObjectSpec.Token` and `ObjectSpec.Parse`.
-/

namespace AerospikeBenchmark

namespace Checked

open CText

/-! ## String literals -/

/-- One character more in front of a string. -/
def oneMore : Except String (Nat × Ptr) → Except String (Nat × Ptr) := Except.map fun p => (p.1 + 1, p.2)

/-- `fprintf(stderr, "Invalid octal string \"%.4s\"\n", end - 1)`. -/
def invalidOctal (p : Ptr) : Option (Except String (Nat × Ptr)) := do
  let s ← p.string
  return .error ("Invalid octal string \"" ++ String.ofList (s.take 4) ++ "\"\n")

/-- The first pass of `parse_string_literal`: the number of characters of the string, and the pointer to the closing quote. -/
def literalEnd : (fuel : Nat) → Ptr → Option (Except String (Nat × Ptr))
  | 0, _ => none
  | fuel + 1, p => do
    let c ← p.load
    if c = '"' then return .ok (0, p)
    else if c = '\x00' then return .error "Unterminated '\"' in string literal\n"
    else if c = '\\' then
      let e ← p.succ.load
      if e = '\x00' then return .error "Dangling escape character\n"
      else if e = 'x' then
        let a ← (p.add 2).load
        if a = '\x00' then return .error "Unterminated hexadecimal escape sequence\n"
        else
          let b ← (p.add 3).load
          if b = '\x00' then return .error "Unterminated hexadecimal escape sequence\n"
          else (literalEnd fuel (p.add 4)).map oneMore
      else if '0' ≤ e ∧ e ≤ '3' then
        let a ← (p.add 2).load
        if isOctal a = false then invalidOctal p
        else
          let b ← (p.add 3).load
          if isOctal b = false then invalidOctal p else (literalEnd fuel (p.add 4)).map oneMore
      else (literalEnd fuel (p.add 2)).map oneMore
    else (literalEnd fuel p.succ).map oneMore

/-- The escape at `p` in the second pass: the character it stands for, and the pointer past it. The two bytes after `\x` are copied,
whatever they are, and then read as a string. -/
def decodeEscape (p : Ptr) : Option (Except String (Char × Ptr)) := do
  let e ← p.succ.load
  match simpleEscapes.lookup e with
  | some d => return .ok (d, p.add 2)
  | none =>
    if '0' ≤ e ∧ e ≤ '3' then
      let a ← (p.add 2).load
      let b ← (p.add 3).load
      return .ok (Char.ofNat (digitOf e * 64 + digitOf a * 8 + digitOf b), p.add 4)
    else if e = 'x' then
      let a ← (p.add 2).load
      let b ← (p.add 3).load
      let invalid := .error ("Invalid hexadecimal escape sequence \"\\" ++ String.ofList ['x', a, b] ++ "\"\n")
      match strtoul 16 (cString [a, b]) with
      | some v => if v.rest = [] then return .ok (Char.ofNat (v.value % 256), p.add 4) else return invalid
      | none => return invalid
    else return .error ("Unknown escape sequence \"\\" ++ String.ofList [e] ++ "\"\n")

/-- The second pass of `parse_string_literal`, up to the closing quote at `stop`. -/
def decodeLiteral (stop : Ptr) : (fuel : Nat) → Ptr → Option (Except String Text)
  | 0, _ => none
  | fuel + 1, p =>
    if p.same stop then some (.ok [])
    else do
      let c ← p.load
      if c = '\\' then
        match ← decodeEscape p with
        | .error msg => return .error msg
        | .ok (d, q) => (decodeLiteral stop fuel q).map (Except.map (d :: ·))
      else (decodeLiteral stop fuel p.succ).map (Except.map (c :: ·))

/-- `parse_string_literal`: the buffer it fills, without the NUL it appends, and `*endptr`. -/
def parseStringLiteral (p : Ptr) : Option (Except String (Text × Ptr)) := do
  let c ← p.load
  if c = '"' then
    let fuel := (← p.string).length
    match ← literalEnd fuel p.succ with
    | .error msg => return .error msg
    | .ok (_, stop) =>
      match ← decodeLiteral stop fuel p.succ with
      | .error msg => return .error msg
      | .ok t => return .ok (t, stop.succ)
  else return .error "Expected a '\"' at the beginning of the string\n"

/-! ## Constant scalars -/

/-- `_print_parse_error`, which reads the text from the place on. -/
def failAt {α : Type} (msg : String) (loc : Ptr) : Option (Except Fail α) := do
  let s ← loc.string
  return .error ⟨msg, s, none⟩

/-- `_parse_const_val` on a boolean that ends before `rest`. -/
def constBoolean (role : Role) (b : Bool) (p rest : Ptr) : Option (Except Fail (Scalar × Ptr)) :=
  if role.isKey then failAt "Map key cannot be boolean" p else some (.ok (.constBool b, rest))

/-- `_parse_const_val` on a boolean written as a whole word. The character behind it is read only if the word is there. -/
def constWord (role : Role) (b : Bool) (word : Text) (p : Ptr) : Option (Except Fail (Scalar × Ptr)) := do
  let s ← p.string
  match dropWord word s with
  | some _ =>
    let c ← (p.add word.length).load
    if c.isAlpha then failAt expectSpecifier p else constBoolean role b p (p.add word.length)
  | none => failAt expectSpecifier p

/-- `_parse_const_val` on a number with a point. -/
def constDouble (role : Role) (p : Ptr) : Option (Except Fail (Scalar × Ptr)) := do
  let s ← p.string
  match strtod s with
  | none => failAt "Invalid floating point value" p
  | some r =>
    if r.erange then failAt "Invalid floating point value" p
    else if role.isKey then failAt "Map key cannot be double" p
    else
      let endptr := Ptr.ahead r.rest
      let c ← endptr.load
      return .ok (.constDouble r.value, if c = 'f' then endptr.succ else endptr)

/-- Whether a number starts with `0x`. -/
def startsHex (p : Ptr) : Option Bool := do
  let c ← p.load
  if c = '0' then
    let x ← p.succ.load
    return x = 'x' || x = 'X'
  else return false

/-- `_parse_const_val` on a number without a point. -/
def constInteger (p : Ptr) : Option (Except Fail (Scalar × Ptr)) := do
  let s ← p.string
  let hex ← startsHex p
  let r : Option (Scan Int) :=
    if hex then (strtoul 16 s).map fun r => ⟨toInt64 r.value, r.rest, r.erange⟩ else strtol 10 s
  match r with
  | none => failAt "Invalid integer value" p
  | some r => if r.erange then failAt "Invalid integer value" p else return .ok (.constInt r.value, .ahead r.rest)

/-- The first character of a boolean: the letter alone, or the first of the word. -/
def constLetter (role : Role) (b : Bool) (word : Text) (p : Ptr) : Option (Except Fail (Scalar × Ptr)) := do
  let c ← p.succ.load
  if c.isAlpha = false then constBoolean role b p p.succ else constWord role b word p

/-- `_parse_const_val`. -/
def parseConstVal (role : Role) (delim : Char) (p : Ptr) : Option (Except Fail (Scalar × Ptr)) := do
  let c ← p.load
  if c = 'T' then constLetter role true ['t', 'r', 'u', 'e'] p
  else if c = 't' then constWord role true ['t', 'r', 'u', 'e'] p
  else if c = 'F' then constLetter role false ['f', 'a', 'l', 's', 'e'] p
  else if c = 'f' then constWord role false ['f', 'a', 'l', 's', 'e'] p
  else if c = '"' then
    match ← parseStringLiteral p with
    | .error _ => failAt expectSpecifier p
    | .ok q => return .ok (.constStr (cString q.1), q.2)
  else
    let s ← p.string
    if '.' ∈ numberWindow delim s then constDouble role p else constInteger p

/-! ## Multipliers and bin types -/

/-- The optional multiplier in front of a bin type. -/
def readMultiplier (role : Role) (p : Ptr) : Option (Except Fail (Nat × Ptr)) := do
  let s ← p.string
  match strtoul 10 s with
  | none => return .ok (1, p)
  | some r =>
    let c ← p.load
    if r.erange ∨ isDigit 10 c = false then return .ok (1, p)
    else
      let endptr ← skipBlankAt (.ahead r.rest)
      let star ← endptr.load
      if star = '*' then
        if role.isVal = true ∧ r.value ≠ 1 then failAt "Map value cannot have a multiplier" p
        else if r.value = 0 then failAt "Cannot have a multiplier of 0" p
        else if 2 ^ 32 ≤ r.value then failAt "Multiplier exceeds maximum unsigned 32-bit integer value" p
        else return .ok (r.value, ← skipBlankAt endptr.succ)
      else return .ok (1, p)

/-- The number after an `S` or a `B`. -/
def readLength (missing invalid : String) (make : Nat → Scalar) (p : Ptr) : Option (Except Fail (Token × Ptr)) := do
  let s ← p.string
  match strtoul 10 s with
  | none => failAt missing p
  | some r => if 2 ^ 32 ≤ r.value then failAt invalid p else return .ok (.scalar (make r.value), .ahead r.rest)

/-- A bin type of one character that no map key may have. -/
def unlessKey (role : Role) (msg : String) (p : Ptr) (t : Token) (rest : Option Ptr) : Option (Except Fail (Token × Ptr)) :=
  if role.isKey then failAt msg p else rest.map fun q => .ok (t, q)

/-- A constant, with the two checks on constant map keys. -/
def readConstant (role : Role) (delim : Char) (mult : Nat) (p : Ptr) : Option (Except Fail (Token × Ptr)) := do
  match ← parseConstVal role delim p with
  | .error e => return .error e
  | .ok (c, q) =>
    match role with
    | .key seen =>
      let loc ← p.string
      if mult ≠ 1 then return .error ⟨"Map key cannot be a constant value if it has a multiplier > 1", loc, some c⟩
      else if repeatConstKey seen c then return .error ⟨"Key value is used more than once\n", loc, some c⟩
      else return .ok (.scalar c, q)
    | _ => return .ok (.scalar c, q)

/-- The `switch` of `_parse_bin_types` over the first character of a bin type. -/
def readToken (role : Role) (delim : Char) (mult : Nat) (p : Ptr) : Option (Except Fail (Token × Ptr)) := do
  let c ← p.load
  if c = 'b' then unlessKey role "Map key cannot be boolean" p (.scalar .bool) (some p.succ)
  else if c = 'I' then
    let d ← p.succ.load
    if '1' ≤ d ∧ d ≤ '8' then return .ok (.scalar (.int (d.toNat - 49)), p.add 2)
    else return .ok (.scalar (.int 3), p.succ)
  else if c = 'S' then
    readLength "Expect a number following an 'S' specifier" "Invalid string length" .str p.succ
  else if c = 'B' then
    readLength "Expect a number following a 'B' specifier" "Invalid bytes length" .bytes p.succ
  else if c = 'D' then unlessKey role "Map key cannot be double" p (.scalar .double) (some p.succ)
  else if c = '[' then unlessKey role "Map key must be scalar type, cannot be list" p .openList (skipBlankAt p.succ)
  else if c = '\x7b' then unlessKey role "Map key must be scalar type, cannot be map" p .openMap (skipBlankAt p.succ)
  else readConstant role delim mult p

/-- A multiplier and a bin type. -/
def readElement (role : Role) (delim : Char) (p : Ptr) : Option (Except Fail (Nat × Token × Ptr)) := do
  match ← readMultiplier role p with
  | .error e => return .error e
  | .ok (mult, q) =>
    match ← readToken role delim mult q with
    | .error e => return .error e
    | .ok t => return .ok (mult, t)

/-! ## The loop -/

/-- The iteration ends with `str` at `p`, which the next one reads. -/
def goOn (top : Consumer) (parents : List Consumer) (p : Ptr) : Option StepResult := do
  let s ← p.string
  return .next ⟨top, parents, s⟩

/-- The iteration ends with an error at `p`. -/
def stopAt (msg : String) (p : Ptr) (states : List Consumer) (slot : Slot) : Option StepResult := do
  let s ← p.string
  return .error ⟨msg, s, states, slot⟩

/-- The code after the `switch` for a list. -/
def finishList (c : ListConsumer) (parents : List Consumer) (spec : BinSpec) (p : Ptr) : Option StepResult := do
  let len := (c.listLen + spec.nRepeats) % 2 ^ 32
  let c' := { c with listLen := len }
  let added := { c' with listBuilder := c.listBuilder ++ [spec] }
  if len < spec.nRepeats then stopAt "Too many elements in a list (> 2**32)" p (.list c' :: parents) (.filled spec)
  else
    let comma ← p.load
    if comma = ',' then goOn (.list added) parents (← skipBlankAt p.succ)
    else
      let q ← skipBlankAt p
      let d ← q.load
      if d ≠ (Consumer.list c).delimiter then
        stopAt "Expect ',' separating bin specifiers in a list" q (.list c' :: parents) (.filled spec)
      else goOn (.list added) parents q

/-- The code after the `switch` for a map key. -/
def finishKey (c : MapConsumer) (parents : List Consumer) (spec : BinSpec) (p : Ptr) : Option StepResult := do
  let len := (c.listLen + spec.nRepeats) % 2 ^ 32
  let c' := { c with state := .val spec, listLen := len }
  if len < spec.nRepeats then stopAt "Too many elements in a map (> 2**32)" p (.map c' :: parents) .reserved
  else
    let q ← skipBlankAt p
    let d ← q.load
    if d ≠ ':' then stopAt "Expect ':' separating key and value pair in a map" q (.map c' :: parents) .reserved
    else goOn (.map c') parents (← skipBlankAt q.succ)

/-- The code after the `switch` for a map value. -/
def finishValue (c : MapConsumer) (parents : List Consumer) (key spec : BinSpec) (p : Ptr) : Option StepResult := do
  let added := { c with state := .done, listBuilder := c.listBuilder ++ [(key, spec)] }
  let q ← skipBlankAt p
  let d ← q.load
  if d = ',' then goOn (.map { added with state := .key }) parents (← skipBlankAt q.succ)
  else if d ≠ (Consumer.map c).delimiter then
    stopAt "Expect '\x7d' after key/value pair specifier in a map" q (.map added :: parents) .none
  else goOn (.map added) parents q

/-- The code after the `switch`. -/
def finishElement (c : Consumer) (parents : List Consumer) (spec : BinSpec) (p : Ptr) : Option StepResult :=
  match c with
  | .list c => finishList c parents spec p
  | .map c =>
    match c.state with
    | .key => finishKey c parents spec p
    | .val key => finishValue c parents key spec p
    | .done => some .fault

/-- The collection on top of the stack is complete. -/
def popState (R : AsRandom) (isConst : Bool) (spec : BinSpec) (parents : List Consumer) (p : Ptr) : Option StepResult :=
  match foldIf R isConst spec, parents with
  | some spec, parent :: ps => finishElement (parent.andConst isConst) ps spec p
  | _, _ => some .fault

/-- `*str == delim`: the collection on top of the stack ends at `p`. -/
def closeCollection (R : AsRandom) (top : Consumer) (parents : List Consumer) (p : Ptr) : Option StepResult :=
  match top with
  | .list c =>
    match c.binSpec with
    | none => some (.done c.listBuilder c.listLen)
    | some n => popState R c.isConst (.list n c.listLen c.listBuilder) parents p.succ
  | .map c =>
    match c.state with
    | .key =>
      if c.listBuilder = [] then popState R c.isConst (.map c.binSpec 0 0 []) parents p.succ
      else stopAt "Dangling ',' at end of map declaration" p (top :: parents) .none
    | .val _ => stopAt "Map value cannot be empty" p (top :: parents) .reserved
    | .done => popState R c.isConst (.map c.binSpec c.listBuilder.length c.listLen c.listBuilder) parents p.succ

/-- `*str != delim`: the next bin type is read at `p`. -/
def consumeBinType (top : Consumer) (parents : List Consumer) (p : Ptr) : Option StepResult :=
  match top.role with
  | none => some .fault
  | some role => do
    match ← readElement role top.delimiter p with
    | .error ⟨msg, loc, freed⟩ => return .error ⟨msg, loc, top :: parents, freed.elim .reserved .freed⟩
    | .ok (mult, .scalar s, q) => finishElement (top.andConst s.isConst) parents (.scalar mult s) q
    | .ok (mult, .openList, q) => goOn (newList mult) (top :: parents) q
    | .ok (mult, .openMap, q) => goOn (newMap mult) (top :: parents) q

/-- One iteration of the loop of `_parse_bin_types`. -/
def parseStep (R : AsRandom) (S : ParseState) : Option StepResult := do
  let p := Ptr.ahead S.str
  let c ← p.load
  if c = S.top.delimiter then closeCollection R S.top S.parents p else consumeBinType S.top S.parents p

/-- The loop of `_parse_bin_types`; the fuel bounds the iterations. -/
def parseLoop (R : AsRandom) : Nat → ParseState → Option (Except ParseFailure ObjSpec)
  | 0, _ => some (.error .outOfFuel)
  | fuel + 1, S => do
    match ← parseStep R S with
    | .next S' => parseLoop R fuel S'
    | .done specs n => return .ok ⟨specs, n⟩
    | .error e => return .error (.error e)
    | .fault => return .error .fault

/-- `obj_spec_parse`. -/
def objSpecParse (R : AsRandom) (str : Text) : Option (Except ParseFailure ObjSpec) :=
  parseLoop R (str.length + 1) (beginState str)

end Checked

end AerospikeBenchmark
