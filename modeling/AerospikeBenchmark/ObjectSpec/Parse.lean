import AerospikeBenchmark.ObjectSpec.Gen

/-!
# The object-spec parser

`_parse_bin_types` is a loop over a stack of consumer states. Each iteration either closes the collection on top of the stack or
reads one bin type; a scalar and a closed collection then go through the code after the `switch`, which stores the spec in the
collection around it and reads the separator (`finishElement`). The bin spec a collection is being parsed for is a reserved slot
of the collection around it; of that slot only the multiplier is set before the collection is closed, so the consumer state keeps
the multiplier.
-/

namespace AerospikeBenchmark

open CText Words

/-- `state->state` of a map. In `val` the key of the pair being read is already stored. -/
inductive MapState where
  | key
  | val (key : BinSpec)
  | done
deriving DecidableEq, Repr

/-- `struct consumer_state_s` of type `CONSUMER_TYPE_LIST`. The multiplier is that of `state->bin_spec`, which is NULL for the top
level. -/
structure ListConsumer where
  binSpec : Option Nat
  isConst : Bool
  listBuilder : List BinSpec
  listLen : Nat
deriving DecidableEq, Repr

/-- `struct consumer_state_s` of type `CONSUMER_TYPE_MAP`. -/
structure MapConsumer where
  binSpec : Nat
  state : MapState
  isConst : Bool
  listBuilder : List (BinSpec × BinSpec)
  listLen : Nat
deriving DecidableEq, Repr

/-- `struct consumer_state_s`, without its link to the parent. -/
inductive Consumer where
  | list (c : ListConsumer)
  | map (c : MapConsumer)
deriving DecidableEq, Repr

/-- `state->delimiter`. -/
def Consumer.delimiter : Consumer → Char
  | .list ⟨none, _, _, _⟩ => '\x00'
  | .list ⟨some _, _, _, _⟩ => ']'
  | .map _ => '\x7d'

/-- `state->is_const = is_const && state->is_const`. -/
def Consumer.andConst (isConst : Bool) : Consumer → Consumer
  | .list c => .list { c with isConst := isConst && c.isConst }
  | .map c => .map { c with isConst := isConst && c.isConst }

/-- The state of the loop: the consumer states from the innermost out, and `str`. -/
structure ParseState where
  top : Consumer
  parents : List Consumer
  str : Text
deriving DecidableEq, Repr

/-- What is in the last slot that the innermost collection had reserved when an error was found. -/
inductive Slot where
  | none
  | reserved
  | filled (spec : BinSpec)
  | freed (val : Scalar)
deriving DecidableEq, Repr

/-- A parse error: what is printed, and what `_destroy_consumer_states` is left with. -/
structure ParseError where
  msg : String
  loc : Text
  states : List Consumer
  slot : Slot
deriving DecidableEq, Repr

/-- The outcome of one iteration. -/
inductive StepResult where
  | next (S : ParseState)
  | done (specs : List BinSpec) (nBins : Nat)
  | error (e : ParseError)
  /-- A NULL pointer or a `__builtin_unreachable()` is reached. -/
  | fault
deriving DecidableEq, Repr

/-! ## After an element -/

/-- The code after the `switch` for a list: count the element, then a comma or the end of the list. -/
def finishList (c : ListConsumer) (parents : List Consumer) (spec : BinSpec) (str : Text) : StepResult :=
  let len := (c.listLen + spec.nRepeats) % 2 ^ 32
  let c' := { c with listLen := len }
  let added := { c' with listBuilder := c.listBuilder ++ [spec] }
  if len < spec.nRepeats then
    .error ⟨"Too many elements in a list (> 2**32)", str, .list c' :: parents, .filled spec⟩
  else if peek str = ',' then .next ⟨.list added, parents, skipBlank str.tail⟩
  else if peek (skipBlank str) ≠ (Consumer.list c).delimiter then
    .error ⟨"Expect ',' separating bin specifiers in a list", skipBlank str, .list c' :: parents, .filled spec⟩
  else .next ⟨.list added, parents, skipBlank str⟩

/-- The code after the `switch` for a map key: count it, then a colon. -/
def finishKey (c : MapConsumer) (parents : List Consumer) (spec : BinSpec) (str : Text) : StepResult :=
  let len := (c.listLen + spec.nRepeats) % 2 ^ 32
  let c' := { c with state := .val spec, listLen := len }
  if len < spec.nRepeats then
    .error ⟨"Too many elements in a map (> 2**32)", str, .map c' :: parents, .reserved⟩
  else if peek (skipBlank str) ≠ ':' then
    .error ⟨"Expect ':' separating key and value pair in a map", skipBlank str, .map c' :: parents, .reserved⟩
  else .next ⟨.map c', parents, skipBlank (skipBlank str).tail⟩

/-- The code after the `switch` for a map value: a comma and another pair, or the end of the map. -/
def finishValue (c : MapConsumer) (parents : List Consumer) (key spec : BinSpec) (str : Text) : StepResult :=
  let added := { c with state := .done, listBuilder := c.listBuilder ++ [(key, spec)] }
  let str := skipBlank str
  if peek str = ',' then .next ⟨.map { added with state := .key }, parents, skipBlank str.tail⟩
  else if peek str ≠ (Consumer.map c).delimiter then
    .error ⟨"Expect '\x7d' after key/value pair specifier in a map", str, .map added :: parents, .none⟩
  else .next ⟨.map added, parents, str⟩

/-- The code after the `switch`: `spec` has just been completed in the collection `c`. -/
def finishElement (c : Consumer) (parents : List Consumer) (spec : BinSpec) (str : Text) : StepResult :=
  match c with
  | .list c => finishList c parents spec str
  | .map c =>
    match c.state with
    | .key => finishKey c parents spec str
    | .val key => finishValue c parents key spec str
    | .done => .fault

/-! ## Closing a collection -/

/-- A collection that is constant is replaced by the value the generator makes of it without a random source. -/
def foldConst (R : AsRandom) (spec : BinSpec) : Option BinSpec :=
  match binSpecRandomVal R fullLength spec none with
  | .ok (.list vs, _) => some (.constList spec.nRepeats vs)
  | .ok (.map m, _) => some (.constMap spec.nRepeats m)
  | _ => none

/-- Fold a completed collection if it is constant. -/
def foldIf (R : AsRandom) (isConst : Bool) (spec : BinSpec) : Option BinSpec :=
  if isConst then foldConst R spec else some spec

/-- The collection on top of the stack is complete: pop it and go on in the one around it. -/
def popState (R : AsRandom) (isConst : Bool) (spec : BinSpec) (parents : List Consumer) (str : Text) : StepResult :=
  match foldIf R isConst spec, parents with
  | some spec, p :: ps => finishElement (p.andConst isConst) ps spec str
  | _, _ => .fault

/-- `*str == delim`: the collection on top of the stack ends here. -/
def closeCollection (R : AsRandom) (S : ParseState) : StepResult :=
  match S.top with
  | .list c =>
    match c.binSpec with
    | none => .done c.listBuilder c.listLen
    | some n => popState R c.isConst (.list n c.listLen c.listBuilder) S.parents S.str.tail
  | .map c =>
    match c.state with
    | .key =>
      if c.listBuilder = [] then popState R c.isConst (.map c.binSpec 0 0 []) S.parents S.str.tail
      else .error ⟨"Dangling ',' at end of map declaration", S.str, S.top :: S.parents, .none⟩
    | .val _ => .error ⟨"Map value cannot be empty", S.str, S.top :: S.parents, .reserved⟩
    | .done => popState R c.isConst (.map c.binSpec c.listBuilder.length c.listLen c.listBuilder) S.parents S.str.tail

/-! ## Reading an element -/

/-- What the collection on top of the stack expects next; nothing after a pair that was not followed by a comma. -/
def Consumer.role : Consumer → Option Role
  | .list _ => some .elem
  | .map c =>
    match c.state with
    | .key => some (.key (c.listBuilder.map Prod.fst))
    | .val _ => some .val
    | .done => none

/-- A new consumer state for a list whose spec has the multiplier `n`. -/
def newList (n : Nat) : Consumer := .list ⟨some n, true, [], 0⟩

/-- A new consumer state for a map whose spec has the multiplier `n`. -/
def newMap (n : Nat) : Consumer := .map ⟨n, .key, true, [], 0⟩

/-- `*str != delim`: the next bin type is read. -/
def consumeBinType (S : ParseState) : StepResult :=
  match S.top.role with
  | none => .fault
  | some role =>
    match readElement role S.top.delimiter S.str with
    | .error ⟨msg, loc, freed⟩ => .error ⟨msg, loc, S.top :: S.parents, freed.elim .reserved .freed⟩
    | .ok (mult, .scalar s, str) => finishElement (S.top.andConst s.isConst) S.parents (.scalar mult s) str
    | .ok (mult, .openList, str) => .next ⟨newList mult, S.top :: S.parents, str⟩
    | .ok (mult, .openMap, str) => .next ⟨newMap mult, S.top :: S.parents, str⟩

/-- One iteration of the loop of `_parse_bin_types`. -/
def parseStep (R : AsRandom) (S : ParseState) : StepResult :=
  if peek S.str = S.top.delimiter then closeCollection R S else consumeBinType S

/-! ## The loop -/

/-- Why there is no spec. -/
inductive ParseFailure where
  | error (e : ParseError)
  | fault
  | outOfFuel
deriving DecidableEq, Repr

/-- The loop of `_parse_bin_types`; the fuel bounds the iterations. -/
def parseLoop (R : AsRandom) : Nat → ParseState → Except ParseFailure ObjSpec
  | 0, _ => .error .outOfFuel
  | fuel + 1, S =>
    match parseStep R S with
    | .next S' => parseLoop R fuel S'
    | .done specs n => .ok ⟨specs, n⟩
    | .error e => .error (.error e)
    | .fault => .error .fault

/-- The state in which the loop starts. The top level is never constant. -/
def beginState (str : Text) : ParseState := ⟨.list ⟨none, false, [], 0⟩, [], str⟩

/-- `obj_spec_parse`. Every iteration but the last moves `str` forward, so the fuel does not run out. -/
def objSpecParse (R : AsRandom) (str : Text) : Except ParseFailure ObjSpec :=
  parseLoop R (str.length + 1) (beginState str)

end AerospikeBenchmark
