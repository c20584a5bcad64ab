import AerospikeBenchmark.Lib.Consumed
import AerospikeBenchmark.ObjectSpec.Render

/-!
# The documented texts of an object spec

The format that the header and the usage text describe, constants included. A boolean is `T`, `F` or a whole word in any case; an
integer is decimal, with a minus if it is negative, or hexadecimal; a double is a decimal number with a point, which may have an
exponent and may end with an `f`; a string stands between quotes and may have the escapes of C. Everything else is as for a constant-free spec: multipliers
and lengths are plain numerals, elements are separated by single commas, and a blank may stand where the parser skips one.

`Tidy` is the condition on a text alone that marks off these texts among those the parser accepts.
-/

namespace AerospikeBenchmark

open CText

/-! ## Integers -/

/-- A decimal spelling of an integer of 64 bits. -/
def DecimalToken (k : Int) (tok : Text) : Prop :=
  ∃ sign ds, IsSign sign ∧ IsNumeral 10 ds ∧ tok = sign ++ ds ∧ signedVal 10 sign ds = k ∧ -2 ^ 63 ≤ k ∧ k < 2 ^ 63

/-- A hexadecimal spelling of a 64-bit pattern. -/
def HexToken (k : Int) (tok : Text) : Prop :=
  ∃ x ds, (x = 'x' ∨ x = 'X') ∧ IsNumeral 16 ds ∧ digitsVal 16 ds < 2 ^ 64 ∧ tok = '0' :: x :: ds ∧ toInt64 (digitsVal 16 ds) = k

/-- A spelling of an integer constant. -/
def IntToken (k : Int) (tok : Text) : Prop := DecimalToken k tok ∨ HexToken k tok

/-! ## Doubles -/

/-- A double constant: a decimal number with a point, perhaps a minus in front and an `f` behind. -/
structure DoubleLiteral extends PointedDecimal where
  neg : Bool
  marked : Bool

namespace DoubleLiteral

/-- The text of a double constant. -/
def literal (d : DoubleLiteral) : Text := (if d.neg then ['-'] else []) ++ (d.text ++ if d.marked then ['f'] else [])

/-- The bits of the nearest double. -/
def bits (d : DoubleLiteral) : Nat := (if d.neg then 2 ^ 63 else 0) + d.magnitude.toDouble.1

end DoubleLiteral

/-! ## String literals -/

/-- What stands between the quotes of a string literal, and the characters it denotes. -/
inductive LiteralBody : Text → Text → Prop where
  | nil : LiteralBody [] []
  | plain {c : Char} {s t : Text} : c ≠ '"' → c ≠ '\\' → LiteralBody s t → LiteralBody (c :: s) (c :: t)
  | simple {e d : Char} {s t : Text} : simpleEscapes.lookup e = some d → LiteralBody s t → LiteralBody ('\\' :: e :: s) (d :: t)
  | octal {e a b : Char} {s t : Text} : '0' ≤ e ∧ e ≤ '3' → isOctal a = true → isOctal b = true → LiteralBody s t →
      LiteralBody ('\\' :: e :: a :: b :: s) (Char.ofNat (digitOf e * 64 + digitOf a * 8 + digitOf b) :: t)
  | hex {a b : Char} {s t : Text} : isDigit 16 a = true → isDigit 16 b = true → LiteralBody s t →
      LiteralBody ('\\' :: 'x' :: a :: b :: s) (Char.ofNat (digitOf a * 16 + digitOf b) :: t)

/-! ## Bin types -/

/-- A scalar bin type or a constant. -/
def WrittenScalar : Scalar → Text → Prop
  | .constBool true, s => s = ['T'] ∨ s.map Char.toLower = ['t', 'r', 'u', 'e']
  | .constBool false, s => s = ['F'] ∨ s.map Char.toLower = ['f', 'a', 'l', 's', 'e']
  | .constInt k, s => IntToken k s ∧ peek s ≠ '+'
  | .constDouble v, s => ∃ d : DoubleLiteral, s = d.literal ∧ v = d.bits ∧ d.magnitude.toDouble.2 = false
  | .constStr t, s => ∃ body buf, LiteralBody body buf ∧ s = '"' :: (body ++ ['"']) ∧ t = cString buf
  | c, s => RendersScalar c s

/-- A scalar with its multiplier. -/
def WrittenLeaf (l : Leaf) (s : Text) : Prop := ∃ m b, RendersMult l.mult m ∧ WrittenScalar l.type b ∧ s = m ++ b

namespace SpecTree

mutual

/-- A documented text of a tree. -/
def Written : SpecTree → Text → Prop
  | .leaf l, s => WrittenLeaf l s
  | .list n es, s => ∃ m g body, RendersMult n m ∧ Gap g ∧ WrittenElems es body ∧ s = m ++ '[' :: (g ++ (body ++ [']']))
  | .map n kvs, s => ∃ m g body, RendersMult n m ∧ Gap g ∧ WrittenPairs kvs body ∧
      s = m ++ '\x7b' :: (g ++ (body ++ ['\x7d']))

/-- A documented text of the elements of a list or of the top level, without what ends it. -/
def WrittenElems : List SpecTree → Text → Prop
  | [], s => s = []
  | t :: ts, s => ∃ a b, Written t a ∧ s = a ++ b ∧
      ((ts = [] ∧ Gap b) ∨ (ts ≠ [] ∧ ∃ g c, Gap g ∧ WrittenElems ts c ∧ b = ',' :: (g ++ c)))

/-- A documented text of the pairs of a map, without the brace that ends it. -/
def WrittenPairs : List (Leaf × SpecTree) → Text → Prop
  | [], s => s = []
  | (k, v) :: kvs, s => ∃ a g g' b g'' c, WrittenLeaf k a ∧ Gap g ∧ Gap g' ∧ Written v b ∧ Gap g'' ∧
      s = a ++ (g ++ ':' :: (g' ++ (b ++ (g'' ++ c)))) ∧
      ((kvs = [] ∧ c = []) ∨ (kvs ≠ [] ∧ ∃ h d, Gap h ∧ WrittenPairs kvs d ∧ c = ',' :: (h ++ d)))

end

end SpecTree

/-- A documented object spec: a documented text of some trees whose numbers are in range. -/
def Documented (text : Text) : Prop := ∃ ts, SpecTree.WFList ts ∧ SpecTree.WrittenElems ts text

/-! ## Tidy texts -/

/-- What a character outside the string literals says about the text `s` behind it: white space is a single blank, a comma has
something behind it, the number after an `S` or a `B` starts at once, a hexadecimal number has no point, and a plus stands
only in an exponent or at the start of a literal. -/
structure PlainAt (c : Char) (s : Text) : Prop where
  blank : isSpace c = true → c = ' ' ∧ isSpace (peek s) = false
  comma : c = ',' → peek (skipBlank s) ≠ ']' ∧ peek (skipBlank s) ≠ '\x00'
  length : c = 'S' ∨ c = 'B' → strtoul 10 s ≠ none → isDigit 10 (peek s) = true
  point : c = 'x' ∨ c = 'X' → peek (afterDigits 16 s) ≠ '.'
  plus : peek s = '+' → c = 'e' ∨ c = 'E' ∨ c = '"'

instance (c : Char) (s : Text) : Decidable (PlainAt c s) :=
  decidable_of_iff ((isSpace c = true → c = ' ' ∧ isSpace (peek s) = false) ∧
      (c = ',' → peek (skipBlank s) ≠ ']' ∧ peek (skipBlank s) ≠ '\x00') ∧
      (c = 'S' ∨ c = 'B' → strtoul 10 s ≠ none → isDigit 10 (peek s) = true) ∧
      (c = 'x' ∨ c = 'X' → peek (afterDigits 16 s) ≠ '.') ∧ (peek s = '+' → c = 'e' ∨ c = 'E' ∨ c = '"'))
    ⟨fun h => ⟨h.1, h.2.1, h.2.2.1, h.2.2.2.1, h.2.2.2.2⟩, fun h => ⟨h.blank, h.comma, h.length, h.point, h.plus⟩⟩

/-- After a backslash: an `x` has two hexadecimal digits behind it. -/
def EscapeAt (s : Text) : Prop := peek s = 'x' → isDigit 16 (peek s.tail) = true ∧ isDigit 16 (peek s.tail.tail) = true

instance (s : Text) : Decidable (EscapeAt s) := inferInstanceAs (Decidable (_ → _))

/-- Where a text is scanned: outside a string literal, inside one, or behind a backslash inside one. -/
inductive ScanMode where
  | outside
  | inside
  | escape
deriving DecidableEq, Repr

/-- Every character outside the literals is plain, and so is every escape inside. -/
def TidyFrom : ScanMode → Text → Prop
  | _, [] => True
  | .outside, c :: s => PlainAt c s ∧ TidyFrom (if c = '"' then .inside else .outside) s
  | .inside, c :: s => (c = '\\' → EscapeAt s) ∧ TidyFrom (if c = '"' then .outside else if c = '\\' then .escape else .inside) s
  | .escape, _ :: s => TidyFrom .inside s

instance instDecidableTidyFrom : (mode : ScanMode) → (s : Text) → Decidable (TidyFrom mode s)
  | _, [] => isTrue (by simp [TidyFrom])
  | .outside, c :: s =>
    have := instDecidableTidyFrom (if c = '"' then .inside else .outside) s
    inferInstanceAs (Decidable (_ ∧ _))
  | .inside, c :: s =>
    have := instDecidableTidyFrom (if c = '"' then .outside else if c = '\\' then .escape else .inside) s
    inferInstanceAs (Decidable (_ ∧ _))
  | .escape, _ :: s => instDecidableTidyFrom .inside s

/-- A text that starts neither with white space nor with a plus. -/
structure Opening (s : Text) : Prop where
  space : isSpace (peek s) = false
  plus : peek s ≠ '+'

instance (s : Text) : Decidable (Opening s) :=
  decidable_of_iff (isSpace (peek s) = false ∧ peek s ≠ '+') ⟨fun h => ⟨h.1, h.2⟩, fun h => ⟨h.space, h.plus⟩⟩

/-- A text in which nothing stands that the parser takes and the format does not have. -/
structure Tidy (s : Text) : Prop where
  opening : Opening s
  plain : TidyFrom .outside s

instance (s : Text) : Decidable (Tidy s) :=
  decidable_of_iff (Opening s ∧ TidyFrom .outside s) ⟨fun h => ⟨h.1, h.2⟩, fun h => ⟨h.opening, h.plain⟩⟩

end AerospikeBenchmark
