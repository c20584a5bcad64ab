import AerospikeBenchmark.ObjectSpec.Tree

/-!
# Texts of constant-free object specs

The documented format of an object spec, written out for a tree. A text may have one blank at each place the parser allows one:
after `[`, `{` and `,`, around `*`, around `:`, before `]` and `}`, before `,` inside a map and at the end of the text. Between
empty brackets there is one such place, and none in the empty text. A multiplier of 1 may be left out, and so may the number
after an `I` of four bytes. No constant has a rendering here.
-/

namespace AerospikeBenchmark

open CText

/-- At most one blank. -/
def Gap (g : Text) : Prop := g = [] ∨ g = [' ']

theorem skipBlank_gap {g s : Text} (hg : Gap g) (hs : peek s ≠ ' ') : skipBlank (g ++ s) = s := by
  rcases hg with rfl | rfl
  · exact skipBlank_of_ne hs
  · rfl

theorem peek_gap {g s : Text} (hg : Gap g) : peek (g ++ s) = ' ' ∨ peek (g ++ s) = peek s := by
  rcases hg with rfl | rfl
  · exact Or.inr rfl
  · exact Or.inl rfl

/-- What `skipBlank` skips. -/
theorem exists_gap (s : Text) : ∃ g, Gap g ∧ s = g ++ skipBlank s := by
  unfold skipBlank
  split
  · exact ⟨[' '], Or.inr rfl, rfl⟩
  · exact ⟨[], Or.inl rfl, rfl⟩

/-- A decimal numeral of a number. -/
structure Numeral (n : Nat) (ds : Text) : Prop where
  isNumeral : IsNumeral 10 ds
  value : digitsVal 10 ds = n

/-- A multiplier in front of a bin type: nothing for 1, or the number and a star. -/
def RendersMult (n : Nat) (s : Text) : Prop :=
  (n = 1 ∧ s = []) ∨ ∃ ds g g', Numeral n ds ∧ Gap g ∧ Gap g' ∧ s = ds ++ (g ++ '*' :: g')

/-- A random scalar type. -/
def RendersScalar : Scalar → Text → Prop
  | .bool, s => s = ['b']
  | .int r, s => s = ['I', Char.ofNat (r + 49)] ∨ (r = 3 ∧ s = ['I'])
  | .str n, s => ∃ ds, Numeral n ds ∧ s = 'S' :: ds
  | .bytes n, s => ∃ ds, Numeral n ds ∧ s = 'B' :: ds
  | .double, s => s = ['D']
  | _, _ => False

/-- A scalar with its multiplier. -/
def RendersLeaf (l : Leaf) (s : Text) : Prop := ∃ m b, RendersMult l.mult m ∧ RendersScalar l.type b ∧ s = m ++ b

namespace SpecTree

mutual

/-- A text of a tree. -/
def Renders : SpecTree → Text → Prop
  | .leaf l, s => RendersLeaf l s
  | .list n es, s => ∃ m g body, RendersMult n m ∧ Gap g ∧ RendersElems es body ∧ s = m ++ '[' :: (g ++ (body ++ [']']))
  | .map n kvs, s => ∃ m g body, RendersMult n m ∧ Gap g ∧ RendersPairs kvs body ∧
      s = m ++ '\x7b' :: (g ++ (body ++ ['\x7d']))

/-- A text of the elements of a list or of the top level, without what ends it. -/
def RendersElems : List SpecTree → Text → Prop
  | [], s => s = []
  | t :: ts, s => ∃ a b, Renders t a ∧ s = a ++ b ∧
      ((ts = [] ∧ Gap b) ∨ (ts ≠ [] ∧ ∃ g c, Gap g ∧ RendersElems ts c ∧ b = ',' :: (g ++ c)))

/-- A text of the pairs of a map, without the brace that ends it. -/
def RendersPairs : List (Leaf × SpecTree) → Text → Prop
  | [], s => s = []
  | (k, v) :: kvs, s => ∃ a g g' b g'' c, RendersLeaf k a ∧ Gap g ∧ Gap g' ∧ Renders v b ∧ Gap g'' ∧
      s = a ++ (g ++ ':' :: (g' ++ (b ++ (g'' ++ c)))) ∧
      ((kvs = [] ∧ c = []) ∨ (kvs ≠ [] ∧ ∃ h d, Gap h ∧ RendersPairs kvs d ∧ c = ',' :: (h ++ d)))

end

end SpecTree

end AerospikeBenchmark
