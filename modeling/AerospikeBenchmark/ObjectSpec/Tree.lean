import AerospikeBenchmark.ObjectSpec.Parse

/-!
# Spec trees and the language of the parser

What an object spec says, before the parser computes lengths and folds constants: a tree of bin types with multipliers. `build` is
the bin spec the parser stores for a tree, `unfolded` the one it would store if it never folded a constant collection.
`Reads` relates a tree to the texts the parser reads it from, with no stack: by recursion on the tree.
-/

namespace AerospikeBenchmark

open CText

/-- A scalar with its multiplier. Map keys are scalars, so a pair of a map has a leaf as its key. -/
structure Leaf where
  mult : Nat
  type : Scalar
deriving DecidableEq, Repr

/-- The bin spec of a scalar. -/
def Leaf.build (l : Leaf) : BinSpec := .scalar l.mult l.type

/-- An object spec as a tree. -/
inductive SpecTree where
  | leaf (l : Leaf)
  | list (mult : Nat) (es : List SpecTree)
  | map (mult : Nat) (kvs : List (Leaf × SpecTree))
deriving Repr

namespace SpecTree

/-- Induction over a tree, with the hypothesis for every element and every value. -/
@[elab_as_elim]
theorem induct {P : SpecTree → Prop} (leaf : ∀ l, P (.leaf l)) (list : ∀ n es, (∀ t ∈ es, P t) → P (.list n es))
    (map : ∀ n kvs, (∀ p ∈ kvs, P p.2) → P (.map n kvs)) : ∀ t, P t
  | .leaf l => leaf l
  | .list n es => list n es fun t _ => induct leaf list map t
  | .map n kvs => map n kvs fun p _ => induct leaf list map p.2
termination_by t => sizeOf t
decreasing_by
  · have := List.sizeOf_lt_of_mem ‹_›
    simp only [SpecTree.list.sizeOf_spec]
    omega
  · have := List.sizeOf_lt_of_mem ‹_›
    obtain ⟨k, v⟩ := p
    simp only [Prod.mk.sizeOf_spec] at this
    simp only [SpecTree.map.sizeOf_spec]
    omega

/-- The multiplier of a tree. -/
def mult : SpecTree → Nat
  | .leaf l => l.mult
  | .list n _ | .map n _ => n

/-- The number of values some trees stand for. -/
def total (ts : List SpecTree) : Nat := (ts.map mult).sum

/-- The number of entries the keys of some pairs ask for. -/
def keyTotal (kvs : List (Leaf × SpecTree)) : Nat := (kvs.map fun p => p.1.mult).sum

@[simp] theorem total_nil : total [] = 0 := rfl

@[simp] theorem total_cons (t : SpecTree) (ts : List SpecTree) : total (t :: ts) = t.mult + total ts := by
  simp [total]

@[simp] theorem keyTotal_nil : keyTotal [] = 0 := rfl

@[simp] theorem keyTotal_cons (p : Leaf × SpecTree) (kvs : List (Leaf × SpecTree)) :
    keyTotal (p :: kvs) = p.1.mult + keyTotal kvs := by
  simp [keyTotal]

/-! ## Constant trees -/

mutual

/-- Whether no descendant of a tree is a random type. -/
def isConst : SpecTree → Bool
  | .leaf l => l.type.isConst
  | .list _ es => allConst es
  | .map _ kvs => allConstPairs kvs

/-- Whether some trees are all constant. -/
def allConst : List SpecTree → Bool
  | [] => true
  | t :: ts => t.isConst && allConst ts

/-- Whether the keys and the values of some pairs are all constant. -/
def allConstPairs : List (Leaf × SpecTree) → Bool
  | [] => true
  | (k, v) :: kvs => k.type.isConst && v.isConst && allConstPairs kvs

end

/-- The value of a constant leaf. -/
def leafVal (l : Leaf) : AsVal := l.type.constVal?.getD (.bool false)

mutual

/-- The value a constant tree stands for, once. -/
def constVal : SpecTree → AsVal
  | .leaf l => leafVal l
  | .list _ es => .list (constVals es)
  | .map _ kvs => .map (constEntries kvs)

/-- The values constant trees stand for, each as often as its multiplier says. -/
def constVals : List SpecTree → List AsVal
  | [] => []
  | t :: ts => List.replicate t.mult t.constVal ++ constVals ts

/-- One entry for each pair of a constant map. -/
def constEntries : List (Leaf × SpecTree) → AsMap
  | [] => []
  | (k, v) :: kvs => (leafVal k, v.constVal) :: constEntries kvs

end

/-! ## The bin specs of a tree -/

mutual

/-- The bin spec the parser stores for a tree: lengths are sums of multipliers, constant collections are folded. -/
def build : SpecTree → BinSpec
  | .leaf l => l.build
  | .list n es => if allConst es then .constList n (constVals es) else .list n (total es) (buildList es)
  | .map n kvs =>
    if allConstPairs kvs then .constMap n (constEntries kvs) else .map n kvs.length (keyTotal kvs) (buildPairs kvs)

/-- The bin specs of some trees. -/
def buildList : List SpecTree → List BinSpec
  | [] => []
  | t :: ts => t.build :: buildList ts

/-- The key/value pairs of some pairs. -/
def buildPairs : List (Leaf × SpecTree) → List (BinSpec × BinSpec)
  | [] => []
  | (k, v) :: kvs => (k.build, v.build) :: buildPairs kvs

end

mutual

/-- The bin spec of a tree without folding: every collection is a plain list or map spec. -/
def unfolded : SpecTree → BinSpec
  | .leaf l => l.build
  | .list n es => .list n (total es) (unfoldedList es)
  | .map n kvs => .map n kvs.length (keyTotal kvs) (unfoldedPairs kvs)

/-- The unfolded bin specs of some trees. -/
def unfoldedList : List SpecTree → List BinSpec
  | [] => []
  | t :: ts => t.unfolded :: unfoldedList ts

/-- The unfolded key/value pairs of some pairs. -/
def unfoldedPairs : List (Leaf × SpecTree) → List (BinSpec × BinSpec)
  | [] => []
  | (k, v) :: kvs => (k.build, v.unfolded) :: unfoldedPairs kvs

end

theorem nRepeats_build (t : SpecTree) : t.build.nRepeats = t.mult := by
  cases t with
  | leaf l => rfl
  | list n es => simp only [build]; split <;> rfl
  | map n kvs => simp only [build]; split <;> rfl

theorem buildList_eq_map (ts : List SpecTree) : buildList ts = ts.map build := by
  induction ts with
  | nil => rfl
  | cons t ts ih => simp [buildList, ih]

theorem buildPairs_eq_map (kvs : List (Leaf × SpecTree)) : buildPairs kvs = kvs.map fun p => (p.1.build, p.2.build) := by
  induction kvs with
  | nil => rfl
  | cons p kvs ih => simp [buildPairs, ih]

@[simp] theorem totalRepeats_map_build (ts : List SpecTree) : totalRepeats (ts.map build) = total ts := by
  simp [totalRepeats, total, List.map_map, Function.comp_def, nRepeats_build]

/-! ## Well-formed trees -/

/-- The keys of a map: of a type a key may have, a constant without multiplier, no constant twice. -/
structure KeysOk (ks : List Leaf) : Prop where
  keyType : ∀ k ∈ ks, k.type.isKeyType = true
  constMult : ∀ k ∈ ks, k.type.isConst = true → k.mult = 1
  distinct : ks.Pairwise fun a b => sameConstKey a.type b.type = false

/-- A leaf has a multiplier that fits and a parameter in range. -/
structure LeafOk (l : Leaf) : Prop where
  pos : 1 ≤ l.mult
  lt : l.mult < 2 ^ 32
  inRange : l.type.InRange

mutual

/-- Multipliers are positive 32-bit numbers, lengths fit in 32 bits, map values have no multiplier and map keys are `KeysOk`. -/
def WF : SpecTree → Prop
  | .leaf l => LeafOk l
  | .list n es => 1 ≤ n ∧ n < 2 ^ 32 ∧ total es < 2 ^ 32 ∧ WFList es
  | .map n kvs => 1 ≤ n ∧ n < 2 ^ 32 ∧ keyTotal kvs < 2 ^ 32 ∧ KeysOk (kvs.map Prod.fst) ∧ WFPairs kvs

/-- Every tree is well-formed. -/
def WFList : List SpecTree → Prop
  | [] => True
  | t :: ts => t.WF ∧ WFList ts

/-- Every key and every value is well-formed. -/
def WFPairs : List (Leaf × SpecTree) → Prop
  | [] => True
  | (k, v) :: kvs => LeafOk k ∧ v.WF ∧ v.mult = 1 ∧ WFPairs kvs

end

theorem WF.mult_bounds {t : SpecTree} (h : t.WF) : 1 ≤ t.mult ∧ t.mult < 2 ^ 32 := by
  cases t with
  | leaf l => exact ⟨LeafOk.pos h, LeafOk.lt h⟩
  | list n es => exact ⟨h.1, h.2.1⟩
  | map n kvs => exact ⟨h.1, h.2.1⟩

theorem wf_of_mem {ts : List SpecTree} (h : WFList ts) : ∀ t ∈ ts, t.WF := by
  induction ts with
  | nil => simp
  | cons t ts ih =>
    simp only [List.mem_cons, forall_eq_or_imp]
    exact ⟨h.1, ih h.2⟩

theorem wf_of_mem_pairs {kvs : List (Leaf × SpecTree)} (h : WFPairs kvs) : ∀ p ∈ kvs, p.2.WF := by
  induction kvs with
  | nil => simp
  | cons p kvs ih =>
    obtain ⟨k, v⟩ := p
    simp only [List.mem_cons, forall_eq_or_imp]
    exact ⟨h.2.1, ih h.2.2.2⟩

theorem leafOk_of_mem_pairs {kvs : List (Leaf × SpecTree)} (h : WFPairs kvs) : ∀ p ∈ kvs, LeafOk p.1 := by
  induction kvs with
  | nil => simp
  | cons p kvs ih =>
    obtain ⟨k, v⟩ := p
    simp only [List.mem_cons, forall_eq_or_imp]
    exact ⟨h.1, ih h.2.2.2⟩

theorem mult_of_mem_pairs {kvs : List (Leaf × SpecTree)} (h : WFPairs kvs) : ∀ p ∈ kvs, p.2.mult = 1 := by
  induction kvs with
  | nil => simp
  | cons p kvs ih =>
    obtain ⟨k, v⟩ := p
    simp only [List.mem_cons, forall_eq_or_imp]
    exact ⟨h.2.2.1, ih h.2.2.2⟩

/-- A tree occurs in another, at any depth. -/
inductive Within (t : SpecTree) : SpecTree → Prop where
  | here : Within t t
  | elem {n : Nat} {es : List SpecTree} {e : SpecTree} : e ∈ es → Within t e → Within t (.list n es)
  | value {n : Nat} {kvs : List (Leaf × SpecTree)} {p : Leaf × SpecTree} : p ∈ kvs → Within t p.2 → Within t (.map n kvs)

theorem Within.wf {t u : SpecTree} (h : Within t u) (hu : u.WF) : t.WF := by
  induction h with
  | here => exact hu
  | elem hmem _ ih => exact ih (wf_of_mem hu.2.2.2 _ hmem)
  | value hmem _ ih => exact ih (wf_of_mem_pairs hu.2.2.2.2 _ hmem)

/-! ## The texts a tree is read from -/

/-- Between two elements of a list, or after the last one: a comma and at most one blank, or at most one blank and the end. -/
def Separator (delim : Char) (s s' : Text) : Prop :=
  (peek s = ',' ∧ s' = skipBlank s.tail) ∨ (peek s ≠ ',' ∧ s' = skipBlank s ∧ peek s' = delim)

mutual

/-- In a role, in a collection that ends with `delim`, the parser reads the tree from `s` up to `s'`. -/
def Reads (role : Role) (delim : Char) : SpecTree → Text → Text → Prop
  | .leaf l, s, s' => readElement role delim s = .ok (l.mult, .scalar l.type, s')
  | .list n es, s, s' => ∃ s₁ s₂, readElement role delim s = .ok (n, .openList, s₁) ∧ ReadsElems ']' es s₁ s₂ ∧
      total es < 2 ^ 32 ∧ s' = s₂.tail
  | .map n kvs, s, s' => ∃ s₁ s₂, readElement role delim s = .ok (n, .openMap, s₁) ∧ ReadsPairs [] kvs s₁ s₂ ∧
      keyTotal kvs < 2 ^ 32 ∧ s' = s₂.tail

/-- The parser reads the elements from `s` up to the delimiter at `s'`. -/
def ReadsElems (delim : Char) : List SpecTree → Text → Text → Prop
  | [], s, s' => peek s = delim ∧ s' = s
  | t :: ts, s, s' => peek s ≠ delim ∧ ∃ s₁ s₂, Reads .elem delim t s s₁ ∧ Separator delim s₁ s₂ ∧ ReadsElems delim ts s₂ s'

/-- After the keys `seen`, the parser reads the pairs from `s` up to the closing brace at `s'`. -/
def ReadsPairs (seen : List Leaf) : List (Leaf × SpecTree) → Text → Text → Prop
  | [], s, s' => seen = [] ∧ peek s = '\x7d' ∧ s' = s
  | (k, v) :: kvs, s, s' => peek s ≠ '\x7d' ∧ ∃ s₁ s₂,
      readElement (.key (seen.map Leaf.build)) '\x7d' s = .ok (k.mult, .scalar k.type, s₁) ∧
      peek (skipBlank s₁) = ':' ∧ peek (skipBlank (skipBlank s₁).tail) ≠ '\x7d' ∧
      Reads .val '\x7d' v (skipBlank (skipBlank s₁).tail) s₂ ∧
      ((kvs = [] ∧ peek (skipBlank s₂) = '\x7d' ∧ s' = skipBlank s₂) ∨
        (peek (skipBlank s₂) = ',' ∧ ReadsPairs (seen ++ [k]) kvs (skipBlank (skipBlank s₂).tail) s'))

end

end SpecTree

end AerospikeBenchmark
