import AerospikeBenchmark.ObjectSpec.Tree

/-!
# Values that conform to a spec

What a bin spec promises about the values generated from it, by recursion on the spec and without mention of the generator. The
specs the parser stores are `Valid`: the counts kept next to the elements and the pairs are the sums of their multipliers.
-/

namespace AerospikeBenchmark

open CText Words

/-- `[0-9a-z]`. -/
def IsAlphanum (c : Char) : Prop := ('0' ≤ c ∧ c ≤ '9') ∨ ('a' ≤ c ∧ c ≤ 'z')

instance (c : Char) : Decidable (IsAlphanum c) := inferInstanceAs (Decidable (_ ∨ _))

/-- The values a scalar spec promises. An integer is meant as an unsigned 64-bit number. -/
def Scalar.Conforms : Scalar → AsVal → Prop
  | .bool, v => ∃ b, v = .bool b
  | .int range, v => ∃ i : Int, v = .int i ∧ (if range = 0 then 0 else 2 ^ (8 * range)) ≤ i % 2 ^ 64 ∧
      i % 2 ^ 64 ≤ 2 ^ (8 * range + 8) - 1
  | .str length, v => ∃ s, v = .str s ∧ s.length = length ∧ ∀ c ∈ s, IsAlphanum c
  | .bytes length, v => ∃ b, v = .bytes b ∧ b.length = length
  | .double, v => ∃ bits, v = .double bits
  | .constBool b, v => v = .bool b
  | .constInt i, v => v = .int i
  | .constStr s, v => v = .str s
  | .constDouble d, v => v = .double d

mutual

/-- The value is one that the bin spec promises. -/
def BinSpec.Conforms : BinSpec → AsVal → Prop
  | .scalar _ s, v => s.Conforms v
  | .list _ length es, v => ∃ l, v = .list l ∧ l.length = length ∧ ∀ i a, l[i]? = some a → ConformsAt es i a
  | .constList _ vs, v => v = .list vs
  | .map _ _ length kvs, v => ∃ m, v = .map m ∧ (m.map Prod.fst).Nodup ∧ m.length ≤ length ∧ ConformsPairs kvs m
  | .constMap _ m, v => v = .map m

/-- The value conforms to the spec that owns the position: the first one owns the first `n_repeats` positions, and so on. -/
def ConformsAt : List BinSpec → Nat → AsVal → Prop
  | [], _, _ => False
  | e :: es, i, v => if i < e.nRepeats then e.Conforms v else ConformsAt es (i - e.nRepeats) v

/-- The entries can be dealt out to the pairs, each pair getting at most its key's `n_repeats` entries, all conforming to it. -/
def ConformsPairs : List (BinSpec × BinSpec) → AsMap → Prop
  | [], m => m = []
  | (k, v) :: kvs, m => ∃ m₁ m₂, m.Perm (m₁ ++ m₂) ∧ m₁.length ≤ k.nRepeats ∧ (∀ p ∈ m₁, k.Conforms p.1 ∧ v.Conforms p.2) ∧
      ConformsPairs kvs m₂

end

/-- A list of exactly `n_bin_specs` values, each conforming to the bin spec that owns its bin. -/
def ObjSpec.Conforms (o : ObjSpec) (v : AsVal) : Prop :=
  ∃ l, v = .list l ∧ l.length = o.nBinSpecs ∧ ∀ i a, l[i]? = some a → ConformsAt o.binSpecs i a

/-! ## Valid specs -/

mutual

/-- The counts of a spec agree with its elements and pairs. -/
def BinSpec.Valid : BinSpec → Prop
  | .list _ length es => length = totalRepeats es ∧ length < 2 ^ 32 ∧ ValidList es
  | .map _ nEntries length kvs => nEntries = kvs.length ∧ length = totalKeyRepeats kvs ∧ ValidPairs kvs
  | .scalar _ _ | .constList _ _ | .constMap _ _ => True

/-- All specs are valid and repeated at least once. -/
def ValidList : List BinSpec → Prop
  | [] => True
  | e :: es => 1 ≤ e.nRepeats ∧ e.Valid ∧ ValidList es

/-- All keys and values are valid. -/
def ValidPairs : List (BinSpec × BinSpec) → Prop
  | [] => True
  | (k, v) :: kvs => k.Valid ∧ v.Valid ∧ ValidPairs kvs

end

mutual

/-- The scalars a spec draws, map keys included. -/
def BinSpec.scalars : BinSpec → List Scalar
  | .scalar _ s => [s]
  | .list _ _ es => scalarsList es
  | .map _ _ _ kvs => scalarsPairs kvs
  | .constList _ _ | .constMap _ _ => []

/-- The scalars of some specs. -/
def scalarsList : List BinSpec → List Scalar
  | [] => []
  | e :: es => e.scalars ++ scalarsList es

/-- The scalars of some pairs. -/
def scalarsPairs : List (BinSpec × BinSpec) → List Scalar
  | [] => []
  | (k, v) :: kvs => k.scalars ++ (v.scalars ++ scalarsPairs kvs)

end

mutual

/-- The spec stored for a well-formed tree is valid. -/
theorem SpecTree.WF.valid : ∀ {t : SpecTree}, t.WF → t.build.Valid
  | .leaf _, _ => trivial
  | .list n es, h => by
    obtain ⟨-, -, htot, hes⟩ := h
    simp only [SpecTree.build]
    split
    · trivial
    · refine ⟨?_, htot, SpecTree.WFList.valid hes⟩
      rw [SpecTree.buildList_eq_map, SpecTree.totalRepeats_map_build]
  | .map n kvs, h => by
    obtain ⟨-, -, -, -, hkvs⟩ := h
    simp only [SpecTree.build]
    split
    · trivial
    · refine ⟨?_, ?_, SpecTree.WFPairs.valid hkvs⟩
      · rw [SpecTree.buildPairs_eq_map, List.length_map]
      · simp [SpecTree.buildPairs_eq_map, totalKeyRepeats, SpecTree.keyTotal, Function.comp_def, Leaf.build, BinSpec.nRepeats]

theorem SpecTree.WFList.valid : ∀ {ts : List SpecTree}, SpecTree.WFList ts → ValidList (SpecTree.buildList ts)
  | [], _ => trivial
  | t :: _, ⟨ht, hts⟩ => ⟨(SpecTree.nRepeats_build t).symm ▸ ht.mult_bounds.1, ht.valid, SpecTree.WFList.valid hts⟩

theorem SpecTree.WFPairs.valid : ∀ {kvs : List (Leaf × SpecTree)}, SpecTree.WFPairs kvs → ValidPairs (SpecTree.buildPairs kvs)
  | [], _ => trivial
  | (_, _) :: _, ⟨_, hv, _, hkvs⟩ => ⟨trivial, hv.valid, SpecTree.WFPairs.valid hkvs⟩

end

mutual

/-- The parameters of the scalars in a stored spec are in range. -/
theorem SpecTree.WF.inRange : ∀ {t : SpecTree}, t.WF → ∀ c ∈ t.build.scalars, c.InRange
  | .leaf l, h, c, hc => by
    rw [List.mem_singleton.mp hc]
    exact SpecTree.LeafOk.inRange h
  | .list n es, h, c, hc => by
    simp only [SpecTree.build] at hc
    split at hc
    · simp [BinSpec.scalars] at hc
    · exact SpecTree.WFList.inRange h.2.2.2 c hc
  | .map n kvs, h, c, hc => by
    simp only [SpecTree.build] at hc
    split at hc
    · simp [BinSpec.scalars] at hc
    · exact SpecTree.WFPairs.inRange h.2.2.2.2 c hc

theorem SpecTree.WFList.inRange : ∀ {ts : List SpecTree}, SpecTree.WFList ts → ∀ c ∈ scalarsList (SpecTree.buildList ts), c.InRange
  | [], _, c, hc => by simp [SpecTree.buildList, scalarsList] at hc
  | t :: ts, h, c, hc => by
    rcases List.mem_append.mp hc with hc | hc
    · exact h.1.inRange c hc
    · exact SpecTree.WFList.inRange h.2 c hc

theorem SpecTree.WFPairs.inRange : ∀ {kvs : List (Leaf × SpecTree)}, SpecTree.WFPairs kvs →
    ∀ c ∈ scalarsPairs (SpecTree.buildPairs kvs), c.InRange
  | [], _, c, hc => by simp [SpecTree.buildPairs, scalarsPairs] at hc
  | (k, v) :: kvs, h, c, hc => by
    rcases List.mem_append.mp hc with hc | hc
    · rw [List.mem_singleton.mp hc]
      exact h.1.inRange
    · rcases List.mem_append.mp hc with hc | hc
      · exact h.2.1.inRange c hc
      · exact SpecTree.WFPairs.inRange h.2.2.2 c hc

end

end AerospikeBenchmark
