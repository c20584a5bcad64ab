import AerospikeBenchmark.ObjectSpec.Basic

/-!
# The layout of stored specs

What every spec in a parsed object spec has to satisfy for the loops over its arrays: its counts, and the keys and values of a map.
The conditions are on one spec at a time; they are asked of every spec that occurs at any depth.
-/

namespace AerospikeBenchmark

/-- A spec occurs in another, at any depth. -/
inductive BinSpec.Occurs (x : BinSpec) : BinSpec → Prop where
  | here : Occurs x x
  | elem {n length : Nat} {es : List BinSpec} {e : BinSpec} : e ∈ es → Occurs x e → Occurs x (.list n length es)
  | key {n nEntries length : Nat} {kvs : List (BinSpec × BinSpec)} {p : BinSpec × BinSpec} : p ∈ kvs → Occurs x p.1 →
      Occurs x (.map n nEntries length kvs)
  | val {n nEntries length : Nat} {kvs : List (BinSpec × BinSpec)} {p : BinSpec × BinSpec} : p ∈ kvs → Occurs x p.2 →
      Occurs x (.map n nEntries length kvs)

theorem BinSpec.Occurs.trans {x y z : BinSpec} (hxy : x.Occurs y) (hyz : y.Occurs z) : x.Occurs z := by
  induction hyz with
  | here => exact hxy
  | elem hmem _ ih => exact .elem hmem ih
  | key hmem _ ih => exact .key hmem ih
  | val hmem _ ih => exact .val hmem ih

/-- Every spec that occurs in a spec has a property. -/
def BinSpec.Everywhere (P : BinSpec → Prop) (e : BinSpec) : Prop := ∀ x, x.Occurs e → P x

section Everywhere

variable {P : BinSpec → Prop} {n nEntries length : Nat}

@[simp] theorem everywhere_scalar {s : Scalar} : BinSpec.Everywhere P (.scalar n s) ↔ P (.scalar n s) := by
  refine ⟨fun h => h _ .here, fun h x hx => ?_⟩
  cases hx
  exact h

@[simp] theorem everywhere_list {es : List BinSpec} :
    BinSpec.Everywhere P (.list n length es) ↔ P (.list n length es) ∧ ∀ e ∈ es, e.Everywhere P := by
  refine ⟨fun h => ⟨h _ .here, fun e he x hx => h x (.elem he hx)⟩, fun h x hx => ?_⟩
  cases hx with
  | here => exact h.1
  | elem he hx => exact h.2 _ he x hx

@[simp] theorem everywhere_map {kvs : List (BinSpec × BinSpec)} :
    BinSpec.Everywhere P (.map n nEntries length kvs) ↔
      P (.map n nEntries length kvs) ∧ ∀ p ∈ kvs, p.1.Everywhere P ∧ p.2.Everywhere P := by
  refine ⟨fun h => ⟨h _ .here, fun p hp => ⟨fun x hx => h x (.key hp hx), fun x hx => h x (.val hp hx)⟩⟩, fun h x hx => ?_⟩
  cases hx with
  | here => exact h.1
  | key hp hx => exact (h.2 _ hp).1 x hx
  | val hp hx => exact (h.2 _ hp).2 x hx

end Everywhere

/-- The value of a constant key. -/
def BinSpec.constKey? : BinSpec → Option AsVal
  | .scalar _ s => s.constVal?
  | _ => none

/-- A spec that may be a map key: a random integer, string or bytes, or a constant integer or string with no multiplier. -/
def BinSpec.KeyOk : BinSpec → Prop
  | .scalar n s => s.isKeyType = true ∧ (s.isConst = true → n = 1)
  | _ => False

/-- The types of the constants that may be map keys. -/
def AsVal.IsKey : AsVal → Prop
  | .int _ | .str _ => True
  | _ => False

/-- The counts of a spec are those of its elements and pairs, and none of them has wrapped. The keys and values of a map are what
they may be, and its constant keys differ. A folded map has the keys of the map it was made from. -/
def BinSpec.LaidOut : BinSpec → Prop
  | .scalar n _ => 1 ≤ n
  | .list n length es => 1 ≤ n ∧ length = totalRepeats es ∧ length < 2 ^ 32
  | .constList n _ => 1 ≤ n
  | .map n nEntries length kvs => 1 ≤ n ∧ nEntries = kvs.length ∧ length = totalKeyRepeats kvs ∧ length < 2 ^ 32 ∧
      (∀ p ∈ kvs, p.2.nRepeats = 1 ∧ p.1.KeyOk) ∧
      kvs.Pairwise fun p q => ∀ v w, p.1.constKey? = some v → q.1.constKey? = some w → v ≠ w
  | .constMap n m => 1 ≤ n ∧ (∀ p ∈ m, p.1.IsKey) ∧ (m.map Prod.fst).Nodup

end AerospikeBenchmark
