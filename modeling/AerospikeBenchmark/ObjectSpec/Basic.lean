import AerospikeBenchmark.Lib.CText

/-!
# Values and bin specs

`AsVal` is a value of the client library (`as_val`): the arraylist is a list, the ordered map an association list in the order of
insertion with one entry for each key. `BinSpec` is `struct bin_spec_s`: its type and its union are one constructor for each
collection, plain or constant, and one for the scalars, whose own types are `Scalar`. Every spec carries its multiplier
`n_repeats`.
-/

namespace AerospikeBenchmark

open CText

/-- A value of the client library. Integers are the `int64_t` they hold, doubles the bits they hold. -/
inductive AsVal where
  | bool (b : Bool)
  | int (v : Int)
  | str (s : Text)
  | bytes (b : List UInt8)
  | double (bits : Nat)
  | list (l : List AsVal)
  | map (m : List (AsVal × AsVal))
deriving Repr

namespace AsVal

/-! ## Equality of values -/

mutual

/-- Whether two values are the same. -/
def beq : AsVal → AsVal → Bool
  | .bool a, .bool b => a = b
  | .int a, .int b => a = b
  | .str a, .str b => a = b
  | .bytes a, .bytes b => a = b
  | .double a, .double b => a = b
  | .list a, .list b => beqList a b
  | .map a, .map b => beqMap a b
  | _, _ => false

/-- Whether two lists hold the same values. -/
def beqList : List AsVal → List AsVal → Bool
  | [], [] => true
  | a :: as, b :: bs => beq a b && beqList as bs
  | _, _ => false

/-- Whether two maps hold the same entries in the same order. -/
def beqMap : List (AsVal × AsVal) → List (AsVal × AsVal) → Bool
  | [], [] => true
  | (k, v) :: as, (k', v') :: bs => beq k k' && beq v v' && beqMap as bs
  | _, _ => false

end

mutual

theorem eq_of_beq : ∀ a b : AsVal, beq a b = true → a = b
  | .bool a, b, h => by cases b <;> simp_all [beq]
  | .int a, b, h => by cases b <;> simp_all [beq]
  | .str a, b, h => by cases b <;> simp_all [beq]
  | .bytes a, b, h => by cases b <;> simp_all [beq]
  | .double a, b, h => by cases b <;> simp_all [beq]
  | .list a, b, h => by
    cases b <;> simp only [beq, Bool.false_eq_true] at h
    rw [eq_of_beqList _ _ h]
  | .map a, b, h => by
    cases b <;> simp only [beq, Bool.false_eq_true] at h
    rw [eq_of_beqMap _ _ h]

theorem eq_of_beqList : ∀ a b : List AsVal, beqList a b = true → a = b
  | [], b, h => by cases b <;> simp_all [beqList]
  | a :: as, [], h => by simp [beqList] at h
  | a :: as, b :: bs, h => by
    simp only [beqList, Bool.and_eq_true] at h
    rw [eq_of_beq _ _ h.1, eq_of_beqList _ _ h.2]

theorem eq_of_beqMap : ∀ a b : List (AsVal × AsVal), beqMap a b = true → a = b
  | [], b, h => by cases b <;> simp_all [beqMap]
  | (k, v) :: as, [], h => by simp [beqMap] at h
  | (k, v) :: as, (k', v') :: bs, h => by
    simp only [beqMap, Bool.and_eq_true] at h
    rw [eq_of_beq _ _ h.1.1, eq_of_beq _ _ h.1.2, eq_of_beqMap _ _ h.2]

end

mutual

theorem beq_refl : ∀ a : AsVal, beq a a = true
  | .bool _ | .int _ | .str _ | .bytes _ | .double _ => by simp [beq]
  | .list a => by simp [beq, beqList_refl a]
  | .map a => by simp [beq, beqMap_refl a]

theorem beqList_refl : ∀ a : List AsVal, beqList a a = true
  | [] => by simp [beqList]
  | a :: as => by simp [beqList, beq_refl a, beqList_refl as]

theorem beqMap_refl : ∀ a : List (AsVal × AsVal), beqMap a a = true
  | [] => by simp [beqMap]
  | (k, v) :: as => by simp [beqMap, beq_refl k, beq_refl v, beqMap_refl as]

end

instance : DecidableEq AsVal := fun a b =>
  if h : beq a b = true then isTrue (eq_of_beq a b h) else isFalse fun e => h (e ▸ beq_refl a)

end AsVal

/-- The entries of an ordered map. -/
abbrev AsMap := List (AsVal × AsVal)

/-- `as_orderedmap_get`. -/
def AsMap.get (m : AsMap) (k : AsVal) : Option AsVal := m.lookup k

/-- `as_orderedmap_set`: the value of a key that is there is replaced, a new key is added. -/
def AsMap.set : AsMap → AsVal → AsVal → AsMap
  | [], k, v => [(k, v)]
  | (k', v') :: m, k, v => if k' = k then (k, v) :: m else (k', v') :: AsMap.set m k v

/-! ## Bin specs -/

/-- The scalar types of a bin spec: random ones with their parameter, constants with their value. -/
inductive Scalar where
  | bool
  | int (range : Nat)
  | str (length : Nat)
  | bytes (length : Nat)
  | double
  | constBool (val : Bool)
  | constInt (val : Int)
  | constStr (val : Text)
  | constDouble (bits : Nat)
deriving DecidableEq, Repr

/-- The value of a constant scalar. -/
def Scalar.constVal? : Scalar → Option AsVal
  | .constBool b => some (.bool b)
  | .constInt v => some (.int v)
  | .constStr s => some (.str s)
  | .constDouble d => some (.double d)
  | _ => none

/-- Whether a scalar is a constant. -/
def Scalar.isConst (s : Scalar) : Bool := s.constVal?.isSome

/-- The parameter of a scalar is in its range. -/
def Scalar.InRange : Scalar → Prop
  | .int r => r ≤ 7
  | .str n => n < 2 ^ 32
  | .bytes n => n < 2 ^ 32
  | _ => True

/-- The types a map key may have. -/
def Scalar.isKeyType : Scalar → Bool
  | .int _ | .str _ | .bytes _ | .constInt _ | .constStr _ => true
  | _ => false

/-- `struct bin_spec_s`. -/
inductive BinSpec where
  | scalar (nRepeats : Nat) (type : Scalar)
  | list (nRepeats length : Nat) (list : List BinSpec)
  | constList (nRepeats : Nat) (val : List AsVal)
  | map (nRepeats nEntries length : Nat) (kvPairs : List (BinSpec × BinSpec))
  | constMap (nRepeats : Nat) (val : AsMap)
deriving Repr

namespace BinSpec

mutual

/-- Whether two bin specs are the same. -/
def beq : BinSpec → BinSpec → Bool
  | .scalar n s, .scalar n' s' => n = n' && s = s'
  | .list n l es, .list n' l' es' => n = n' && l = l' && beqList es es'
  | .constList n vs, .constList n' vs' => n = n' && vs = vs'
  | .map n e l kvs, .map n' e' l' kvs' => n = n' && e = e' && l = l' && beqPairs kvs kvs'
  | .constMap n m, .constMap n' m' => n = n' && m = m'
  | _, _ => false

/-- Whether two lists hold the same bin specs. -/
def beqList : List BinSpec → List BinSpec → Bool
  | [], [] => true
  | a :: as, b :: bs => beq a b && beqList as bs
  | _, _ => false

/-- Whether two lists hold the same pairs of bin specs. -/
def beqPairs : List (BinSpec × BinSpec) → List (BinSpec × BinSpec) → Bool
  | [], [] => true
  | (k, v) :: as, (k', v') :: bs => beq k k' && beq v v' && beqPairs as bs
  | _, _ => false

end

mutual

theorem eq_of_beq : ∀ a b : BinSpec, beq a b = true → a = b
  | .scalar n s, b, h => by cases b <;> simp_all [beq]
  | .constList n vs, b, h => by cases b <;> simp_all [beq]
  | .constMap n m, b, h => by cases b <;> simp_all [beq]
  | .list n l es, b, h => by
    cases b <;> simp only [beq, Bool.false_eq_true, Bool.and_eq_true, decide_eq_true_eq] at h
    rw [h.1.1, h.1.2, eq_of_beqList _ _ h.2]
  | .map n e l kvs, b, h => by
    cases b <;> simp only [beq, Bool.false_eq_true, Bool.and_eq_true, decide_eq_true_eq] at h
    rw [h.1.1.1, h.1.1.2, h.1.2, eq_of_beqPairs _ _ h.2]

theorem eq_of_beqList : ∀ a b : List BinSpec, beqList a b = true → a = b
  | [], b, h => by cases b <;> simp_all [beqList]
  | a :: as, [], h => by simp [beqList] at h
  | a :: as, b :: bs, h => by
    simp only [beqList, Bool.and_eq_true] at h
    rw [eq_of_beq _ _ h.1, eq_of_beqList _ _ h.2]

theorem eq_of_beqPairs : ∀ a b : List (BinSpec × BinSpec), beqPairs a b = true → a = b
  | [], b, h => by cases b <;> simp_all [beqPairs]
  | (k, v) :: as, [], h => by simp [beqPairs] at h
  | (k, v) :: as, (k', v') :: bs, h => by
    simp only [beqPairs, Bool.and_eq_true] at h
    rw [eq_of_beq _ _ h.1.1, eq_of_beq _ _ h.1.2, eq_of_beqPairs _ _ h.2]

end

mutual

theorem beq_refl : ∀ a : BinSpec, beq a a = true
  | .scalar _ _ | .constList _ _ | .constMap _ _ => by simp [beq]
  | .list _ _ es => by simp [beq, beqList_refl es]
  | .map _ _ _ kvs => by simp [beq, beqPairs_refl kvs]

theorem beqList_refl : ∀ a : List BinSpec, beqList a a = true
  | [] => by simp [beqList]
  | a :: as => by simp [beqList, beq_refl a, beqList_refl as]

theorem beqPairs_refl : ∀ a : List (BinSpec × BinSpec), beqPairs a a = true
  | [] => by simp [beqPairs]
  | (k, v) :: as => by simp [beqPairs, beq_refl k, beq_refl v, beqPairs_refl as]

end

instance : DecidableEq BinSpec := fun a b =>
  if h : beq a b = true then isTrue (eq_of_beq a b h) else isFalse fun e => h (e ▸ beq_refl a)

end BinSpec

/-- `bin_spec->n_repeats`. -/
def BinSpec.nRepeats : BinSpec → Nat
  | .scalar n _ | .list n _ _ | .constList n _ | .map n _ _ _ | .constMap n _ => n

/-- The sum of the multipliers of some specs. -/
def totalRepeats (es : List BinSpec) : Nat := (es.map BinSpec.nRepeats).sum

/-- The sum of the multipliers of the keys of some pairs. -/
def totalKeyRepeats (kvs : List (BinSpec × BinSpec)) : Nat := (kvs.map fun p => p.1.nRepeats).sum

@[simp] theorem totalRepeats_nil : totalRepeats [] = 0 := rfl

@[simp] theorem totalRepeats_cons (e : BinSpec) (es : List BinSpec) :
    totalRepeats (e :: es) = e.nRepeats + totalRepeats es := by
  simp [totalRepeats]

@[simp] theorem totalRepeats_append (es es' : List BinSpec) :
    totalRepeats (es ++ es') = totalRepeats es + totalRepeats es' := by
  simp [totalRepeats]

@[simp] theorem totalKeyRepeats_cons (p : BinSpec × BinSpec) (kvs : List (BinSpec × BinSpec)) :
    totalKeyRepeats (p :: kvs) = p.1.nRepeats + totalKeyRepeats kvs := by
  simp [totalKeyRepeats]

/-- `struct obj_spec_s`, what `obj_spec_parse` leaves in it: the stored specs and the number of bins. -/
structure ObjSpec where
  binSpecs : List BinSpec
  nBinSpecs : Nat
deriving DecidableEq, Repr

end AerospikeBenchmark
