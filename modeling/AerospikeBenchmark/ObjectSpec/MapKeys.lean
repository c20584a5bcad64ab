import AerospikeBenchmark.ObjectSpec.Gen

/-!
# The keys of a generated map

`_gen_random_map` with a ledger of its key values: each one obtained from `bin_spec_random_val` is a reference that the function must
give to the map or release with `as_val_destroy`. A constant key is the value embedded in the spec, of which every key obtained is one
more reference.
-/

namespace AerospikeBenchmark

open CText Words

/-- A key obtained from `bin_spec_random_val`: the pair it was drawn for, and how many keys were obtained before it. -/
structure KeyRef where
  entryIdx : Nat
  nth : Nat
deriving DecidableEq, Repr

/-- The keys obtained, those given to the map, and those destroyed, each time they are; the last ones first. -/
structure KeyLedger where
  obtained : List KeyRef
  stored : List KeyRef
  destroyed : List KeyRef
deriving DecidableEq, Repr

/-- The next key of a pair. -/
def KeyLedger.next (l : KeyLedger) (entryIdx : Nat) : KeyRef := ⟨entryIdx, l.obtained.length⟩

/-- A key is obtained. -/
def KeyLedger.obtain (l : KeyLedger) (entryIdx : Nat) : KeyLedger := { l with obtained := l.next entryIdx :: l.obtained }

/-- `as_orderedmap_set` takes a key. -/
def KeyLedger.store (l : KeyLedger) (key : KeyRef) : KeyLedger := { l with stored := key :: l.stored }

/-- `as_val_destroy` on a key. -/
def KeyLedger.destroy (l : KeyLedger) (key : KeyRef) : KeyLedger := { l with destroyed := key :: l.destroyed }

/-- How the `while` loop ends: the key found and its value, if any, the variable `key`, which is not set at first, the retries left
and the ledger. -/
structure KeySearch where
  found : Option (KeyRef × AsVal)
  key : Option KeyRef
  left : Nat
  ledger : KeyLedger

/-- The `while` loop of `_gen_random_map`. A key that is in the map already is destroyed. -/
def searchKey (genKey : Gen AsVal) (entryIdx : Nat) (m : AsMap) : (left : Nat) → Option KeyRef → KeyLedger → Gen KeySearch
  | 0, key, l => pure ⟨none, key, 0, l⟩
  | left + 1, _, l => do
    let val ← genKey
    match m.get val with
    | none => pure ⟨some (l.next entryIdx, val), some (l.next entryIdx), left + 1, l.obtain entryIdx⟩
    | some _ => searchKey genKey entryIdx m left (some (l.next entryIdx)) ((l.obtain entryIdx).destroy (l.next entryIdx))

/-- The loop over the repetitions of a pair. When the retries are used up the variable `key` is destroyed. -/
def ownedEntries (genKey genVal : Gen AsVal) (entryIdx : Nat) : (n left : Nat) → AsMap → KeyLedger → Gen (AsMap × KeyLedger)
  | 0, _, m, l => pure (m, l)
  | n + 1, left, m, l => do
    let r ← searchKey genKey entryIdx m left none l
    match r.found with
    | none =>
      match r.key with
      | none => stop .outOfBounds
      | some key => pure (m, r.ledger.destroy key)
    | some (key, keyVal) => do
      let val ← genVal
      ownedEntries genKey genVal entryIdx n r.left (m.set keyVal val) (r.ledger.store key)

/-- The loop over the pairs, from the one with the given index on. -/
def ownedMap (R : AsRandom) (cLen : Nat → Nat) : List (BinSpec × BinSpec) → (nEntries entryIdx : Nat) → AsMap → KeyLedger →
    Gen (AsMap × KeyLedger)
  | _, 0, _, m, l => pure (m, l)
  | [], _ + 1, _, _, _ => stop .outOfBounds
  | (k, v) :: kvs, n + 1, entryIdx, m, l => do
    let r ← ownedEntries (binSpecRandomVal R cLen k) (binSpecRandomVal R cLen v) entryIdx k.nRepeats maxKeyEntryRetries m l
    ownedMap R cLen kvs n (entryIdx + 1) r.1 r.2

/-- `_gen_random_map` with its ledger. -/
def genRandomMapOwned (R : AsRandom) (cLen : Nat → Nat) (kvs : List (BinSpec × BinSpec)) (nEntries : Nat) : Gen (AsMap × KeyLedger) :=
  ownedMap R cLen kvs nEntries 0 [] ⟨[], [], []⟩

/-- The reference count of the constant key of a pair after the call and after the map that it returns has been destroyed: every key
obtained adds one, every key destroyed takes one off, and so does every key of the map. -/
def KeyLedger.refCountAfter (l : KeyLedger) (entryIdx : Nat) (before : Int) : Int :=
  before + l.obtained.countP (·.entryIdx = entryIdx) - l.destroyed.countP (·.entryIdx = entryIdx) -
    l.stored.countP (·.entryIdx = entryIdx)

/-! ## Whether the keys suffice -/

/-- Whether the words give every repetition of a pair a new key before the retries are used up, and the map then. -/
def entriesSuffice (genKey genVal : Gen AsVal) : (n left : Nat) → AsMap → Gen (Bool × AsMap)
  | 0, _, m => pure (true, m)
  | n + 1, left, m => do
    let k ← freshKey genKey m left
    match k.1 with
    | none => pure (false, m)
    | some key => do
      let val ← genVal
      entriesSuffice genKey genVal n k.2 (m.set key val)

/-- Whether they do for all pairs. -/
def mapSuffices (R : AsRandom) (cLen : Nat → Nat) : List (BinSpec × BinSpec) → (nEntries : Nat) → AsMap → Gen (Bool × AsMap)
  | _, 0, m => pure (true, m)
  | [], _ + 1, _ => stop .outOfBounds
  | (k, v) :: kvs, n + 1, m => do
    let r ← entriesSuffice (binSpecRandomVal R cLen k) (binSpecRandomVal R cLen v) k.nRepeats maxKeyEntryRetries m
    let rest ← mapSuffices R cLen kvs n r.2
    pure (r.1 && rest.1, rest.2)

/-- On the words of a source, every repetition of every pair of a map spec finds a key that is not in the map before 1024 of the keys
drawn for the pair have been in it. -/
def KeysSuffice (R : AsRandom) (cLen : Nat → Nat) (kvs : List (BinSpec × BinSpec)) (nEntries : Nat) (src : Source) : Prop :=
  ∃ m src', mapSuffices R cLen kvs nEntries [] src = .ok ((true, m), src')

end AerospikeBenchmark
