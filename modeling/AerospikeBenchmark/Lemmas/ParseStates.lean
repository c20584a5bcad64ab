import AerospikeBenchmark.Lemmas.ParseRun

/-!
# The states of the parser

What the consumer states of `_parse_bin_types` are while it runs: each holds well-formed trees, each but the top level stands in one
that expects it, and a map in `MAP_DONE` has its closing brace ahead. One iteration keeps this and never ends in a fault.
-/

namespace AerospikeBenchmark

open CText SpecTree

variable {R : AsRandom}

/-! ## What a consumer state holds -/

/-- The pairs that a map has stored. -/
structure PairsRead (kvs : List (Leaf × SpecTree)) : Prop where
  wf : WFPairs kvs
  keys : KeysOk (kvs.map Prod.fst)
  fits : keyTotal kvs < 2 ^ 32

/-- A list for the spec with multiplier `b`, or the top level, after the elements `ts`. -/
def listAfter (b : Option Nat) (ts : List SpecTree) : ListConsumer := (⟨b, b.isSome, [], 0⟩ : ListConsumer).extend ts

/-- A map for the spec with multiplier `n` after the pairs `kvs`, in the state `st`. -/
def mapAfter (n : Nat) (kvs : List (Leaf × SpecTree)) (st : MapState) : MapConsumer :=
  { (⟨n, .key, true, [], 0⟩ : MapConsumer).extend kvs with state := st }

/-- The consumer states that occur. -/
inductive Reading : Consumer → Prop where
  | list {b : Option Nat} {ts : List SpecTree} : WFList ts → total ts < 2 ^ 32 → Reading (.list (listAfter b ts))
  | key {n : Nat} {kvs : List (Leaf × SpecTree)} : PairsRead kvs → Reading (.map (mapAfter n kvs .key))
  | val {n : Nat} {kvs : List (Leaf × SpecTree)} {k : Leaf} : PairsRead kvs → LeafOk k → KeysOk (kvs.map Prod.fst ++ [k]) →
      keyTotal kvs + k.mult < 2 ^ 32 → Reading (.map ((mapAfter n kvs .key).withKey k))
  | done {n : Nat} {kvs : List (Leaf × SpecTree)} : kvs ≠ [] → PairsRead kvs → Reading (.map (mapAfter n kvs .done))

/-- The multiplier of `state->bin_spec`; none for the top level. -/
def Consumer.mult? : Consumer → Option Nat
  | .list c => c.binSpec
  | .map c => some c.binSpec

/-- A collection with the multiplier `n` may be read next. -/
structure Expects (c : Consumer) (n : Nat) : Prop where
  pos : 1 ≤ n
  lt : n < 2 ^ 32
  role : ∃ role, c.role = some role ∧ role.isKey = false ∧ (role.isVal = true → n = 1)

/-- The stack of consumer states. -/
inductive Nested : Consumer → List Consumer → Prop where
  | root {c : Consumer} : Reading c → c.mult? = none → Nested c []
  | inside {c p : Consumer} {ps : List Consumer} {n : Nat} : Reading c → c.mult? = some n → Expects p n → Nested p ps → Nested c (p :: ps)

theorem Nested.reading {c : Consumer} {ps : List Consumer} (h : Nested c ps) : Reading c := by
  cases h with
  | root h | inside h => exact h

/-- The state on top is exchanged for a later one of the same collection. -/
theorem Nested.replace {c c' : Consumer} {ps : List Consumer} (h : Nested c ps) (hc : Reading c') (hm : c'.mult? = c.mult?) :
    Nested c' ps := by
  cases h with
  | root _ hroot => exact .root hc (hm.trans hroot)
  | inside _ hn hexp hps => exact .inside hc (hm.trans hn) hexp hps

/-- A state of the loop that the parser can be in. -/
structure InState (S : ParseState) : Prop where
  nested : Nested S.top S.parents
  atEnd : S.top.role = none → peek S.str = S.top.delimiter

/-! ## One element more -/

theorem wfList_append {ts us : List SpecTree} (h : WFList ts) (h' : WFList us) : WFList (ts ++ us) := by
  induction ts with
  | nil => exact h'
  | cons t ts ih => exact ⟨h.1, ih h.2⟩

theorem wfPairs_append {kvs lws : List (Leaf × SpecTree)} (h : WFPairs kvs) (h' : WFPairs lws) : WFPairs (kvs ++ lws) := by
  induction kvs with
  | nil => exact h'
  | cons p kvs ih => exact ⟨h.1, h.2.1, h.2.2.1, ih h.2.2.2⟩

theorem allConst_append (ts us : List SpecTree) : allConst (ts ++ us) = (allConst ts && allConst us) := by
  induction ts with
  | nil => rfl
  | cons t ts ih => simp [allConst, ih, Bool.and_assoc]

theorem allConstPairs_append (kvs lws : List (Leaf × SpecTree)) :
    allConstPairs (kvs ++ lws) = (allConstPairs kvs && allConstPairs lws) := by
  induction kvs with
  | nil => rfl
  | cons p kvs ih => simp [allConstPairs, ih, Bool.and_assoc]

theorem total_append (ts us : List SpecTree) : total (ts ++ us) = total ts + total us := by simp [total]

theorem keyTotal_append (kvs lws : List (Leaf × SpecTree)) : keyTotal (kvs ++ lws) = keyTotal kvs + keyTotal lws := by
  simp [keyTotal]

theorem listAfter_add (b : Option Nat) (ts : List SpecTree) (t : SpecTree) : (listAfter b ts).add t = listAfter b (ts ++ [t]) := by
  simp [listAfter, ListConsumer.add, ListConsumer.extend, allConst_append, allConst, total_append, Bool.and_assoc, Bool.and_comm]

theorem mapAfter_add (n : Nat) (kvs : List (Leaf × SpecTree)) (st : MapState) (k : Leaf) (v : SpecTree) :
    (mapAfter n kvs .key).add st k v = mapAfter n (kvs ++ [(k, v)]) st := by
  simp [mapAfter, MapConsumer.add, MapConsumer.extend, allConstPairs_append, allConstPairs, keyTotal_append, Bool.and_assoc,
    Bool.and_comm, Bool.and_left_comm]

/-- A tree that may be stored where the role says. -/
structure Fits (role : Role) (t : SpecTree) : Prop where
  wf : t.WF
  value : role.isVal = true → t.mult = 1
  key : ∀ seen, role = .key seen → ∃ k, t = .leaf k ∧ k.type.ReadAs role k.mult

theorem SpecTree.KeysOk.append {ks : List Leaf} {k : Leaf} (h : KeysOk ks) (hk : k.type.ReadAs (.key (ks.map Leaf.build)) k.mult) :
    KeysOk (ks ++ [k]) := by
  have hfresh : ∀ a ∈ ks, sameConstKey a.type k.type = false := by
    cases hc : k.type.isConst with
    | false => exact fun a _ => sameConstKey_of_not_const hc
    | true => exact repeatConstKey_eq_false_iff.mp (hk.keyFresh _ rfl hc)
  refine ⟨?_, ?_, ?_⟩
  · simp only [List.mem_append, List.mem_singleton]
    rintro a (ha | rfl)
    · exact h.keyType a ha
    · exact hk.keyType rfl
  · simp only [List.mem_append, List.mem_singleton]
    rintro a (ha | rfl)
    · exact h.constMult a ha
    · exact hk.keyMult rfl
  · rw [List.pairwise_append]
    exact ⟨h.distinct, by simp, by simpa using hfresh⟩

/-- An outcome after which the parser is in one of its states or has reported an error. -/
def Settled : StepResult → Prop
  | .next S => InState S
  | .error _ => True
  | .done _ _ | .fault => False

/-- Where `finishElement` may go on in a collection that has read a tree. -/
theorem settled_of_next {c : Consumer} {ps : List Consumer} {spec : BinSpec} {s : Text} (hfault : finishElement c ps spec s ≠ .fault)
    (h : ∀ S, finishElement c ps spec s = .next S → InState S) : Settled (finishElement c ps spec s) := by
  cases hres : finishElement c ps spec s with
  | next S => exact h S hres
  | done specs n => exact absurd hres (finishElement_ne_done _ _ _ _ _ _)
  | error e => trivial
  | fault => exact absurd hres hfault

/-- The code after the `switch` faults only in `MAP_DONE`. -/
theorem finishElement_ne_fault {c : Consumer} (h : c.role ≠ none) (ps : List Consumer) (spec : BinSpec) (s : Text) :
    finishElement c ps spec s ≠ .fault := by
  cases c with
  | list c =>
    simp only [finishElement, finishList]
    split <;> [skip; split <;> [skip; split]] <;> simp
  | map c =>
    simp only [Consumer.role] at h
    simp only [finishElement, finishKey, finishValue]
    cases hst : c.state with
    | key => simp only; split <;> [skip; split] <;> simp
    | val k => simp only; split <;> [skip; split] <;> simp
    | done => simp [hst] at h

@[simp] theorem role_andConst (b : Bool) (c : Consumer) : (c.andConst b).role = c.role := by
  cases c <;> rfl

/-- A tree that the collection on top expects has been read. -/
theorem settled_finishElement {c : Consumer} {ps : List Consumer} (h : Nested c ps) {role : Role} (hrole : c.role = some role)
    {t : SpecTree} (ht : Fits role t) (s : Text) : Settled (finishElement (c.andConst t.isConst) ps t.build s) := by
  refine settled_of_next (finishElement_ne_fault (by simp [hrole]) _ _ _) ?_
  intro S hnext
  have hmult := ht.wf.mult_bounds.2
  cases h.reading with
  | @list b ts hwf hlt =>
    obtain ⟨hfit, s', -, rfl⟩ := (finishList_next_iff (by simpa [listAfter, ListConsumer.extend] using hlt) hmult).mp hnext
    rw [listAfter_add]
    refine ⟨h.replace (.list (wfList_append hwf ⟨ht.wf, trivial⟩) ?_) rfl, by simp [Consumer.role]⟩
    simpa [listAfter, ListConsumer.extend, total_append] using hfit
  | @key n kvs hkvs =>
    obtain rfl : Role.key ((kvs.map Prod.fst).map Leaf.build) = role := by
      simpa [Consumer.role, mapAfter, MapConsumer.extend, Function.comp_def] using hrole
    obtain ⟨k, rfl, hk⟩ := ht.key _ rfl
    obtain ⟨hfit, -, rfl⟩ :=
      (finishKey_next_iff (c := mapAfter n kvs .key) rfl (by simpa [mapAfter, MapConsumer.extend] using hkvs.fits) hmult).mp hnext
    refine ⟨h.replace (.val hkvs ht.wf (hkvs.keys.append hk) ?_) rfl, by simp [Consumer.role, MapConsumer.withKey]⟩
    simpa [mapAfter, MapConsumer.extend] using hfit
  | @val n kvs k hkvs hk hkeys hfit =>
    obtain rfl : Role.val = role := by simpa [Consumer.role, MapConsumer.withKey] using hrole
    have hpairs : PairsRead (kvs ++ [(k, t)]) :=
      ⟨wfPairs_append hkvs.wf ⟨hk, ht.wf, ht.value rfl, trivial⟩, by simpa using hkeys, by simpa [keyTotal_append] using hfit⟩
    rcases finishValue_next_iff.mp hnext with ⟨-, rfl⟩ | ⟨hbrace, rfl⟩
    · rw [mapAfter_add]
      exact ⟨h.replace (.key hpairs) rfl, by simp [Consumer.role, mapAfter]⟩
    · rw [mapAfter_add]
      exact ⟨h.replace (.done (by simp) hpairs) rfl, fun _ => hbrace⟩
  | done => simp [Consumer.role, mapAfter] at hrole

/-! ## One iteration -/

/-- A collection that is closed is stored in the one around it. -/
theorem settled_closed {p : Consumer} {ps : List Consumer} {t : SpecTree} (hp : Nested p ps) (hexp : Expects p t.mult) (hwf : t.WF)
    (s : Text) : Settled (finishElement (p.andConst t.isConst) ps t.build s) := by
  obtain ⟨role, hrole, hkey, hval⟩ := hexp.role
  refine settled_finishElement hp hrole ⟨hwf, hval, ?_⟩ s
  rintro seen rfl
  simp [Role.isKey] at hkey

/-- What closing the collection on top does: it is stored in the one around it, or it is a map that cannot end here. -/
inductive Closing (R : AsRandom) (c p : Consumer) (ps : List Consumer) (s : Text) : Prop where
  | stored {t : SpecTree} : t.WF → c.mult? = some t.mult →
      closeCollection R ⟨c, p :: ps, s⟩ = finishElement (p.andConst t.isConst) ps t.build s.tail → Closing R c p ps s
  | dangling {m : MapConsumer} {msg : String} : c = .map m → m.state = .key → m.listBuilder ≠ [] →
      closeCollection R ⟨c, p :: ps, s⟩ = .error ⟨msg, s, c :: p :: ps, .none⟩ → Closing R c p ps s
  | noValue {m : MapConsumer} {k : BinSpec} {msg : String} : c = .map m → m.state = .val k →
      closeCollection R ⟨c, p :: ps, s⟩ = .error ⟨msg, s, c :: p :: ps, .reserved⟩ → Closing R c p ps s

theorem closing_of_reading {c p : Consumer} {n : Nat} (hc : Reading c) (hn : c.mult? = some n) (hexp : Expects p n) (ps : List Consumer)
    (s : Text) : Closing R c p ps s := by
  cases hc with
  | @list b ts hwf hlt =>
    obtain rfl : b = some n := by simpa [Consumer.mult?, listAfter, ListConsumer.extend] using hn
    exact .stored (t := .list n ts) ⟨hexp.pos, hexp.lt, hlt, hwf⟩ rfl (closeCollection_list hwf hlt p ps s)
  | @key m kvs hkvs =>
    obtain rfl : m = n := by simpa [Consumer.mult?, mapAfter, MapConsumer.extend] using hn
    by_cases hempty : kvs = []
    · subst hempty
      have hkeys : KeysOk (([] : List (Leaf × SpecTree)).map Prod.fst) := hkvs.keys
      exact .stored (t := .map m []) ⟨hexp.pos, hexp.lt, hkvs.fits, hkvs.keys, hkvs.wf⟩ rfl (closeCollection_map hkeys p ps s)
    · exact .dangling rfl rfl (by simpa [mapAfter, MapConsumer.extend] using hempty)
        (by simp [closeCollection, mapAfter, MapConsumer.extend, hempty]; rfl)
  | val => exact .noValue rfl rfl rfl
  | @done m kvs hne hkvs =>
    obtain rfl : m = n := by simpa [Consumer.mult?, mapAfter, MapConsumer.extend] using hn
    have hafter : mapAfter m kvs .done = (⟨m, .key, true, [], 0⟩ : MapConsumer).extend kvs := by
      simp [mapAfter, MapConsumer.extend, hne]
    refine .stored (t := .map m kvs) ⟨hexp.pos, hexp.lt, hkvs.fits, hkvs.keys, hkvs.wf⟩ rfl ?_
    rw [hafter]
    exact closeCollection_map hkvs.keys p ps s

/-- At a delimiter the run ends, with the top level closed at the end of the text, or it goes on, or there is an error. -/
theorem close_cases {S : ParseState} (hS : InState S) :
    Settled (closeCollection R S) ∨
      (S.parents = [] ∧ S.top.delimiter = '\x00' ∧ ∃ specs n, closeCollection R S = .done specs n) := by
  obtain ⟨c, ps, s⟩ := S
  obtain ⟨hnest, -⟩ := hS
  cases hnest with
  | root hc hroot =>
    cases hc with
    | @list b ts hwf hlt =>
      obtain rfl : b = none := by simpa [Consumer.mult?, listAfter, ListConsumer.extend] using hroot
      exact Or.inr ⟨rfl, rfl, _, _, rfl⟩
    | key | val | done => simp [Consumer.mult?] at hroot
  | @inside _ p ps n hc hn hexp hp =>
    left
    cases closing_of_reading (R := R) hc hn hexp ps s with
    | stored hwf hmult hclose =>
      obtain rfl := Option.some.inj (hn.symm.trans hmult)
      rw [hclose]
      exact settled_closed hp hexp hwf s.tail
    | dangling _ _ _ hclose | noValue _ _ hclose =>
      rw [hclose]
      trivial

/-- A collection that opens stands in one that expects it. -/
theorem inState_opened {c : Consumer} {ps : List Consumer} {role : Role} {n : Nat} {s s' : Text} {t : Token} (h : Nested c ps)
    (hrole : c.role = some role) (hread : readElement role c.delimiter s = .ok (n, t, s')) (ht : role.isKey = false) :
    InState ⟨newList n, c :: ps, s'⟩ ∧ InState ⟨newMap n, c :: ps, s'⟩ := by
  obtain ⟨hpos, hlt, hval, -, -⟩ := readElement_ok hread
  have hexp : Expects c n := ⟨hpos, hlt, role, hrole, ht, hval⟩
  have hlist : newList n = .list (listAfter (some n) []) := by simp [newList, listAfter]
  have hmap : newMap n = .map (mapAfter n [] .key) := by simp [newMap, mapAfter]
  refine ⟨⟨?_, by simp [hlist, Consumer.role]⟩, ⟨?_, by simp [hmap, Consumer.role, mapAfter]⟩⟩
  · rw [hlist]
    exact .inside (.list trivial (by simp)) rfl hexp h
  · rw [hmap]
    exact .inside (.key ⟨trivial, ⟨by simp, by simp, by simp⟩, by simp⟩) rfl hexp h

theorem settled_consume {S : ParseState} (hS : InState S) (hne : peek S.str ≠ S.top.delimiter) : Settled (consumeBinType S) := by
  unfold consumeBinType
  cases hrole : S.top.role with
  | none => exact absurd (hS.atEnd hrole) hne
  | some role =>
    cases hread : readElement role S.top.delimiter S.str with
    | error e =>
      simp only [hread]
      trivial
    | ok r =>
      obtain ⟨n, tok, s⟩ := r
      obtain ⟨hpos, hlt, hval, htok, -⟩ := readElement_ok hread
      cases tok with
      | scalar x =>
        simp only [hread]
        refine settled_finishElement (t := .leaf ⟨n, x⟩) hS.nested hrole ⟨⟨hpos, hlt, htok.inRange⟩, hval, ?_⟩ s
        exact fun seen _ => ⟨⟨n, x⟩, rfl, htok⟩
      | openList =>
        simp only [hread]
        exact (inState_opened hS.nested hrole hread htok).1
      | openMap =>
        simp only [hread]
        exact (inState_opened hS.nested hrole hread htok).2

/-- One iteration from a state of the parser. -/
theorem parseStep_cases {S : ParseState} (hS : InState S) :
    Settled (parseStep R S) ∨ (S.parents = [] ∧ peek S.str = '\x00' ∧ ∃ specs n, parseStep R S = .done specs n) := by
  by_cases hend : peek S.str = S.top.delimiter
  · rw [parseStep_close hend, hend]
    exact close_cases hS
  · rw [parseStep_consume hend]
    exact Or.inl (settled_consume hS hend)

theorem inState_begin (str : Text) : InState (beginState str) := by
  have hlist : Consumer.list ⟨none, false, [], 0⟩ = .list (listAfter none []) := by simp [listAfter]
  refine ⟨?_, by simp [beginState, Consumer.role]⟩
  rw [beginState, hlist]
  exact .root (.list trivial (by simp)) rfl

end AerospikeBenchmark
