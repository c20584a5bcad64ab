import AerospikeBenchmark.Lemmas.Reads

/-!
# Runs of the parser

`Leads` is a run of the loop up to the outcome of some iteration. The stack machine reads exactly the texts of the relation
`Reads`: a tree that can be read is read by the machine (`leads_of_reads`, by induction on the tree), and a run that accepts reads
a tree (`reads_of_accepts`, by induction on the length of the text).
-/

namespace AerospikeBenchmark

open CText SpecTree

variable {R : AsRandom}

/-- From a state, some iterations that each go on, then one with the outcome `res`. -/
inductive Leads (R : AsRandom) : ParseState → StepResult → Prop where
  | last {S : ParseState} {res : StepResult} : parseStep R S = res → Leads R S res
  | more {S S' : ParseState} {res : StepResult} : parseStep R S = .next S' → Leads R S' res → Leads R S res

theorem Leads.trans {S S' : ParseState} {res : StepResult} (h : Leads R S (.next S')) (h' : Leads R S' res) : Leads R S res := by
  generalize hres : StepResult.next S' = mid at h
  induction h with
  | last hstep => exact .more (hstep.trans hres.symm) h'
  | more hstep _ ih => exact .more hstep (ih hres)

/-- A run that ends with `done` has ended or goes on. -/
theorem Leads.done_cases {S : ParseState} {specs : List BinSpec} {n : Nat} (h : Leads R S (.done specs n)) :
    parseStep R S = .done specs n ∨ ∃ S', parseStep R S = .next S' ∧ Leads R S' (.done specs n) := by
  cases h with
  | last hstep => exact Or.inl hstep
  | more hstep hrest => exact Or.inr ⟨_, hstep, hrest⟩

/-- Where a step goes on, the run does. -/
theorem Leads.next {S S' : ParseState} {specs : List BinSpec} {n : Nat} (h : Leads R S (.done specs n)) (hstep : parseStep R S = .next S') :
    Leads R S' (.done specs n) := by
  rcases h.done_cases with hdone | ⟨S'', hnext, hrest⟩
  · cases hstep.symm.trans hdone
  · cases hstep.symm.trans hnext
    exact hrest

/-- A run to the end goes through no error and no fault. -/
theorem Leads.ne_error {S : ParseState} {specs : List BinSpec} {n : Nat} (h : Leads R S (.done specs n)) (e : ParseError) :
    parseStep R S ≠ .error e := by
  intro herror
  rcases h.done_cases with hdone | ⟨S', hnext, -⟩
  · cases herror.symm.trans hdone
  · cases herror.symm.trans hnext

theorem Leads.ne_fault {S : ParseState} {specs : List BinSpec} {n : Nat} (h : Leads R S (.done specs n)) : parseStep R S ≠ .fault := by
  intro hfault
  rcases h.done_cases with hdone | ⟨S', hnext, -⟩
  · cases hfault.symm.trans hdone
  · cases hfault.symm.trans hnext

/-! ## Collections after some elements -/

/-- A list after some more elements. -/
def ListConsumer.extend (c : ListConsumer) (ts : List SpecTree) : ListConsumer :=
  { c with isConst := c.isConst && allConst ts, listBuilder := c.listBuilder ++ ts.map build, listLen := c.listLen + total ts }

/-- A map after some more pairs. -/
def MapConsumer.extend (c : MapConsumer) (kvs : List (Leaf × SpecTree)) : MapConsumer :=
  { c with
    state := if kvs = [] then c.state else .done
    isConst := c.isConst && allConstPairs kvs
    listBuilder := c.listBuilder ++ kvs.map fun p => (p.1.build, p.2.build)
    listLen := c.listLen + keyTotal kvs }

@[simp] theorem ListConsumer.extend_nil (c : ListConsumer) : c.extend [] = c := by
  simp [ListConsumer.extend, allConst]

@[simp] theorem MapConsumer.extend_nil (c : MapConsumer) : c.extend [] = c := by
  simp [MapConsumer.extend, allConstPairs]

/-- One element more, as `finishList` stores it. -/
def ListConsumer.add (c : ListConsumer) (t : SpecTree) : ListConsumer :=
  { c with isConst := t.isConst && c.isConst, listBuilder := c.listBuilder ++ [t.build], listLen := c.listLen + t.mult }

theorem ListConsumer.extend_add (c : ListConsumer) (t : SpecTree) (ts : List SpecTree) :
    (c.add t).extend ts = c.extend (t :: ts) := by
  simp [ListConsumer.extend, ListConsumer.add, allConst, Nat.add_assoc, Bool.and_comm, Bool.and_left_comm]

/-- A map in which a key has been read. -/
def MapConsumer.withKey (c : MapConsumer) (k : Leaf) : MapConsumer :=
  { c with state := .val k.build, isConst := k.type.isConst && c.isConst, listLen := c.listLen + k.mult }

/-- A map in which a pair has been read, in the state `st` that follows. -/
def MapConsumer.add (c : MapConsumer) (st : MapState) (k : Leaf) (v : SpecTree) : MapConsumer :=
  { c with
    state := st
    isConst := v.isConst && (k.type.isConst && c.isConst)
    listBuilder := c.listBuilder ++ [(k.build, v.build)]
    listLen := c.listLen + k.mult }

theorem MapConsumer.extend_add_key (c : MapConsumer) (k : Leaf) (v : SpecTree) {kvs : List (Leaf × SpecTree)} (h : kvs ≠ []) :
    (c.add .key k v).extend kvs = c.extend ((k, v) :: kvs) := by
  simp [MapConsumer.extend, MapConsumer.add, allConstPairs, h, Nat.add_assoc, Bool.and_assoc, Bool.and_comm, Bool.and_left_comm]

theorem MapConsumer.add_done (c : MapConsumer) (k : Leaf) (v : SpecTree) : c.add .done k v = c.extend [(k, v)] := by
  simp [MapConsumer.extend, MapConsumer.add, allConstPairs, Bool.and_assoc, Bool.and_comm]

/-! ## The code after an element -/

theorem delimiter_list_eq {c c' : ListConsumer} (h : c.binSpec = c'.binSpec) :
    (Consumer.list c).delimiter = (Consumer.list c').delimiter := by
  obtain ⟨b, _, _, _⟩ := c
  obtain ⟨b', _, _, _⟩ := c'
  simp only at h
  subst h
  cases b <;> rfl

@[simp] theorem delimiter_add (c : ListConsumer) (t : SpecTree) :
    (Consumer.list (c.add t)).delimiter = (Consumer.list c).delimiter :=
  delimiter_list_eq rfl

/-- The overflow check of a 32-bit length. -/
theorem length_check {len n : Nat} (hl : len < 2 ^ 32) (hn : n < 2 ^ 32) :
    (len + n < 2 ^ 32 ∧ (len + n) % 2 ^ 32 = len + n ∧ ¬ len + n < n) ∨
      (¬ len + n < 2 ^ 32 ∧ (len + n) % 2 ^ 32 < n) := by
  omega

/-- `finishList` goes on exactly after a separator, when the length still fits. -/
theorem finishList_next_iff {c : ListConsumer} (hc : c.listLen < 2 ^ 32) {ps : List Consumer} {t : SpecTree} (ht : t.mult < 2 ^ 32)
    {s : Text} {S' : ParseState} :
    finishElement ((Consumer.list c).andConst t.isConst) ps t.build s = .next S' ↔
      c.listLen + t.mult < 2 ^ 32 ∧ ∃ s', Separator (Consumer.list c).delimiter s s' ∧ S' = ⟨.list (c.add t), ps, s'⟩ := by
  have hd : (Consumer.list { c with isConst := t.isConst && c.isConst }).delimiter = (Consumer.list c).delimiter :=
    delimiter_list_eq rfl
  simp only [Consumer.andConst, finishElement, finishList, nRepeats_build, hd]
  rcases length_check hc ht with ⟨hfit, hmod, hge⟩ | ⟨hfit, hlt⟩
  · simp only [hmod, hge, if_false, hfit, true_and, Separator]
    by_cases hcomma : peek s = ','
    · simp [hcomma, ListConsumer.add, eq_comm]
    · by_cases hend : peek (skipBlank s) = (Consumer.list c).delimiter
      · simp [hcomma, hend, ListConsumer.add, eq_comm]
      · simp only [hcomma, hend, if_false, ne_eq, not_false_eq_true, if_true, reduceCtorEq, false_and, true_and, false_or,
          false_iff, not_exists, not_and]
        rintro s' ⟨rfl, h⟩
        exact absurd h hend
  · simp only [hlt, if_true]
    exact iff_of_false (by simp) fun h => hfit h.1

/-- `finishKey` goes on exactly before a colon, when the length still fits. -/
theorem finishKey_next_iff {c : MapConsumer} (hst : c.state = .key) (hc : c.listLen < 2 ^ 32) {ps : List Consumer} {k : Leaf}
    (hk : k.mult < 2 ^ 32) {s : Text} {S' : ParseState} :
    finishElement ((Consumer.map c).andConst k.type.isConst) ps k.build s = .next S' ↔
      c.listLen + k.mult < 2 ^ 32 ∧ peek (skipBlank s) = ':' ∧
        S' = ⟨.map (c.withKey k), ps, skipBlank (skipBlank s).tail⟩ := by
  simp only [Consumer.andConst, finishElement, hst, finishKey, Leaf.build, BinSpec.nRepeats]
  rcases length_check hc hk with ⟨hfit, hmod, hge⟩ | ⟨hfit, hlt⟩
  · simp only [hmod, hge, if_false, hfit, true_and]
    by_cases hcolon : peek (skipBlank s) = ':'
    · simp [hcolon, MapConsumer.withKey, Leaf.build, eq_comm]
    · simp [hcolon]
  · simp only [hlt, if_true]
    exact iff_of_false (by simp) fun h => hfit h.1

/-- `finishValue` goes on exactly before a comma, to the next key, or before the closing brace. -/
theorem finishValue_next_iff {c : MapConsumer} {ps : List Consumer} {k : Leaf} {v : SpecTree} {s : Text} {S' : ParseState} :
    finishElement ((Consumer.map (c.withKey k)).andConst v.isConst) ps v.build s = .next S' ↔
      (peek (skipBlank s) = ',' ∧ S' = ⟨.map (c.add .key k v), ps, skipBlank (skipBlank s).tail⟩) ∨
        (peek (skipBlank s) = '\x7d' ∧ S' = ⟨.map (c.add .done k v), ps, skipBlank s⟩) := by
  simp only [Consumer.andConst, finishElement, MapConsumer.withKey, finishValue, Consumer.delimiter]
  by_cases hcomma : peek (skipBlank s) = ','
  · simp [hcomma, MapConsumer.add, eq_comm]
  · by_cases hend : peek (skipBlank s) = '\x7d'
    · simp [hend, MapConsumer.add, eq_comm]
    · simp [hcomma, hend]

/-! ## One iteration -/

theorem parseStep_consume {S : ParseState} (h : peek S.str ≠ S.top.delimiter) : parseStep R S = consumeBinType S := by
  simp [parseStep, h]

theorem parseStep_close {S : ParseState} (h : peek S.str = S.top.delimiter) : parseStep R S = closeCollection R S := by
  simp [parseStep, h]

/-- Closing a list of trees that were read stores the `build` of the list. -/
theorem closeCollection_list {n : Nat} {ts : List SpecTree} (hwf : WFList ts) (hlt : total ts < 2 ^ 32) (p : Consumer)
    (ps : List Consumer) (s : Text) :
    closeCollection R ⟨.list ((⟨some n, true, [], 0⟩ : ListConsumer).extend ts), p :: ps, s⟩ =
      finishElement (p.andConst (SpecTree.list n ts).isConst) ps (build (.list n ts)) s.tail := by
  simp [closeCollection, ListConsumer.extend, popState, foldIf_list R hwf hlt, isConst]

/-- Closing a map of pairs that were read stores the `build` of the map. -/
theorem closeCollection_map {n : Nat} {kvs : List (Leaf × SpecTree)} (hk : KeysOk (kvs.map Prod.fst)) (p : Consumer)
    (ps : List Consumer) (s : Text) :
    closeCollection R ⟨.map ((⟨n, .key, true, [], 0⟩ : MapConsumer).extend kvs), p :: ps, s⟩ =
      finishElement (p.andConst (SpecTree.map n kvs).isConst) ps (build (.map n kvs)) s.tail := by
  have hfold := foldIf_map R (n := n) hk
  by_cases h : kvs = []
  · subst h
    simp only [List.length_nil, keyTotal_nil, List.map_nil, allConstPairs] at hfold
    simp [closeCollection, popState, hfold, isConst, allConstPairs]
  · simp [closeCollection, MapConsumer.extend, h, popState, hfold, isConst]

/-! ## The machine reads every tree that can be read -/

/-- In any collection that expects it, the machine reads the tree and gets to the code after the element. -/
def LeadsOver (R : AsRandom) (t : SpecTree) : Prop :=
  ∀ (c : Consumer) (role : Role) (ps : List Consumer) (s s' : Text), c.role = some role → peek s ≠ c.delimiter →
    Reads role c.delimiter t s s' → Leads R ⟨c, ps, s⟩ (finishElement (c.andConst t.isConst) ps t.build s')

theorem leads_elems {ts : List SpecTree} (ih : ∀ t ∈ ts, LeadsOver R t) :
    ∀ (c : ListConsumer) (ps : List Consumer) {s s' : Text}, ReadsElems (Consumer.list c).delimiter ts s s' →
      c.listLen + total ts < 2 ^ 32 → Leads R ⟨.list c, ps, s⟩ (parseStep R ⟨.list (c.extend ts), ps, s'⟩) := by
  induction ts with
  | nil =>
    rintro c ps s s' ⟨-, rfl⟩ -
    rw [ListConsumer.extend_nil]
    exact .last rfl
  | cons t ts ihts =>
    rintro c ps s s' ⟨hne, s₁, s₂, ht, hsep, hts⟩ hlt
    simp only [total_cons] at hlt
    have helem := ih t List.mem_cons_self (.list c) .elem ps s s₁ rfl hne ht
    have hmult := (wf_of_reads t _ _ _ _ ht).1.mult_bounds.2
    rw [(finishList_next_iff (by omega) hmult).mpr ⟨by omega, s₂, hsep, rfl⟩] at helem
    have hrest := ihts (fun t' h' => ih t' (List.mem_cons_of_mem _ h')) (c.add t) ps
      (by rw [delimiter_add]; exact hts) (by simp only [ListConsumer.add]; omega)
    rw [ListConsumer.extend_add] at hrest
    exact helem.trans hrest

/-- The machine reads a key. -/
theorem leads_key {c : MapConsumer} (hst : c.state = .key) (ps : List Consumer) {k : Leaf} {s s₁ : Text} (hne : peek s ≠ '\x7d')
    (hk : readElement (.key (c.listBuilder.map Prod.fst)) '\x7d' s = .ok (k.mult, .scalar k.type, s₁))
    (hlt : c.listLen + k.mult < 2 ^ 32) (hcolon : peek (skipBlank s₁) = ':') :
    Leads R ⟨.map c, ps, s⟩ (.next ⟨.map (c.withKey k), ps, skipBlank (skipBlank s₁).tail⟩) := by
  have hrole : (Consumer.map c).role = some (.key (c.listBuilder.map Prod.fst)) := by simp [Consumer.role, hst]
  refine .last ?_
  rw [parseStep_consume (by exact hne)]
  simp only [consumeBinType, hrole, Consumer.delimiter, hk]
  exact (finishKey_next_iff hst (by omega) (by omega)).mpr ⟨hlt, hcolon, rfl⟩

theorem leads_pairs {kvs : List (Leaf × SpecTree)} (ih : ∀ p ∈ kvs, LeadsOver R p.2) :
    ∀ (c : MapConsumer) (seen : List Leaf) (ps : List Consumer) {s s' : Text}, c.state = .key →
      c.listBuilder.map Prod.fst = seen.map Leaf.build → ReadsPairs seen kvs s s' → c.listLen + keyTotal kvs < 2 ^ 32 →
      Leads R ⟨.map c, ps, s⟩ (parseStep R ⟨.map (c.extend kvs), ps, s'⟩) := by
  induction kvs with
  | nil =>
    rintro c seen ps s s' - - ⟨-, -, rfl⟩ -
    rw [MapConsumer.extend_nil]
    exact .last rfl
  | cons p kvs ihkvs =>
    obtain ⟨k, v⟩ := p
    rintro c seen ps s s' hst hseen ⟨hne, s₁, s₂, hk, hcolon, hne', hv, hrest⟩ hlt
    simp only [keyTotal_cons] at hlt
    rw [← hseen] at hk
    have hkey := leads_key (R := R) hst ps hne hk (by omega) hcolon
    have hval := ih (k, v) List.mem_cons_self (.map (c.withKey k)) .val ps _ s₂ rfl hne' hv
    rcases hrest with ⟨rfl, hend, rfl⟩ | ⟨hcomma, hrest⟩
    · rw [finishValue_next_iff.mpr (Or.inr ⟨hend, rfl⟩)] at hval
      rw [← MapConsumer.add_done]
      exact (hkey.trans hval).trans (.last rfl)
    · rw [finishValue_next_iff.mpr (Or.inl ⟨hcomma, rfl⟩)] at hval
      have hkvs : kvs ≠ [] := by
        rintro rfl
        simp [ReadsPairs] at hrest
      have hgo := ihkvs (fun p hp => ih p (List.mem_cons_of_mem _ hp)) (c.add .key k v) (seen ++ [k]) ps rfl
        (by simp [MapConsumer.add, hseen]) hrest (by simp only [MapConsumer.add]; omega)
      rw [MapConsumer.extend_add_key c k v hkvs] at hgo
      exact (hkey.trans hval).trans hgo

/-- Every tree that can be read is read by the machine. -/
theorem leads_of_reads (t : SpecTree) : LeadsOver R t := by
  induction t using SpecTree.induct with
  | leaf l =>
    intro c role ps s s' hrole hne h
    refine .last ?_
    rw [parseStep_consume (by exact hne)]
    simp only [Reads] at h
    simp only [consumeBinType, hrole, h]
    rfl
  | list n es ih =>
    rintro c role ps s s' hrole hne ⟨s₁, s₂, h, hes, hlt, rfl⟩
    have hopen : parseStep R ⟨c, ps, s⟩ = .next ⟨newList n, c :: ps, s₁⟩ := by
      rw [parseStep_consume (by exact hne)]
      simp only [consumeBinType, hrole, h]
    have hin := leads_elems ih ⟨some n, true, [], 0⟩ (c :: ps) hes (by simpa using hlt)
    rw [parseStep_close (by exact hes.peek_end), closeCollection_list hes.wfList hlt] at hin
    exact .more hopen hin
  | map n kvs ih =>
    rintro c role ps s s' hrole hne ⟨s₁, s₂, h, hkvs, hlt, rfl⟩
    have hopen : parseStep R ⟨c, ps, s⟩ = .next ⟨newMap n, c :: ps, s₁⟩ := by
      rw [parseStep_consume (by exact hne)]
      simp only [consumeBinType, hrole, h]
    have hin := leads_pairs ih ⟨n, .key, true, [], 0⟩ [] (c :: ps) rfl rfl hkvs (by simpa using hlt)
    rw [parseStep_close (by exact hkvs.peek_end), closeCollection_map hkvs.keysOk] at hin
    exact .more hopen hin

/-! ## A run that accepts reads a tree -/

/-- The outcome is a state from which the parser accepts. -/
def GoesOn (R : AsRandom) (res : StepResult) (o : ObjSpec) : Prop :=
  ∃ S', res = .next S' ∧ Leads R S' (.done o.binSpecs o.nBinSpecs)

theorem finishElement_ne_done (c : Consumer) (ps : List Consumer) (spec : BinSpec) (s : Text) (specs : List BinSpec) (n : Nat) :
    finishElement c ps spec s ≠ .done specs n := by
  unfold finishElement finishList finishKey finishValue
  cases c with
  | list c => simp only; split <;> [skip; split <;> [skip; split]] <;> simp
  | map c =>
    cases hst : c.state with
    | key => simp only [hst]; split <;> [skip; split] <;> simp
    | val k => simp only [hst]; split <;> [skip; split] <;> simp
    | done => simp [hst]

/-- An accepting run from a state whose iteration ends in `finishElement` goes on from there. -/
theorem goesOn_of_finish {S : ParseState} {o : ObjSpec} {c : Consumer} {ps : List Consumer} {spec : BinSpec} {s : Text}
    (h : Leads R S (.done o.binSpecs o.nBinSpecs)) (hstep : parseStep R S = finishElement c ps spec s) :
    GoesOn R (finishElement c ps spec s) o := by
  rcases h.done_cases with hd | ⟨S', hn, hrest⟩
  · exact absurd (hstep.symm.trans hd) (finishElement_ne_done _ _ _ _ _ _)
  · exact ⟨S', hstep.symm.trans hn, hrest⟩

/-- What an accepting run says about a collection that expects an element: a tree is read in front of it. -/
def ReadsFirst (R : AsRandom) (S : ParseState) : Prop :=
  ∀ o role, Leads R S (.done o.binSpecs o.nBinSpecs) → S.top.role = some role → peek S.str ≠ S.top.delimiter →
    ∃ t s', Reads role S.top.delimiter t S.str s' ∧ s'.length < S.str.length ∧
      GoesOn R (finishElement (S.top.andConst t.isConst) S.parents t.build s') o

theorem separator_length {delim : Char} {s s' : Text} (h : Separator delim s s') : s'.length ≤ s.length := by
  rcases h with ⟨-, rfl⟩ | ⟨-, rfl, -⟩
  · exact ((skipBlank_suffix _).trans (List.tail_suffix _)).length_le
  · exact (skipBlank_suffix _).length_le

/-- The rest of a list is read, if first elements are. -/
theorem readsElems_of_accepts {N : Nat} (hfirst : ∀ S : ParseState, S.str.length ≤ N → ReadsFirst R S) {o : ObjSpec} :
    ∀ {n : Nat}, n ≤ N → ∀ {c : ListConsumer} {ps : List Consumer} {s : Text}, s.length ≤ n → c.listLen < 2 ^ 32 →
      Leads R ⟨.list c, ps, s⟩ (.done o.binSpecs o.nBinSpecs) →
      ∃ ts s', ReadsElems (Consumer.list c).delimiter ts s s' ∧ c.listLen + total ts < 2 ^ 32 ∧ s'.length ≤ s.length ∧
        Leads R ⟨.list (c.extend ts), ps, s'⟩ (.done o.binSpecs o.nBinSpecs) := by
  intro n hn
  induction n using Nat.strong_induction_on with
  | h n ih =>
    intro c ps s hs hc h
    by_cases hend : peek s = (Consumer.list c).delimiter
    · exact ⟨[], s, ⟨hend, rfl⟩, by simpa using hc, le_rfl, by simpa using h⟩
    · obtain ⟨t, s₁, ht, hlen, S', hnext, hrest⟩ := hfirst ⟨.list c, ps, s⟩ (by simp only; omega) o .elem h rfl hend
      simp only at ht hlen hnext
      have hmult := (wf_of_reads t _ _ _ _ ht).1.mult_bounds.2
      obtain ⟨hfit, s₂, hsep, rfl⟩ := (finishList_next_iff hc hmult).mp hnext
      have hlen' := separator_length hsep
      obtain ⟨ts, s', hts, htot, hle, hgo⟩ :=
        ih (n - 1) (by omega) (by omega) (c := c.add t) (by omega) (by simpa [ListConsumer.add] using hfit) hrest
      refine ⟨t :: ts, s', ⟨hend, s₁, s₂, ht, hsep, by simpa using hts⟩, ?_, by omega, ?_⟩
      · simp only [ListConsumer.add] at htot
        rw [total_cons]
        omega
      · rwa [ListConsumer.extend_add] at hgo

/-- The iteration that reads a key. -/
theorem readsKey_of_accepts {o : ObjSpec} {c : MapConsumer} (hst : c.state = .key) (hc : c.listLen < 2 ^ 32) {ps : List Consumer}
    {s : Text} (hne : peek s ≠ '\x7d') (h : Leads R ⟨.map c, ps, s⟩ (.done o.binSpecs o.nBinSpecs)) :
    ∃ k s₁, readElement (.key (c.listBuilder.map Prod.fst)) '\x7d' s = .ok (k.mult, .scalar k.type, s₁) ∧
      s₁.length < s.length ∧ c.listLen + k.mult < 2 ^ 32 ∧ peek (skipBlank s₁) = ':' ∧
      Leads R ⟨.map (c.withKey k), ps, skipBlank (skipBlank s₁).tail⟩ (.done o.binSpecs o.nBinSpecs) := by
  have hrole : (Consumer.map c).role = some (.key (c.listBuilder.map Prod.fst)) := by simp [Consumer.role, hst]
  have hstep : parseStep R ⟨.map c, ps, s⟩ = consumeBinType ⟨.map c, ps, s⟩ := parseStep_consume (by exact hne)
  simp only [consumeBinType, hrole, Consumer.delimiter] at hstep
  cases hread : readElement (.key (c.listBuilder.map Prod.fst)) '\x7d' s with
  | error e =>
    rw [hread] at hstep
    exact absurd hstep (h.ne_error _)
  | ok r =>
    obtain ⟨n, tok, s₁⟩ := r
    obtain ⟨-, hn, -, hkind, hadv⟩ := readElement_ok hread
    rw [hread] at hstep
    cases tok with
    | openList | openMap => simp [Token.ReadAs, Role.isKey] at hkind
    | scalar x =>
      obtain ⟨S', hnext, hrest⟩ := goesOn_of_finish h hstep
      obtain ⟨hfit, hcolon, rfl⟩ := (finishKey_next_iff (k := ⟨n, x⟩) hst hc hn).mp hnext
      exact ⟨⟨n, x⟩, s₁, rfl, hadv.length_lt, hfit, hcolon, hrest⟩

/-- A map does not end between a key and its value. -/
theorem ne_brace_of_accepts {o : ObjSpec} {c : MapConsumer} {k : Leaf} {ps : List Consumer} {s : Text}
    (h : Leads R ⟨.map (c.withKey k), ps, s⟩ (.done o.binSpecs o.nBinSpecs)) : peek s ≠ '\x7d' := by
  intro hend
  have hstep : parseStep R ⟨.map (c.withKey k), ps, s⟩ = closeCollection R ⟨.map (c.withKey k), ps, s⟩ :=
    parseStep_close (by exact hend)
  exact h.ne_error _ hstep

/-- The rest of a map is read, if first elements are. -/
theorem readsPairs_of_accepts {N : Nat} (hfirst : ∀ S : ParseState, S.str.length ≤ N → ReadsFirst R S) {o : ObjSpec} :
    ∀ {n : Nat}, n ≤ N → ∀ (c : MapConsumer) (seen : List Leaf) {ps : List Consumer} {s : Text}, s.length ≤ n →
      c.state = .key → c.listBuilder.map Prod.fst = seen.map Leaf.build → c.listLen < 2 ^ 32 →
      Leads R ⟨.map c, ps, s⟩ (.done o.binSpecs o.nBinSpecs) →
      ∃ kvs s', ReadsPairs seen kvs s s' ∧ c.listLen + keyTotal kvs < 2 ^ 32 ∧ s'.length ≤ s.length ∧
        Leads R ⟨.map (c.extend kvs), ps, s'⟩ (.done o.binSpecs o.nBinSpecs) := by
  intro n hn
  induction n using Nat.strong_induction_on with
  | h n ih =>
    intro c seen ps s hs hst hseen hc h
    by_cases hend : peek s = '\x7d'
    · -- a brace where a key may stand ends the map only if there was no pair
      have hempty : seen = [] := by
        have hstep : parseStep R ⟨.map c, ps, s⟩ = closeCollection R ⟨.map c, ps, s⟩ := parseStep_close (by exact hend)
        by_contra hne
        have hb : c.listBuilder ≠ [] := by
          intro hb
          rw [hb, List.map_nil] at hseen
          exact hne (List.map_eq_nil_iff.mp hseen.symm)
        simp only [closeCollection, hst, if_neg hb] at hstep
        exact h.ne_error _ hstep
      exact ⟨[], s, ⟨hempty, hend, rfl⟩, by simpa using hc, le_rfl, by simpa using h⟩
    · obtain ⟨k, s₁, hk, hlen, hfit, hcolon, hval⟩ := readsKey_of_accepts hst hc hend h
      have h1 := (skipBlank_suffix s₁).length_le
      have h2 := (skipBlank_suffix (skipBlank s₁).tail).length_le
      simp only [List.length_tail] at h2
      have hne := ne_brace_of_accepts hval
      obtain ⟨v, s₂, hv, hvlen, S', hnext, hrest⟩ :=
        hfirst ⟨.map (c.withKey k), ps, skipBlank (skipBlank s₁).tail⟩ (by simp only; omega) o .val hval rfl hne
      simp only at hv hvlen hnext
      have h3 := (skipBlank_suffix s₂).length_le
      have h4 := (skipBlank_suffix (skipBlank s₂).tail).length_le
      simp only [List.length_tail] at h4
      rw [hseen] at hk
      rcases finishValue_next_iff.mp hnext with ⟨hcomma, rfl⟩ | ⟨hbrace, rfl⟩
      · obtain ⟨kvs, s', hkvs, htot, hle, hgo⟩ := ih (n - 1) (by omega) (by omega) (c.add .key k v) (seen ++ [k])
          (by omega) rfl (by simp [MapConsumer.add, hseen]) (by simpa [MapConsumer.add] using hfit) hrest
        have hne' : kvs ≠ [] := by
          rintro rfl
          simp [ReadsPairs] at hkvs
        refine ⟨(k, v) :: kvs, s', ⟨hend, s₁, s₂, hk, hcolon, hne, hv, Or.inr ⟨hcomma, hkvs⟩⟩, ?_, by omega, ?_⟩
        · simp only [MapConsumer.add] at htot
          simp only [keyTotal_cons]
          omega
        · rwa [MapConsumer.extend_add_key c k v hne'] at hgo
      · refine ⟨[(k, v)], skipBlank s₂, ⟨hend, s₁, s₂, hk, hcolon, hne, hv, Or.inl ⟨rfl, hbrace, rfl⟩⟩, ?_, by omega, ?_⟩
        · simpa using hfit
        · rwa [MapConsumer.add_done] at hrest

/-- In an accepting run, a collection that expects an element has a tree in front of it. -/
theorem reads_of_accepts : ∀ (n : Nat) (S : ParseState), S.str.length ≤ n → ReadsFirst R S := by
  intro n
  induction n using Nat.strong_induction_on with
  | h n ih =>
    rintro ⟨c, ps, s⟩ hS o role h hrole hne
    simp only at hS hrole hne ⊢
    have hstep : parseStep R ⟨c, ps, s⟩ = consumeBinType ⟨c, ps, s⟩ := parseStep_consume (by exact hne)
    simp only [consumeBinType, hrole] at hstep
    cases hread : readElement role c.delimiter s with
    | error e =>
      rw [hread] at hstep
      exact absurd hstep (h.ne_error _)
    | ok r =>
      obtain ⟨m, tok, s₁⟩ := r
      have hlen := (readElement_ok hread).2.2.2.2.length_lt
      rw [hread] at hstep
      have hfirst : ∀ S : ParseState, S.str.length ≤ n - 1 → ReadsFirst R S := fun S hS' => ih (n - 1) (by omega) S hS'
      cases tok with
      | scalar x => exact ⟨.leaf ⟨m, x⟩, s₁, hread, hlen, goesOn_of_finish h hstep⟩
      | openList =>
        have hrest := h.next hstep
        obtain ⟨ts, s₂, hts, htot, hle, hgo⟩ :=
          readsElems_of_accepts hfirst le_rfl (c := ⟨some m, true, [], 0⟩) (by omega) (by simp) hrest
        simp only [Nat.zero_add] at htot
        have hclose := (parseStep_close (R := R)
          (S := ⟨.list ((⟨some m, true, [], 0⟩ : ListConsumer).extend ts), c :: ps, s₂⟩) (by exact hts.peek_end)).trans
          (closeCollection_list hts.wfList htot c ps s₂)
        exact ⟨.list m ts, s₂.tail, ⟨s₁, s₂, hread, hts, htot, rfl⟩, by simp only [List.length_tail]; omega,
          goesOn_of_finish hgo hclose⟩
      | openMap =>
        have hrest := h.next hstep
        obtain ⟨kvs, s₂, hkvs, htot, hle, hgo⟩ :=
          readsPairs_of_accepts hfirst le_rfl ⟨m, .key, true, [], 0⟩ [] (by omega) rfl rfl (by simp) hrest
        simp only [Nat.zero_add] at htot
        have hclose := (parseStep_close (R := R)
          (S := ⟨.map ((⟨m, .key, true, [], 0⟩ : MapConsumer).extend kvs), c :: ps, s₂⟩) (by exact hkvs.peek_end)).trans
          (closeCollection_map hkvs.keysOk c ps s₂)
        exact ⟨.map m kvs, s₂.tail, ⟨s₁, s₂, hread, hkvs, htot, rfl⟩, by simp only [List.length_tail]; omega,
          goesOn_of_finish hgo hclose⟩

/-! ## The loop -/

/-- What `finishElement` does when it goes on: the element is stored in the list, becomes the key of the next pair, or completes the
pair. -/
inductive ElementStored (ps : List Consumer) (spec : BinSpec) : Consumer → ParseState → Prop where
  | list (c : ListConsumer) (r : Text) : ElementStored ps spec (.list c)
      ⟨.list { c with listLen := (c.listLen + spec.nRepeats) % 2 ^ 32, listBuilder := c.listBuilder ++ [spec] }, ps, r⟩
  | key (c : MapConsumer) (r : Text) : ElementStored ps spec (.map c)
      ⟨.map { c with state := .val spec, listLen := (c.listLen + spec.nRepeats) % 2 ^ 32 }, ps, r⟩
  | value (c : MapConsumer) (key : BinSpec) (state : MapState) (r : Text) : ElementStored ps spec (.map c)
      ⟨.map { c with state := state, listBuilder := c.listBuilder ++ [(key, spec)] }, ps, r⟩

theorem finishElement_next {c : Consumer} {ps : List Consumer} {spec : BinSpec} {s : Text} {S' : ParseState}
    (h : finishElement c ps spec s = .next S') : ElementStored ps spec c S' ∧ S'.str <:+ s := by
  have hblank := skipBlank_suffix s
  have hcomma : skipBlank s.tail <:+ s := (skipBlank_suffix _).trans (List.tail_suffix s)
  have hnext : skipBlank (skipBlank s).tail <:+ s := ((skipBlank_suffix _).trans (List.tail_suffix _)).trans hblank
  unfold finishElement at h
  cases c with
  | list c =>
    simp only [finishList] at h
    split at h
    · cases h
    split at h
    · obtain rfl := StepResult.next.inj h
      exact ⟨.list c _, hcomma⟩
    split at h
    · cases h
    · obtain rfl := StepResult.next.inj h
      exact ⟨.list c _, hblank⟩
  | map c =>
    cases hst : c.state with
    | key =>
      simp only [hst, finishKey] at h
      split at h
      · cases h
      split at h
      · cases h
      · obtain rfl := StepResult.next.inj h
        exact ⟨.key c _, hnext⟩
    | val k =>
      simp only [hst, finishValue] at h
      split at h
      · obtain rfl := StepResult.next.inj h
        exact ⟨.value c k .key _, hnext⟩
      split at h
      · cases h
      · obtain rfl := StepResult.next.inj h
        exact ⟨.value c k .done _, hblank⟩
    | done => simp [hst] at h

theorem popState_suffix {b : Bool} {spec : BinSpec} {ps : List Consumer} {s : Text} {S' : ParseState}
    (h : popState R b spec ps s = .next S') : S'.str <:+ s := by
  unfold popState at h
  split at h
  · exact (finishElement_next h).2
  · simp at h

/-- What reading a bin type does when it goes on: it is stored in the collection on top, or opens a collection. -/
inductive ConsumeMove (S S' : ParseState) : Prop where
  | stored {role : Role} {mult : Nat} {s : Scalar} {str : Text}
      (hread : readElement role S.top.delimiter S.str = .ok (mult, .scalar s, str))
      (hfinish : finishElement (S.top.andConst s.isConst) S.parents (.scalar mult s) str = .next S')
  | opened {role : Role} {mult : Nat} {token : Token} (hread : readElement role S.top.delimiter S.str = .ok (mult, token, S'.str))
      (hparents : S'.parents = S.top :: S.parents) (htop : S'.top = newList mult ∨ S'.top = newMap mult)

theorem consumeBinType_next {S S' : ParseState} (h : consumeBinType S = .next S') : ConsumeMove S S' := by
  unfold consumeBinType at h
  split at h
  · cases h
  split at h
  · cases h
  · next hread => exact .stored hread h
  · next hread =>
    obtain rfl := StepResult.next.inj h
    exact .opened hread rfl (Or.inl rfl)
  · next hread =>
    obtain rfl := StepResult.next.inj h
    exact .opened hread rfl (Or.inr rfl)

/-- Every iteration that goes on moves forward in the text. -/
theorem parseStep_advances {S S' : ParseState} (h : parseStep R S = .next S') : Advances S.str S'.str := by
  obtain ⟨c, ps, s⟩ := S
  by_cases hend : peek s = c.delimiter
  · have hstep : closeCollection R ⟨c, ps, s⟩ = .next S' := (parseStep_close (by exact hend)).symm.trans h
    -- a delimiter that closes a collection is not the end of the text
    cases c with
    | list c =>
      obtain ⟨_ | n, _, _, _⟩ := c
      · simp [closeCollection] at hstep
      · exact advances_of_peek (c := ']') hend (by decide) (popState_suffix hstep)
    | map c =>
      cases hst : c.state with
      | key =>
        simp only [closeCollection, hst] at hstep
        split at hstep
        · exact advances_of_peek (c := '\x7d') hend (by decide) (popState_suffix hstep)
        · simp at hstep
      | val k => simp [closeCollection, hst] at hstep
      | done =>
        simp only [closeCollection, hst] at hstep
        exact advances_of_peek (c := '\x7d') hend (by decide) (popState_suffix hstep)
  · have hstep : consumeBinType ⟨c, ps, s⟩ = .next S' := (parseStep_consume (by exact hend)).symm.trans h
    cases consumeBinType_next hstep with
    | stored hread hfinish => exact (readElement_ok hread).2.2.2.2.then_suffix (finishElement_next hfinish).2
    | opened hread _ _ => exact (readElement_ok hread).2.2.2.2

/-- With fuel for the text that is left, the loop returns a spec exactly when a run ends with it. -/
theorem parseLoop_ok_iff {fuel : Nat} : ∀ {S : ParseState} {o : ObjSpec}, S.str.length < fuel →
    (parseLoop R fuel S = .ok o ↔ Leads R S (.done o.binSpecs o.nBinSpecs)) := by
  induction fuel with
  | zero => intro S o h; omega
  | succ fuel ih =>
    intro S o hlen
    cases hstep : parseStep R S with
    | next S' =>
      have hlt := (parseStep_advances hstep).length_lt
      simp only [parseLoop, hstep]
      rw [ih (by omega)]
      constructor
      · exact Leads.more hstep
      · exact fun h => h.next hstep
    | done specs n =>
      simp only [parseLoop, hstep, Except.ok.injEq]
      constructor
      · rintro rfl
        exact .last hstep
      · intro h
        rcases h.done_cases with hd | ⟨S', hn, -⟩
        · obtain ⟨rfl, rfl⟩ : specs = o.binSpecs ∧ n = o.nBinSpecs := by simpa using hstep.symm.trans hd
          rfl
        · simp [hstep] at hn
    | error e =>
      simp only [parseLoop, hstep, reduceCtorEq, false_iff]
      exact fun h => h.ne_error e hstep
    | fault =>
      simp only [parseLoop, hstep, reduceCtorEq, false_iff]
      exact fun h => h.ne_fault hstep

/-- The parser accepts exactly the texts of which a list of trees can be read up to the end, with a total length that fits, and
builds these trees. -/
theorem objSpecParse_ok_iff {s : Text} {o : ObjSpec} :
    objSpecParse R s = .ok o ↔
      ∃ ts s', ReadsElems '\x00' ts s s' ∧ total ts < 2 ^ 32 ∧ o = ⟨ts.map build, total ts⟩ := by
  rw [objSpecParse, parseLoop_ok_iff (by simp [beginState])]
  have hroot : ∀ ts s', peek s' = '\x00' →
      parseStep R ⟨.list ((⟨none, false, [], 0⟩ : ListConsumer).extend ts), [], s'⟩ = .done (ts.map build) (total ts) := by
    intro ts s' h
    rw [parseStep_close (by exact h)]
    simp [closeCollection, ListConsumer.extend]
  constructor
  · intro h
    obtain ⟨ts, s', hts, htot, -, hgo⟩ := readsElems_of_accepts (reads_of_accepts s.length) le_rfl
      (c := ⟨none, false, [], 0⟩) (s := s) le_rfl (by simp) h
    simp only [Nat.zero_add] at htot
    refine ⟨ts, s', hts, htot, ?_⟩
    have hdone := hroot ts s' hts.peek_end
    rcases hgo.done_cases with hd | ⟨S', hn, -⟩
    · obtain ⟨h1, h2⟩ : ts.map build = o.binSpecs ∧ total ts = o.nBinSpecs := by simpa using hdone.symm.trans hd
      rw [h1, h2]
    · exact absurd (hdone.symm.trans hn) (by simp)
  · rintro ⟨ts, s', hts, htot, rfl⟩
    have hrun := leads_elems (R := R) (fun t _ => leads_of_reads t) ⟨none, false, [], 0⟩ [] hts (by simpa using htot)
    rw [hroot ts s' hts.peek_end] at hrun
    exact hrun

end AerospikeBenchmark
