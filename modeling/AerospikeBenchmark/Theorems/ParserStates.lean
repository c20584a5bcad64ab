import AerospikeBenchmark.Lemmas.Checked
import AerospikeBenchmark.Lemmas.ParseStates

/-!
# The parser on any string

On every string the loop of `_parse_bin_types` ends, with all consumer states closed or with an error. Every iteration moves forward
in the text, reads nothing beyond the NUL and finds a state in which none of the unreachable branches is taken.
-/

namespace AerospikeBenchmark

open CText

variable {R : AsRandom}

/-! ## Iterations -/

/-- From `S`, after `n` iterations that each go on, the loop is at `S'`. -/
inductive Iterates (R : AsRandom) (S : ParseState) : Nat → ParseState → Prop where
  | start : Iterates R S 0 S
  | step {n : Nat} {T T' : ParseState} : Iterates R S n T → parseStep R T = .next T' → Iterates R S (n + 1) T'

theorem Iterates.head {S T U : ParseState} {n : Nat} (hstep : parseStep R S = .next T) (h : Iterates R T n U) :
    Iterates R S (n + 1) U := by
  induction h with
  | start => exact .step .start hstep
  | step _ hlast ih => exact .step ih hlast

/-- Every iteration takes at least one character. -/
theorem Iterates.length_le {S T : ParseState} {n : Nat} (h : Iterates R S n T) : n + T.str.length ≤ S.str.length := by
  induction h with
  | start => omega
  | step _ hstep ih =>
    have hlt := (parseStep_advances hstep).length_lt
    omega

theorem Iterates.suffix {S T : ParseState} {n : Nat} (h : Iterates R S n T) : T.str <:+ S.str := by
  induction h with
  | start => exact List.suffix_rfl
  | step _ hstep ih => exact (parseStep_advances hstep).suffix.trans ih

/-- The parser is in one of its states all the way. -/
theorem Iterates.inState {S T : ParseState} {n : Nat} (h : Iterates R S n T) (hS : InState S) : InState T := by
  induction h with
  | start => exact hS
  | step _ hstep ih =>
    rcases parseStep_cases (R := R) ih with hset | ⟨-, -, specs, k, hdone⟩
    · rw [hstep] at hset
      exact hset
    · cases hstep.symm.trans hdone

/-! ## The stack -/

/-- What an iteration that goes on does to the stack of consumer states: a bin type is stored in the collection on top, or a
collection is opened, or the one on top is closed at its delimiter and stored in the one around it. -/
inductive StackMove (S S' : ParseState) : Prop where
  | stored : peek S.str ≠ S.top.delimiter → S'.parents = S.parents → S'.top.delimiter = S.top.delimiter → StackMove S S'
  | opened {n : Nat} : peek S.str ≠ S.top.delimiter → S'.parents = S.top :: S.parents → S'.top = newList n ∨ S'.top = newMap n →
      StackMove S S'
  | closed {p : Consumer} : peek S.str = S.top.delimiter → S.parents = p :: S'.parents → S'.top.delimiter = p.delimiter →
      StackMove S S'

theorem ElementStored.stack {c : Consumer} {ps : List Consumer} {spec : BinSpec} {S' : ParseState} (h : ElementStored ps spec c S') :
    S'.parents = ps ∧ S'.top.delimiter = c.delimiter := by
  cases h with
  | list c r => exact ⟨rfl, delimiter_list_eq rfl⟩
  | key | value => exact ⟨rfl, rfl⟩

theorem delimiter_andConst (b : Bool) (c : Consumer) : (c.andConst b).delimiter = c.delimiter := by
  cases c with
  | list c => exact delimiter_list_eq rfl
  | map c => rfl

theorem popState_next {b : Bool} {spec : BinSpec} {ps : List Consumer} {s : Text} {S' : ParseState}
    (h : popState R b spec ps s = .next S') :
    ∃ p spec, ps = p :: S'.parents ∧ finishElement (p.andConst b) S'.parents spec s = .next S' := by
  unfold popState at h
  split at h
  · next spec p ps _ =>
    obtain ⟨rfl, -⟩ := (finishElement_next h).1.stack
    exact ⟨p, spec, rfl, h⟩
  · cases h

/-- A collection that is closed is stored in the one around it. -/
theorem closeCollection_next {S S' : ParseState} (h : closeCollection R S = .next S') :
    ∃ p b spec, S.parents = p :: S'.parents ∧ finishElement (p.andConst b) S'.parents spec S.str.tail = .next S' := by
  unfold closeCollection at h
  split at h
  · split at h
    · cases h
    · exact (popState_next h).imp fun p hp => ⟨_, hp⟩
  · split at h
    · split at h
      · exact (popState_next h).imp fun p hp => ⟨_, hp⟩
      · cases h
    · cases h
    · exact (popState_next h).imp fun p hp => ⟨_, hp⟩

theorem stackMove_of_next {S S' : ParseState} (h : parseStep R S = .next S') : StackMove S S' := by
  by_cases hend : peek S.str = S.top.delimiter
  · rw [parseStep_close hend] at h
    obtain ⟨p, b, spec, hparents, hfinish⟩ := closeCollection_next h
    exact .closed hend hparents ((finishElement_next hfinish).1.stack.2.trans (delimiter_andConst b p))
  · rw [parseStep_consume hend] at h
    cases consumeBinType_next h with
    | stored _ hfinish =>
      obtain ⟨hparents, hdelim⟩ := (finishElement_next hfinish).1.stack
      exact .stored hend hparents (hdelim.trans (delimiter_andConst _ _))
    | opened _ hparents htop => exact .opened hend hparents htop

/-! ## The whole run -/

/-- What holds whenever an iteration begins. -/
structure IterationSafe (R : AsRandom) (S : ParseState) : Prop where
  /-- No read is beyond the NUL. -/
  inside : Checked.parseStep R S = some (parseStep R S)
  /-- No unreachable branch is taken. -/
  reachable : parseStep R S ≠ .fault
  /-- A map in `MAP_DONE` is about to be closed. -/
  mapDone : S.top.role = none → peek S.str = S.top.delimiter
  move : ∀ S', parseStep R S = .next S' → StackMove S S'

/-- The last iteration: only the top level is open and is closed by the NUL, or an error is reported. -/
inductive LastIteration (R : AsRandom) (S : ParseState) : Except ParseFailure ObjSpec → Prop where
  | closed (o : ObjSpec) : S.parents = [] → S.str = [] → parseStep R S = .done o.binSpecs o.nBinSpecs → LastIteration R S (.ok o)
  | reported (e : ParseError) : parseStep R S = .error e → LastIteration R S (.error (.error e))

theorem iterationSafe_of_inState {S : ParseState} (hS : InState S) (hnul : '\x00' ∉ S.str) : IterationSafe R S := by
  refine ⟨checked_parseStep R hnul, ?_, hS.atEnd, fun S' => stackMove_of_next⟩
  rcases parseStep_cases (R := R) hS with hset | ⟨-, -, specs, n, hdone⟩
  · intro hfault
    rw [hfault] at hset
    exact hset
  · simp [hdone]

/-- With fuel for the text that is left the loop returns, from the last of some iterations. -/
theorem parseLoop_ends {fuel : Nat} : ∀ {S : ParseState}, InState S → '\x00' ∉ S.str → S.str.length < fuel →
    ∃ n T, Iterates R S n T ∧ LastIteration R T (parseLoop R fuel S) := by
  induction fuel with
  | zero => intro S _ _ h; omega
  | succ fuel ih =>
    intro S hS hnul hfuel
    have hcases := parseStep_cases (R := R) hS
    cases hstep : parseStep R S with
    | next T =>
      rw [hstep] at hcases
      have hT : InState T := by simpa [Settled] using hcases
      have hadv := parseStep_advances hstep
      have hlt := hadv.length_lt
      obtain ⟨n, U, hrun, hlast⟩ := ih hT (fun h => hnul (hadv.suffix.subset h)) (by omega)
      refine ⟨n + 1, U, hrun.head hstep, ?_⟩
      simpa only [parseLoop, hstep] using hlast
    | done specs k =>
      rw [hstep] at hcases
      obtain ⟨hparents, hnil, -⟩ := hcases.resolve_left (by simp [Settled])
      refine ⟨0, S, .start, ?_⟩
      simp only [parseLoop, hstep]
      exact .closed ⟨specs, k⟩ hparents (eq_nil_of_peek hnul hnil) hstep
    | error e =>
      refine ⟨0, S, .start, ?_⟩
      simp only [parseLoop, hstep]
      exact .reported e hstep
    | fault =>
      rw [hstep] at hcases
      simp [Settled] at hcases

/-- On every string the loop makes at most as many iterations that go on as there are characters, each of them safe, and then one that
ends with every consumer state closed by its delimiter or with an error; and nothing beyond the NUL is read. -/
theorem parser_stays_in_states (R : AsRandom) (str : Text) (hnul : '\x00' ∉ str) :
    (∀ n S, Iterates R (beginState str) n S → n ≤ str.length ∧ IterationSafe R S) ∧
    (∃ n S, Iterates R (beginState str) n S ∧ LastIteration R S (objSpecParse R str)) ∧
    Checked.objSpecParse R str = some (objSpecParse R str) := by
  refine ⟨fun n S hrun => ⟨?_, ?_⟩, ?_, checked_objSpecParse R hnul⟩
  · have hlen : n + S.str.length ≤ str.length := hrun.length_le
    omega
  · exact iterationSafe_of_inState (hrun.inState (inState_begin str)) fun h => hnul (hrun.suffix.subset h)
  · exact parseLoop_ends (inState_begin str) hnul (Nat.lt_succ_self str.length)

/-- A map that is never closed. -/
theorem parser_stays_in_states_open_map :
    '\x00' ∉ "[I,\x7bS1:T, ".toList ∧
    (∀ n S, Iterates .littleEndian (beginState "[I,\x7bS1:T, ".toList) n S →
      n ≤ "[I,\x7bS1:T, ".toList.length ∧ IterationSafe .littleEndian S) ∧
    (∃ n S, Iterates .littleEndian (beginState "[I,\x7bS1:T, ".toList) n S ∧
      LastIteration .littleEndian S (objSpecParse .littleEndian "[I,\x7bS1:T, ".toList)) ∧
    Checked.objSpecParse .littleEndian "[I,\x7bS1:T, ".toList = some (objSpecParse .littleEndian "[I,\x7bS1:T, ".toList) :=
  ⟨by decide, parser_stays_in_states .littleEndian _ (by decide)⟩

end AerospikeBenchmark
