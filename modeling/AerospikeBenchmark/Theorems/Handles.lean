import AerospikeBenchmark.Lib.Owners
import AerospikeBenchmark.Lib.Runs
import AerospikeBenchmark.Lemmas.Accepted
import AerospikeBenchmark.Lemmas.Free
import AerospikeBenchmark.ObjectSpec.Handles

/-!
# A parsed spec has one owner

What a handle owns are the fields it holds while its flag is true. Each operation drops, takes or hands over, so that owners stay
exclusive (`Lib.Owners`), and `obj_spec_free` releases the blocks of a spec that has no owner afterwards.
-/

namespace AerospikeBenchmark

open CText Owners Runs

variable {η : Type}

/-- What a handle owns: its fields if its flag is true. -/
def owned (h : Option Handle) : Option (Option SpecFields) := h.bind fun h => if h.valid then some h.fields else none

/-- What the handles own. -/
def HandleState.own (s : HandleState η) : η → Option (Option SpecFields) := owned ∘ s.handles

theorem own_eq_some {s : HandleState η} {x : η} {h : Handle} (hhandle : s.handles x = some h) (hvalid : h.valid = true) :
    s.own x = some h.fields := by
  simp [HandleState.own, owned, hhandle, hvalid]

/-- A handle whose flag is true refers to an array. -/
def HandleState.Refers (s : HandleState η) (x : η) (array : Nat) : Prop :=
  ∃ h fields, s.handles x = some h ∧ h.valid = true ∧ h.fields = some fields ∧ fields.binSpecs = array

/-! ## What the operations do to the owners -/

section

variable [DecidableEq η]

theorem own_write (s : HandleState η) (x : η) (h : Handle) : (s.write x h).own = Function.update s.own x (owned (some h)) :=
  Function.comp_update owned s.handles x _

theorem own_invalidate (s : HandleState η) (x : η) : (s.invalidate x).own = Function.update s.own x none := by
  have hnone : owned ((s.handles x).map ({ · with valid := false })) = none := by
    cases s.handles x <;> rfl
  rw [← hnone]
  exact Function.comp_update owned s.handles x _

/-- What an operation can do: nothing to the owners, or one of the moves of `Lib.Owners`. -/
inductive HandleMove (R : AsRandom) (s s' : HandleState η) : Prop where
  | drop (x : η) (hown : s'.own = Function.update s.own x none) (harrays : s'.arrays = s.arrays) (hreleased : s'.released = s.released)
  | take (x : η) (str : Text) (o : ObjSpec) (hparse : objSpecParse R str = .ok o)
      (hown : s'.own = Function.update s.own x (some (some ⟨s.arrays.length, o.nBinSpecs⟩))) (harrays : s'.arrays = s.arrays ++ [o.binSpecs])
      (hreleased : s'.released = s.released)
  | handOver (x y : η) (i : Option SpecFields) (howned : s.own x = some i)
      (hown : s'.own = Function.update (Function.update s.own y (some i)) x none) (harrays : s'.arrays = s.arrays)
      (hreleased : s'.released = s.released)
  | release (x : η) (fields : SpecFields) (binSpecs : List BinSpec) (blocks : List BlockPath) (howned : s.own x = some (some fields))
      (harray : s.arrays[fields.binSpecs]? = some binSpecs) (hblocks : objSpecFree binSpecs fields.nBinSpecs = some blocks)
      (hown : s'.own = Function.update s.own x none) (harrays : s'.arrays = s.arrays)
      (hreleased : s'.released = s.released ++ blocks.map (fields.binSpecs, ·))
  | stay (heq : s' = s)

theorem handleMove_of_parse (R : AsRandom) (s : HandleState η) (x : η) (str : Text) : HandleMove R s (handleParse R s x str) := by
  unfold handleParse
  cases hparse : objSpecParse R str with
  | ok o => exact .take x str o hparse (own_write _ _ _) rfl rfl
  | error e => exact .drop x (own_write _ _ _) rfl rfl

theorem handleMove_of_step {R : AsRandom} {s s' : HandleState η} {op : HandleOp η} (h : handleStep R s op = some s') :
    HandleMove R s s' := by
  cases op with
  | parse x str =>
    rw [← Option.some.inj h]
    exact handleMove_of_parse R s x str
  | move dst src =>
    obtain ⟨source, hsource, h⟩ := Option.bind_eq_some_iff.mp h
    split at h
    · next hvalid =>
      rw [← Option.some.inj h]
      refine .handOver src dst source.fields (own_eq_some hsource hvalid) ?_ rfl rfl
      rw [own_invalidate, own_write]
      rfl
    · cases h
  | shallowCopy dst src =>
    obtain ⟨source, hsource, h⟩ := Option.bind_eq_some_iff.mp h
    rw [← Option.some.inj h]
    exact .drop dst (own_write _ _ _) rfl rfl
  | free x =>
    obtain ⟨hd, hhandle, h⟩ := Option.bind_eq_some_iff.mp h
    split at h
    · next hvalid =>
      obtain ⟨fields, hfields, h⟩ := Option.bind_eq_some_iff.mp h
      obtain ⟨binSpecs, harray, h⟩ := Option.bind_eq_some_iff.mp h
      obtain ⟨blocks, hblocks, h⟩ := Option.bind_eq_some_iff.mp h
      rw [← Option.some.inj h]
      exact .release x fields binSpecs blocks (hfields ▸ own_eq_some hhandle hvalid) harray hblocks (own_invalidate _ _) rfl rfl
    · exact .stay (Option.some.inj h).symm

end

/-! ## The invariant -/

/-- The fields of a spec that was accepted and of which nothing has been released. -/
structure Live (R : AsRandom) (s : HandleState η) (fields : SpecFields) : Prop where
  accepted : ∃ str o, objSpecParse R str = .ok o ∧ s.arrays[fields.binSpecs]? = some o.binSpecs ∧ fields.nBinSpecs = o.nBinSpecs
  kept : ∀ path, (fields.binSpecs, path) ∉ s.released

/-- The invariant: owners are exclusive and own live specs, and no block has been released twice. -/
structure HandleInv (R : AsRandom) (s : HandleState η) : Prop where
  exclusive : Exclusive s.own
  live : ∀ x i, s.own x = some i → ∃ fields, i = some fields ∧ Live R s fields
  bounded : ∀ b ∈ s.released, b.1 < s.arrays.length
  nodup : s.released.Nodup

variable {R : AsRandom} {s s' : HandleState η}

theorem Live.lt_length {fields : SpecFields} (h : Live R s fields) : fields.binSpecs < s.arrays.length := by
  obtain ⟨str, o, -, harray, -⟩ := h.accepted
  exact (List.getElem?_eq_some_iff.mp harray).1

/-- An array has one number of bins. -/
theorem Live.eq_of_array {fields fields' : SpecFields} (h : Live R s fields) (h' : Live R s fields')
    (heq : fields.binSpecs = fields'.binSpecs) : fields = fields' := by
  obtain ⟨str, o, hparse, harray, hn⟩ := h.accepted
  obtain ⟨str', o', hparse', harray', hn'⟩ := h'.accepted
  rw [heq, harray', Option.some.injEq] at harray
  have htotal : o.nBinSpecs = totalRepeats o.binSpecs := (valid_of_accepted hparse).1.1
  have htotal' : o'.nBinSpecs = totalRepeats o'.binSpecs := (valid_of_accepted hparse').1.1
  cases fields
  cases fields'
  simp_all

/-- Live specs stay so when arrays are added and nothing is released. -/
theorem Live.mono {fields : SpecFields} (h : Live R s fields) {more : List (List BinSpec)} (harrays : s'.arrays = s.arrays ++ more)
    (hreleased : s'.released = s.released) : Live R s' fields := by
  obtain ⟨str, o, hparse, harray, hn⟩ := h.accepted
  refine ⟨⟨str, o, hparse, ?_, hn⟩, hreleased ▸ h.kept⟩
  rw [harrays, List.getElem?_append_left h.lt_length, harray]

/-- Releasing a spec leaves the others alive. -/
theorem Live.of_release {fields fields' : SpecFields} (h : Live R s fields') (hne : fields'.binSpecs ≠ fields.binSpecs)
    {blocks : List BlockPath} (harrays : s'.arrays = s.arrays)
    (hreleased : s'.released = s.released ++ blocks.map (fields.binSpecs, ·)) : Live R s' fields' := by
  refine ⟨harrays ▸ h.accepted, fun path hpath => ?_⟩
  rw [hreleased] at hpath
  rcases List.mem_append.mp hpath with hold | hnew
  · exact h.kept path hold
  · obtain ⟨q, -, heq⟩ := List.mem_map.mp hnew
    exact hne (congrArg Prod.fst heq).symm

/-- A spec that is alive can be released once. -/
theorem nodup_release {fields : SpecFields} (h : Live R s fields) (hnodup : s.released.Nodup) {specs : List BinSpec}
    {blocks : List BlockPath} (hblocks : objSpecFree specs fields.nBinSpecs = some blocks) :
    (s.released ++ blocks.map (fields.binSpecs, ·)).Nodup := by
  refine List.nodup_append.mpr ⟨hnodup, (nodup_of_objSpecFree hblocks).map fun p q heq => congrArg Prod.snd heq, ?_⟩
  rintro b hb _ hb' rfl
  obtain ⟨path, -, rfl⟩ := List.mem_map.mp hb'
  exact h.kept path hb

theorem HandleInv.initial : HandleInv R (HandleState.initial : HandleState η) where
  exclusive := by simp [Exclusive, HandleState.own, HandleState.initial, owned]
  live := by simp [HandleState.own, HandleState.initial, owned]
  bounded := by simp [HandleState.initial]
  nodup := List.nodup_nil

variable [DecidableEq η]

theorem handleInv_step (hinv : HandleInv R s) (h : HandleMove R s s') : HandleInv R s' := by
  obtain ⟨hexclusive, hlive, hbounded, hnodup⟩ := hinv
  cases h with
  | drop x hown harrays hreleased =>
    refine ⟨hown ▸ hexclusive.drop x, ?_, harrays ▸ hreleased ▸ hbounded, hreleased ▸ hnodup⟩
    intro y i hy
    rw [hown] at hy
    obtain ⟨fields, rfl, hfields⟩ := hlive y i (eq_some_of_drop hy).2
    exact ⟨fields, rfl, hfields.mono (by rw [harrays, List.append_nil]) hreleased⟩
  | take x str o hparse hown harrays hreleased =>
    have hfresh : ∀ y, s.own y ≠ some (some ⟨s.arrays.length, o.nBinSpecs⟩) := by
      intro y hy
      obtain ⟨fields, heq, hfields⟩ := hlive y _ hy
      cases heq
      exact absurd hfields.lt_length (Nat.lt_irrefl _)
    refine ⟨hown ▸ hexclusive.take hfresh x, ?_, ?_, hreleased ▸ hnodup⟩
    · intro y i hy
      rw [hown] at hy
      rcases eq_some_of_take hy with ⟨-, rfl⟩ | hy
      · refine ⟨_, rfl, ⟨str, o, hparse, ?_, rfl⟩, fun path hpath => ?_⟩
        · rw [harrays, List.getElem?_append_right le_rfl, Nat.sub_self]
          rfl
        · exact absurd (hbounded _ (hreleased ▸ hpath)) (Nat.lt_irrefl _)
      · obtain ⟨fields, rfl, hfields⟩ := hlive y i hy
        exact ⟨fields, rfl, hfields.mono harrays hreleased⟩
    · intro b hb
      have := hbounded b (hreleased ▸ hb)
      rw [harrays, List.length_append]
      omega
  | handOver x y i howned hown harrays hreleased =>
    refine ⟨hown ▸ hexclusive.handOver howned y, ?_, harrays ▸ hreleased ▸ hbounded, hreleased ▸ hnodup⟩
    intro z j hz
    rw [hown] at hz
    obtain ⟨w, hw⟩ : ∃ w, s.own w = some j := by
      rcases eq_some_of_take (eq_some_of_drop hz).2 with ⟨-, rfl⟩ | hz
      · exact ⟨x, howned⟩
      · exact ⟨z, hz⟩
    obtain ⟨fields, rfl, hfields⟩ := hlive w j hw
    exact ⟨fields, rfl, hfields.mono (by rw [harrays, List.append_nil]) hreleased⟩
  | release x fields specs blocks howned harray hblocks hown harrays hreleased =>
    obtain ⟨_, heq, hfields⟩ := hlive x _ howned
    cases heq
    refine ⟨hown ▸ hexclusive.drop x, ?_, ?_, hreleased ▸ nodup_release hfields hnodup hblocks⟩
    · intro y i hy
      rw [hown] at hy
      obtain ⟨fields', rfl, hfields'⟩ := hlive y i (eq_some_of_drop hy).2
      refine ⟨fields', rfl, hfields'.of_release (fun heq => ?_) harrays hreleased⟩
      -- the same array would have a second owner
      obtain rfl := hfields'.eq_of_array hfields heq
      exact hexclusive.dropped howned y hy
    · intro b hb
      rw [harrays]
      rcases List.mem_append.mp (hreleased ▸ hb) with hold | hnew
      · exact hbounded b hold
      · obtain ⟨path, -, rfl⟩ := List.mem_map.mp hnew
        exact hfields.lt_length
  | stay heq =>
    rw [heq]
    exact ⟨hexclusive, hlive, hbounded, hnodup⟩

/-! ## Single ownership -/

/-- `obj_spec_free` returns on every handle that has been written. -/
theorem HandleInv.free_returns (h : HandleInv R s) {x : η} (hx : (s.handles x).isSome) : (handleFree s x).isSome := by
  obtain ⟨hd, hhandle⟩ := Option.isSome_iff_exists.mp hx
  cases hvalid : hd.valid with
  | false => simp [handleFree, hhandle, hvalid]
  | true =>
    obtain ⟨fields, hfields, hlive⟩ := h.live x _ (own_eq_some hhandle hvalid)
    obtain ⟨str, o, hparse, harray, hn⟩ := hlive.accepted
    obtain ⟨ps, hps⟩ := objSpecFree_of_accepted hparse
    simp [handleFree, hhandle, hvalid, hfields, harray, hn, hps]

/-- No spec has two handles whose flag is true, no block of a spec has been released twice, and every handle that has been written can
be freed: the loops of `obj_spec_free` stay inside the arrays. -/
structure SingleOwner (s : HandleState η) : Prop where
  owner : ∀ array x y, s.Refers x array → s.Refers y array → x = y
  releasedOnce : s.released.Nodup
  freeReturns : ∀ x, (s.handles x).isSome → (handleFree s x).isSome

theorem HandleInv.singleOwner (h : HandleInv R s) : SingleOwner s where
  owner := by
    rintro array x y ⟨hd, fields, hhandle, hvalid, hfields, harray⟩ ⟨hd', fields', hhandle', hvalid', hfields', harray'⟩
    have hx : s.own x = some (some fields) := hfields ▸ own_eq_some hhandle hvalid
    have hy : s.own y = some (some fields') := hfields' ▸ own_eq_some hhandle' hvalid'
    obtain ⟨_, heq, hlive⟩ := h.live x _ hx
    cases heq
    obtain ⟨_, heq, hlive'⟩ := h.live y _ hy
    cases heq
    obtain rfl := hlive.eq_of_array hlive' (harray.trans harray'.symm)
    exact h.exclusive x y _ hx hy
  releasedOnce := h.nodup
  freeReturns _ hx := h.free_returns hx

/-- Whatever operations are applied to whatever handles, in every state they lead through a spec has at most one valid handle and
nothing has been released twice. -/
theorem specs_have_one_owner (R : AsRandom) (ops : List (HandleOp η)) :
    Throughout (handleStep R) SingleOwner (HandleState.initial : HandleState η) ops := by
  have hinv : Throughout (handleStep R) (HandleInv R) (HandleState.initial : HandleState η) ops :=
    throughout_of_step (fun s op s' hs hstep => handleInv_step hs (handleMove_of_step hstep)) .initial
  exact hinv.imp fun s hs => hs.singleOwner

example : (run (handleStep .littleEndian) (HandleState.initial : HandleState Nat)
    [.parse 0 "I,\"a\"".toList, .shallowCopy 2 0, .move 1 0, .free 0, .free 2, .free 1, .free 1]).map HandleState.released =
      some [(0, [.elem 1]), (0, [])] := by
  decide +kernel

end AerospikeBenchmark
