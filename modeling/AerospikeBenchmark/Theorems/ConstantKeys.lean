import AerospikeBenchmark.Lemmas.Generate
import AerospikeBenchmark.Lemmas.ParseRun

/-!
# Constant map keys

A constant key is in every map that is generated. Its value is the one generated for its own pair unless a pair before it has drawn
the same key: then all the retries find the key in the map, and the value of the earlier pair stays.
-/

namespace AerospikeBenchmark

open CText Words SpecTree

variable {R : AsRandom} {cLen : Nat → Nat}

/-! ## The pairs before and after a key -/

theorem genRandomMap_append (ps qs : List (BinSpec × BinSpec)) (m : AsMap) :
    genRandomMap R cLen (ps ++ qs) (ps ++ qs).length m = genRandomMap R cLen ps ps.length m >>= genRandomMap R cLen qs qs.length := by
  induction ps generalizing m with
  | nil =>
    rw [List.nil_append, List.length_nil, genRandomMap, pure_bind]
  | cons p ps ih =>
    obtain ⟨k, v⟩ := p
    rw [List.cons_append, List.length_cons, List.length_cons, genRandomMap, genRandomMap, bind_assoc]
    congr 1
    funext m'
    exact ih m'

/-- Every entry of a map conforms to one of its pairs. -/
theorem exists_pair_of_conforms {kvs : List (BinSpec × BinSpec)} {m : AsMap} (h : ConformsPairs kvs m) :
    ∀ e ∈ m, ∃ p ∈ kvs, p.1.Conforms e.1 ∧ p.2.Conforms e.2 := by
  induction kvs generalizing m with
  | nil =>
    obtain rfl : m = [] := h
    exact nofun
  | cons p kvs ih =>
    obtain ⟨k, v⟩ := p
    obtain ⟨m₁, m₂, hperm, -, hm₁, hm₂⟩ := h
    intro e he
    rcases List.mem_append.mp (hperm.mem_iff.mp he) with he | he
    · exact ⟨(k, v), List.mem_cons_self, hm₁ e he⟩
    · obtain ⟨p, hp, hconf⟩ := ih hm₂ e he
      exact ⟨p, List.mem_cons_of_mem _ hp, hconf⟩

theorem AsMap.get_append (m d : AsMap) (k : AsVal) : AsMap.get (m ++ d) k = (m.get k).or (d.get k) := List.lookup_append

/-! ## The entry of a constant key -/

section

variable {genKey genVal : Gen AsVal} {key : AsVal} (hk : ∀ s, genKey s = .ok (key, s))
include hk

/-- A constant key that is in the map is never a new one. -/
theorem freshKey_of_present {m : AsMap} {w : AsVal} (hm : m.get key = some w) (left : Nat) (s : Source) :
    freshKey genKey m left s = .ok ((none, 0), s) := by
  induction left with
  | zero => rfl
  | succ left ih =>
    rw [freshKey, bind_eq_of_ok (hk s), hm]
    exact ih

/-- A constant key that is not in the map is found at once. -/
theorem freshKey_of_absent {m : AsMap} (hm : m.get key = none) (left : Nat) (s : Source) :
    freshKey genKey m (left + 1) s = .ok ((some key, left + 1), s) := by
  rw [freshKey, bind_eq_of_ok (hk s), hm]
  rfl

/-- The one entry of a constant key: what was in the map stays, and otherwise a value is generated. -/
theorem get_of_pairEntries {m m' : AsMap} {left : Nat} {s s' : Source}
    (h : pairEntries genKey genVal 1 (left + 1) m s = .ok (m', s')) :
    (∃ w, m.get key = some w ∧ m'.get key = some w) ∨ (m.get key = none ∧ ∃ val t, genVal s = .ok (val, t) ∧ m'.get key = some val) := by
  rw [pairEntries] at h
  cases hm : m.get key with
  | some w =>
    rw [bind_eq_of_ok (freshKey_of_present hk hm _ s)] at h
    obtain ⟨rfl, -⟩ := pure_ok.mp h
    exact .inl ⟨w, rfl, hm⟩
  | none =>
    rw [bind_eq_of_ok (freshKey_of_absent hk hm _ s)] at h
    obtain ⟨val, t, hval, h⟩ := bind_ok.mp h
    obtain ⟨rfl, -⟩ := pure_ok.mp h
    refine .inr ⟨rfl, val, t, hval, ?_⟩
    rw [AsMap.set_of_get_none hm, AsMap.get_append, hm]
    simp [AsMap.get]

end

/-! ## Every map of an accepted text -/

theorem validPairs_append {ps qs : List (BinSpec × BinSpec)} (h : ValidPairs (ps ++ qs)) : ValidPairs ps ∧ ValidPairs qs := by
  induction ps with
  | nil => exact ⟨trivial, h⟩
  | cons p ps ih =>
    obtain ⟨hk, hv, h⟩ := h
    exact ⟨⟨hk, hv, (ih h).1⟩, (ih h).2⟩

/-- What a generated map holds under a constant key `k` with the value spec `v`, declared after the pairs `before`: a value, and one
that conforms exactly if what the earlier pairs have stored there, if anything, does. The earlier pairs store nothing there if none of
their keys can be `k`. -/
structure HoldsConstKey (R : AsRandom) (cLen : Nat → Nat) (before : List (Leaf × SpecTree)) (k : Leaf) (v : SpecTree) (src : Source)
    (m : AsMap) : Prop where
  present : ∃ val, m.get (leafVal k) = some val
  conforms : ∃ earlier src', genRandomMap R cLen (buildPairs before) before.length [] src = .ok (earlier, src') ∧
    ((∀ val, m.get (leafVal k) = some val → v.build.Conforms val) ↔ ∀ w, earlier.get (leafVal k) = some w → v.build.Conforms w) ∧
    ((∀ p ∈ before, ¬ p.1.build.Conforms (leafVal k)) → earlier.get (leafVal k) = none)

theorem holdsConstKey_of_wf {n : Nat} {before after : List (Leaf × SpecTree)} {k : Leaf} {v : SpecTree}
    (hwf : (SpecTree.map n (before ++ (k, v) :: after)).WF) (hconst : k.type.isConst = true) {src src' : Source} {m : AsMap}
    (h : genRandomMap R cLen (buildPairs (before ++ (k, v) :: after)) (before ++ (k, v) :: after).length [] src = .ok (m, src')) :
    HoldsConstKey R cLen before k v src m := by
  obtain ⟨-, -, -, hkeys, hpairs⟩ := hwf
  have hone : k.build.nRepeats = 1 := hkeys.constMult k (by simp) hconst
  have hvalid := hpairs.valid
  rw [buildPairs_eq_map, List.map_append, List.map_cons] at hvalid h
  obtain ⟨hbefore, -, hv, hafter⟩ := validPairs_append hvalid
  -- the map before the key, with it, and at the end
  have hlen : (before ++ (k, v) :: after).length = (before.map (fun p => (p.1.build, p.2.build)) ++
      (k.build, v.build) :: after.map fun p => (p.1.build, p.2.build)).length := by simp
  rw [hlen, genRandomMap_append] at h
  obtain ⟨earlier, src₁, hearlier, h⟩ := bind_ok.mp h
  rw [List.length_cons, genRandomMap] at h
  obtain ⟨m₁, src₂, hpair, h⟩ := bind_ok.mp h
  obtain ⟨_, rfl, hnodup, -, hconf⟩ := genMap_conforms hbefore hearlier List.nodup_nil
  rw [hone] at hpair
  obtain ⟨-, -, hnodup₁, -, -⟩ := pairEntries_spec (fun _ _ _ _ => trivial) (fun _ _ _ _ => trivial) _ hpair hnodup
  obtain ⟨d₂, rfl, -, -, -⟩ := genMap_conforms hafter h hnodup₁
  have hget {w : AsVal} (hw : m₁.get (leafVal k) = some w) : AsMap.get (m₁ ++ d₂) (leafVal k) = some w := by
    rw [AsMap.get_append, hw, Option.some_or]
  have hstatic (hno : ∀ p ∈ before, ¬ p.1.build.Conforms (leafVal k)) : earlier.get (leafVal k) = none := by
    rw [AsMap.get_eq_none_iff]
    rintro e he heq
    obtain ⟨p, hp, hpe, -⟩ := exists_pair_of_conforms hconf e he
    obtain ⟨q, hq, rfl⟩ := List.mem_map.mp hp
    exact hno q hq (heq ▸ hpe)
  have hrun : genRandomMap R cLen (buildPairs before) before.length [] src = .ok (earlier, src₁) := by
    rw [buildPairs_eq_map]
    rwa [List.length_map] at hearlier
  rcases get_of_pairEntries (gen_leaf_const R cLen hconst) hpair with ⟨w, hw, hw'⟩ | ⟨hnone, val, t, hval, hval'⟩
  · refine ⟨⟨w, hget hw'⟩, earlier, src₁, hrun, ?_, hstatic⟩
    rw [hget hw', hw]
  · refine ⟨⟨val, hget hval'⟩, earlier, src₁, hrun, ?_, hstatic⟩
    rw [hget hval', hnone]
    refine iff_of_true ?_ nofun
    rintro _ ⟨rfl⟩
    exact gen_conforms hv hval

end AerospikeBenchmark
