import AerospikeBenchmark.ObjectSpec.Tree

/-!
# The generator on constant specs

A constant spec yields its value from any source, the null source included, and leaves the source as it was. So a collection of
constants is folded into the value its own list or map spec would yield: `foldIf_list` and `foldIf_map` say that closing a
collection stores the `build` of its tree.
-/

namespace AerospikeBenchmark

open CText Words SpecTree

variable (R : AsRandom) (cLen : Nat → Nat)

theorem genScalar_const {c : Scalar} {v : AsVal} (h : c.constVal? = some v) (s : Source) :
    genScalar R cLen c s = .ok (v, s) := by
  cases c <;> simp only [Scalar.constVal?, Option.some.injEq, reduceCtorEq] at h <;> subst h <;> rfl

theorem constVal?_of_isConst {l : Leaf} (h : l.type.isConst = true) : l.type.constVal? = some (leafVal l) := by
  obtain ⟨v, hv⟩ := Option.isSome_iff_exists.mp h
  simp [leafVal, hv]

theorem gen_leaf_const {l : Leaf} (h : l.type.isConst = true) (s : Source) :
    binSpecRandomVal R cLen l.build s = .ok (leafVal l, s) := by
  simp only [Leaf.build, binSpecRandomVal]
  exact genScalar_const R cLen (constVal?_of_isConst h) s

/-- The bin spec of a constant tree yields the value of the tree and reads no word. -/
theorem gen_build_const {t : SpecTree} (h : t.isConst = true) (s : Source) :
    binSpecRandomVal R cLen t.build s = .ok (t.constVal, s) := by
  cases t with
  | leaf l => exact gen_leaf_const R cLen h s
  | list n es =>
    simp only [isConst] at h
    simp only [build, h, if_true, binSpecRandomVal, constVal]
    rfl
  | map n kvs =>
    simp only [isConst] at h
    simp only [build, h, if_true, binSpecRandomVal, constVal]
    rfl

/-! ## Lists -/

/-- One iteration of the list loop on an element that yields a fixed value. -/
theorem genRandomList_cons_const {e : BinSpec} {es : List BinSpec} {v : AsVal} {vs : List AsVal} {length cnt : Nat} {s : Source}
    (hlt : cnt < length) (he : ∀ s, binSpecRandomVal R cLen e s = .ok (v, s))
    (hes : genRandomList R cLen es length ((cnt + e.nRepeats) % 2 ^ 32) s = .ok (vs, s)) :
    genRandomList R cLen (e :: es) length cnt s = .ok (List.replicate e.nRepeats v ++ vs, s) := by
  rw [genRandomList, if_pos hlt, bind_eq_of_ok (repeatGen_const he e.nRepeats s), bind_eq_of_ok hes]
  rfl

/-- The list loop over specs that each yield the value of a constant tree. -/
theorem genRandomList_const {f : SpecTree → BinSpec} (hf : ∀ t, (f t).nRepeats = t.mult) {ts : List SpecTree} (hwf : WFList ts)
    (hgen : ∀ t ∈ ts, ∀ s, binSpecRandomVal R cLen (f t) s = .ok (t.constVal, s)) (cnt : Nat) (hlt : cnt + total ts < 2 ^ 32)
    (s : Source) : genRandomList R cLen (ts.map f) (cnt + total ts) cnt s = .ok (constVals ts, s) := by
  induction ts generalizing cnt with
  | nil => simp [genRandomList, constVals]
  | cons t ts ih =>
    obtain ⟨ht, hts⟩ := hwf
    have hpos := ht.mult_bounds.1
    simp only [total_cons] at hlt ⊢
    have hmod : (cnt + (f t).nRepeats) % 2 ^ 32 = cnt + t.mult := by
      rw [hf]
      exact Nat.mod_eq_of_lt (by omega)
    have hrest := ih hts (fun t' ht' => hgen t' (List.mem_cons_of_mem _ ht')) (cnt + t.mult) (by omega)
    rw [List.map_cons, constVals, ← hf t]
    refine genRandomList_cons_const R cLen (by omega) (hgen t List.mem_cons_self) ?_
    rw [hmod, hf, ← Nat.add_assoc]
    exact hrest

/-! ## Maps -/

/-- `as_orderedmap_set` of a key that is not there appends. -/
theorem AsMap.set_of_get_none : ∀ {m : AsMap} {k v : AsVal}, m.get k = none → m.set k v = m ++ [(k, v)]
  | [], _, _, _ => rfl
  | (k', v') :: m, k, v, h => by
    rw [AsMap.get, List.lookup_cons] at h
    split at h
    · simp at h
    · rename_i hne
      have hk : k' ≠ k := by
        rintro rfl
        simp at hne
      simp only [AsMap.set, if_neg hk, List.cons_append]
      rw [AsMap.set_of_get_none h]

theorem AsMap.get_eq_none_iff {m : AsMap} {k : AsVal} : m.get k = none ↔ ∀ p ∈ m, p.1 ≠ k := by
  induction m with
  | nil => simp [AsMap.get]
  | cons p m ih =>
    obtain ⟨k', v'⟩ := p
    simp only [AsMap.get, List.lookup_cons] at ih ⊢
    by_cases h : k = k'
    · subst h
      simp
    · have hb : (k == k') = false := by simp [h]
      simp only [hb, ih, List.mem_cons, forall_eq_or_imp]
      exact ⟨fun hm => ⟨Ne.symm h, hm⟩, fun hm => hm.2⟩

/-- Equal values of constant keys are repeated keys. -/
theorem sameConstKey_of_leafVal_eq {a b : Leaf} (ha : a.type.isConst = true) (hb : b.type.isConst = true)
    (hak : a.type.isKeyType = true) (h : leafVal a = leafVal b) : sameConstKey a.type b.type = true := by
  have h1 := constVal?_of_isConst ha
  have h2 := constVal?_of_isConst hb
  rw [h] at h1
  generalize leafVal b = v at h1 h2
  generalize a.type = x at *
  generalize b.type = y at *
  -- only two constants of one type have the same value
  cases x <;> simp only [Scalar.isKeyType, Scalar.constVal?, Option.some.injEq, reduceCtorEq, Bool.false_eq_true] at hak h1 <;>
    subst h1 <;> cases y <;> simp_all [Scalar.constVal?, sameConstKey]

/-- A pair with a constant key that is not in the map adds one entry. -/
theorem pairEntries_const {genKey genVal : Gen AsVal} {key val : AsVal} (hk : ∀ s, genKey s = .ok (key, s))
    (hv : ∀ s, genVal s = .ok (val, s)) {m : AsMap} (hm : m.get key = none) (s : Source) :
    pairEntries genKey genVal 1 maxKeyEntryRetries m s = .ok (m ++ [(key, val)], s) := by
  have hfresh : freshKey genKey m maxKeyEntryRetries s = .ok ((some key, maxKeyEntryRetries), s) := by
    have hsucc : maxKeyEntryRetries = 1023 + 1 := rfl
    rw [hsucc, freshKey, bind_eq_of_ok (hk s), hm]
    rfl
  rw [pairEntries, bind_eq_of_ok hfresh]
  simp only
  rw [bind_eq_of_ok (hv s), AsMap.set_of_get_none hm]
  rfl

/-- The map loop over pairs whose values each yield the value of a constant tree. -/
theorem genRandomMap_const {f : SpecTree → BinSpec} {kvs : List (Leaf × SpecTree)} (hk : KeysOk (kvs.map Prod.fst))
    (hc : allConstPairs kvs = true) (hgen : ∀ p ∈ kvs, ∀ s, binSpecRandomVal R cLen (f p.2) s = .ok (p.2.constVal, s))
    {m : AsMap} (hm : ∀ p ∈ kvs, m.get (leafVal p.1) = none) (s : Source) :
    genRandomMap R cLen (kvs.map fun p => (p.1.build, f p.2)) kvs.length m s = .ok (m ++ constEntries kvs, s) := by
  induction kvs generalizing m with
  | nil => simp [genRandomMap, constEntries]
  | cons p kvs ih =>
    obtain ⟨k, v⟩ := p
    simp only [allConstPairs, Bool.and_eq_true] at hc
    obtain ⟨⟨hkc, -⟩, hkvs⟩ := hc
    obtain ⟨htype, hmult, hdist⟩ := hk
    simp only [List.map_cons, List.pairwise_cons, List.mem_cons, forall_eq_or_imp] at htype hmult hdist
    have hone : k.build.nRepeats = 1 := hmult.1 hkc
    have hpair := pairEntries_const (gen_leaf_const R cLen hkc) (hgen (k, v) List.mem_cons_self)
      (hm (k, v) List.mem_cons_self) s
    simp only [List.map_cons, List.length_cons, genRandomMap]
    rw [hone, bind_eq_of_ok hpair, ih ⟨htype.2, hmult.2, hdist.2⟩ hkvs]
    · simp [constEntries]
    · exact fun p hp => hgen p (List.mem_cons_of_mem _ hp)
    · -- the key just stored differs from the constant keys still to come
      intro p hp
      have hpc : p.1.type.isConst = true := by
        clear ih hgen hm htype hmult hdist hpair
        induction kvs with
        | nil => simp at hp
        | cons q kvs ih =>
          obtain ⟨k', v'⟩ := q
          simp only [allConstPairs, Bool.and_eq_true] at hkvs
          rcases List.mem_cons.mp hp with rfl | hp
          · exact hkvs.1.1
          · exact ih hkvs.2 hp
      rw [AsMap.get_eq_none_iff]
      intro q hq
      rcases List.mem_append.mp hq with hq | hq
      · exact AsMap.get_eq_none_iff.mp (hm p (List.mem_cons_of_mem _ hp)) q hq
      · simp only [List.mem_singleton] at hq
        subst hq
        intro heq
        have hrep := sameConstKey_of_leafVal_eq hkc hpc htype.1 heq
        have hno := hdist.1 p.1 (List.mem_map_of_mem hp)
        simp [hno] at hrep

theorem constEntries_eq_map (kvs : List (Leaf × SpecTree)) : constEntries kvs = kvs.map fun p => (leafVal p.1, p.2.constVal) := by
  induction kvs with
  | nil => rfl
  | cons p kvs ih => simp [constEntries, ih]

/-- The constant keys of a map have different values. -/
theorem nodup_leafVals {ks : List Leaf} (hk : KeysOk ks) (hc : ∀ k ∈ ks, k.type.isConst = true) : (ks.map leafVal).Nodup := by
  obtain ⟨htype, -, hdist⟩ := hk
  rw [List.Nodup, List.pairwise_map]
  refine hdist.imp_of_mem ?_
  intro a b ha hb hab heq
  rw [sameConstKey_of_leafVal_eq (hc a ha) (hc b hb) (htype a ha) heq] at hab
  exact Bool.noConfusion hab

/-! ## Closing a collection -/

theorem isConst_of_allConst {ts : List SpecTree} (h : allConst ts = true) : ∀ t ∈ ts, t.isConst = true := by
  induction ts with
  | nil => simp
  | cons t ts ih =>
    simp only [allConst, Bool.and_eq_true] at h
    simp only [List.mem_cons, forall_eq_or_imp]
    exact ⟨h.1, ih h.2⟩

theorem isConst_of_allConstPairs {kvs : List (Leaf × SpecTree)} (h : allConstPairs kvs = true) :
    ∀ p ∈ kvs, p.1.type.isConst = true ∧ p.2.isConst = true := by
  induction kvs with
  | nil => simp
  | cons p kvs ih =>
    obtain ⟨k, v⟩ := p
    simp only [allConstPairs, Bool.and_eq_true] at h
    simp only [List.mem_cons, forall_eq_or_imp]
    exact ⟨h.1, ih h.2⟩

/-- Closing a list stores the `build` of its tree. -/
theorem foldIf_list {n : Nat} {ts : List SpecTree} (hwf : WFList ts) (hlt : total ts < 2 ^ 32) :
    foldIf R (allConst ts) (.list n (total ts) (ts.map build)) = some (build (.list n ts)) := by
  by_cases hc : allConst ts = true
  · have hgen := genRandomList_const R fullLength nRepeats_build hwf
      (fun t ht => gen_build_const R fullLength (isConst_of_allConst hc t ht)) 0 (by omega) none
    rw [Nat.zero_add] at hgen
    have hval : binSpecRandomVal R fullLength (.list n (total ts) (ts.map build)) none = .ok (.list (constVals ts), none) := by
      rw [binSpecRandomVal, map_eq_pure_bind, bind_eq_of_ok hgen]
      rfl
    simp [foldIf, foldConst, hval, build, hc, BinSpec.nRepeats]
  · simp [foldIf, build, hc, buildList_eq_map]

/-- Closing a map stores the `build` of its tree. -/
theorem foldIf_map {n : Nat} {kvs : List (Leaf × SpecTree)} (hk : KeysOk (kvs.map Prod.fst)) :
    foldIf R (allConstPairs kvs) (.map n kvs.length (keyTotal kvs) (kvs.map fun p => (p.1.build, p.2.build))) =
      some (build (.map n kvs)) := by
  by_cases hc : allConstPairs kvs = true
  · have hgen := genRandomMap_const R fullLength hk hc
      (fun p hp => gen_build_const R fullLength (isConst_of_allConstPairs hc p hp).2) (m := []) (by simp [AsMap.get]) none
    have hval : binSpecRandomVal R fullLength (.map n kvs.length (keyTotal kvs) (kvs.map fun p => (p.1.build, p.2.build))) none =
        .ok (.map (constEntries kvs), none) := by
      rw [binSpecRandomVal, map_eq_pure_bind, bind_eq_of_ok hgen]
      rfl
    simp [foldIf, foldConst, hval, build, hc, BinSpec.nRepeats]
  · simp [foldIf, build, hc, buildPairs_eq_map]

end AerospikeBenchmark
