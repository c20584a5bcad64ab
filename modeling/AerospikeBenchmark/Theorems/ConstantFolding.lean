import AerospikeBenchmark.Lemmas.ParseRun

/-!
# Folding constants preserves what a spec means

For every accepted text: a collection is stored as a constant exactly when no descendant of it is random, and the stored spec
yields, from every source of random words, what the unfolded tree of list and map specs yields.
-/

namespace AerospikeBenchmark

open CText Words SpecTree

namespace SpecTree

/-! ## Descendants -/

mutual

/-- The scalars of a tree, map keys included. -/
def leaves : SpecTree → List Leaf
  | .leaf l => [l]
  | .list _ es => leavesList es
  | .map _ kvs => leavesPairs kvs

/-- The scalars of some trees. -/
def leavesList : List SpecTree → List Leaf
  | [] => []
  | t :: ts => t.leaves ++ leavesList ts

/-- The scalars of some pairs. -/
def leavesPairs : List (Leaf × SpecTree) → List Leaf
  | [] => []
  | (k, v) :: kvs => k :: (v.leaves ++ leavesPairs kvs)

end

mutual

/-- A tree is constant exactly when all its scalars are. -/
theorem isConst_iff : ∀ t : SpecTree, t.isConst = true ↔ ∀ l ∈ t.leaves, l.type.isConst = true
  | .leaf l => by simp [isConst, leaves]
  | .list _ es => by simpa [isConst, leaves] using allConst_iff es
  | .map _ kvs => by simpa [isConst, leaves] using allConstPairs_iff kvs

theorem allConst_iff : ∀ ts : List SpecTree, allConst ts = true ↔ ∀ l ∈ leavesList ts, l.type.isConst = true
  | [] => by simp [allConst, leavesList]
  | t :: ts => by
    simp only [allConst, leavesList, Bool.and_eq_true, isConst_iff t, allConst_iff ts, List.mem_append]
    exact ⟨fun h l hl => hl.elim (h.1 l) (h.2 l), fun h => ⟨fun l hl => h l (Or.inl hl), fun l hl => h l (Or.inr hl)⟩⟩

theorem allConstPairs_iff : ∀ kvs : List (Leaf × SpecTree), allConstPairs kvs = true ↔ ∀ l ∈ leavesPairs kvs, l.type.isConst = true
  | [] => by simp [allConstPairs, leavesPairs]
  | (k, v) :: kvs => by
    simp only [allConstPairs, leavesPairs, Bool.and_eq_true, isConst_iff v, allConstPairs_iff kvs, List.mem_cons, List.mem_append,
      forall_eq_or_imp]
    exact ⟨fun h => ⟨h.1.1, fun l hl => hl.elim (h.1.2 l) (h.2 l)⟩,
      fun h => ⟨⟨h.1, fun l hl => h.2 l (Or.inl hl)⟩, fun l hl => h.2 l (Or.inr hl)⟩⟩

end

/-! ## The value of the unfolded spec -/

theorem nRepeats_unfolded (t : SpecTree) : t.unfolded.nRepeats = t.mult := by
  cases t <;> rfl

theorem unfoldedList_eq_map (ts : List SpecTree) : unfoldedList ts = ts.map unfolded := by
  induction ts with
  | nil => rfl
  | cons t ts ih => simp [unfoldedList, ih]

theorem unfoldedPairs_eq_map (kvs : List (Leaf × SpecTree)) :
    unfoldedPairs kvs = kvs.map fun p => (p.1.build, p.2.unfolded) := by
  induction kvs with
  | nil => rfl
  | cons p kvs ih => simp [unfoldedPairs, ih]

end SpecTree

variable (R : AsRandom) (cLen : Nat → Nat)

/-- The unfolded spec of a constant tree yields the value of the tree and reads no word. -/
theorem gen_unfolded_const (t : SpecTree) (hwf : t.WF) (h : t.isConst = true) (s : Source) :
    binSpecRandomVal R cLen t.unfolded s = .ok (t.constVal, s) := by
  induction t using SpecTree.induct generalizing s with
  | leaf l => exact gen_leaf_const R cLen h s
  | list n es ih =>
    obtain ⟨-, -, htot, hes⟩ := hwf
    have hgen := genRandomList_const R cLen nRepeats_unfolded hes
      (fun t ht => ih t ht (wf_of_mem hes t ht) (isConst_of_allConst h t ht)) 0 (by omega) s
    rw [Nat.zero_add] at hgen
    rw [unfolded, binSpecRandomVal, unfoldedList_eq_map, map_eq_pure_bind, bind_eq_of_ok hgen]
    rfl
  | map n kvs ih =>
    obtain ⟨-, -, -, hkeys, hkvs⟩ := hwf
    have hgen := genRandomMap_const R cLen hkeys h
      (fun p hp => ih p hp (wf_of_mem_pairs hkvs p hp) (isConst_of_allConstPairs h p hp).2) (m := []) (by simp [AsMap.get]) s
    rw [unfolded, binSpecRandomVal, unfoldedPairs_eq_map, map_eq_pure_bind, bind_eq_of_ok hgen]
    rfl

/-- The list loop depends on its specs only through their generators and multipliers. -/
theorem genRandomList_congr {f g : SpecTree → BinSpec} {ts : List SpecTree}
    (hgen : ∀ t ∈ ts, binSpecRandomVal R cLen (f t) = binSpecRandomVal R cLen (g t))
    (hrep : ∀ t, (f t).nRepeats = (g t).nRepeats) (length cnt : Nat) :
    genRandomList R cLen (ts.map f) length cnt = genRandomList R cLen (ts.map g) length cnt := by
  induction ts generalizing cnt with
  | nil => rfl
  | cons t ts ih =>
    have hrest := ih (fun t' h' => hgen t' (List.mem_cons_of_mem _ h'))
    simp only [List.map_cons, genRandomList, hgen t List.mem_cons_self, hrep, hrest]

/-- The map loop depends on its values only through their generators. -/
theorem genRandomMap_congr {f g : SpecTree → BinSpec} {kvs : List (Leaf × SpecTree)}
    (hgen : ∀ p ∈ kvs, binSpecRandomVal R cLen (f p.2) = binSpecRandomVal R cLen (g p.2)) (n : Nat) (m : AsMap) :
    genRandomMap R cLen (kvs.map fun p => (p.1.build, f p.2)) n m =
      genRandomMap R cLen (kvs.map fun p => (p.1.build, g p.2)) n m := by
  induction kvs generalizing n m with
  | nil => rfl
  | cons p kvs ih =>
    have hrest := ih (fun q hq => hgen q (List.mem_cons_of_mem _ hq))
    cases n with
    | zero => rfl
    | succ n => simp only [List.map_cons, genRandomMap, hgen p List.mem_cons_self, hrest]

/-- The stored spec and the unfolded spec of a tree are the same program over the random words. -/
theorem gen_build_eq_unfolded (t : SpecTree) (hwf : t.WF) :
    binSpecRandomVal R cLen t.build = binSpecRandomVal R cLen t.unfolded := by
  induction t using SpecTree.induct with
  | leaf l => rfl
  | list n es ih =>
    by_cases hc : (SpecTree.list n es).isConst = true
    · funext s
      rw [gen_build_const R cLen hc, gen_unfolded_const R cLen _ hwf hc]
    · have hbuild : (SpecTree.list n es).build = .list n (total es) (es.map build) := by
        simp only [isConst] at hc
        simp [build, hc, buildList_eq_map]
      have hes := genRandomList_congr R cLen (fun t ht => ih t ht (wf_of_mem hwf.2.2.2 t ht))
        (fun t => (nRepeats_build t).trans (nRepeats_unfolded t).symm) (total es) 0
      rw [hbuild, unfolded, unfoldedList_eq_map, binSpecRandomVal, binSpecRandomVal, hes]
  | map n kvs ih =>
    by_cases hc : (SpecTree.map n kvs).isConst = true
    · funext s
      rw [gen_build_const R cLen hc, gen_unfolded_const R cLen _ hwf hc]
    · have hbuild : (SpecTree.map n kvs).build = .map n kvs.length (keyTotal kvs) (kvs.map fun p => (p.1.build, p.2.build)) := by
        simp only [isConst] at hc
        simp [build, hc, buildPairs_eq_map]
      have hkvs := genRandomMap_congr R cLen (fun p hp => ih p hp (wf_of_mem_pairs hwf.2.2.2.2 p hp)) kvs.length []
      rw [hbuild, unfolded, unfoldedPairs_eq_map, binSpecRandomVal, binSpecRandomVal, hkvs]

/-! ## The constant form -/

/-- A collection, as opposed to a scalar. -/
def SpecTree.isCollection : SpecTree → Bool
  | .leaf _ => false
  | _ => true

/-- A spec stored in the constant form of a list or a map. -/
def BinSpec.isConstCollection : BinSpec → Bool
  | .constList _ _ | .constMap _ _ => true
  | _ => false

theorem isConstCollection_build_iff {t : SpecTree} (ht : t.isCollection = true) :
    t.build.isConstCollection = true ↔ ∀ l ∈ t.leaves, l.type.isConst = true := by
  rw [← isConst_iff]
  cases t with
  | leaf l => simp [isCollection] at ht
  | list n es =>
    simp only [build, isConst]
    by_cases hc : allConst es = true <;> simp [hc, BinSpec.isConstCollection]
  | map n kvs =>
    simp only [build, isConst]
    by_cases hc : allConstPairs kvs = true <;> simp [hc, BinSpec.isConstCollection]

theorem constVals_eq_flatMap (ts : List SpecTree) : constVals ts = ts.flatMap fun e => List.replicate e.mult e.constVal := by
  induction ts with
  | nil => rfl
  | cons t ts ih => simp [constVals, ih]

/-- What holds of the spec stored for a tree. A collection is in constant form exactly when none of its scalars is random. From
every source the stored spec yields what the unfolded one does. A constant list yields its elements, each as often as its
multiplier says, and a constant map one entry for each of its pairs, with different keys; neither reads a word. -/
structure FoldedSoundly (R : AsRandom) (t : SpecTree) : Prop where
  constForm : t.isCollection = true → (t.build.isConstCollection = true ↔ ∀ l ∈ t.leaves, l.type.isConst = true)
  sameValue : ∀ cLen s, binSpecRandomVal R cLen t.build s = binSpecRandomVal R cLen t.unfolded s
  readsNothing : t.isConst = true → ∀ cLen s, binSpecRandomVal R cLen t.build s = .ok (t.constVal, s)
  listExpanded : ∀ n es, t = .list n es → t.isConst = true →
    t.build = .constList n (es.flatMap fun e => List.replicate e.mult e.constVal)
  mapEntries : ∀ n kvs, t = .map n kvs → t.isConst = true →
    t.build = .constMap n (kvs.map fun p => (leafVal p.1, p.2.constVal)) ∧ ((kvs.map Prod.fst).map leafVal).Nodup

theorem foldedSoundly_of_wf {t : SpecTree} (hwf : t.WF) : FoldedSoundly R t where
  constForm := isConstCollection_build_iff
  sameValue cLen s := by rw [gen_build_eq_unfolded R cLen t hwf]
  readsNothing h cLen s := gen_build_const R cLen h s
  listExpanded := by
    intro n es ht hc
    subst ht
    simp only [isConst] at hc
    simp [build, hc, constVals_eq_flatMap]
  mapEntries := by
    intro n kvs ht hc
    subst ht
    refine ⟨?_, nodup_leafVals hwf.2.2.2.1 ?_⟩
    · simp only [isConst] at hc
      simp [build, hc, constEntries_eq_map]
    · intro k hk
      obtain ⟨p, hp, rfl⟩ := List.mem_map.mp hk
      exact (isConst_of_allConstPairs hc p hp).1

/-- Constant folding preserves meaning: an accepted text is read as some trees, the stored specs are those of the trees, in a list
that is never folded itself, and every tree that occurs in them at any depth is folded soundly. -/
theorem constant_folding_sound (s : Text) (o : ObjSpec) (h : objSpecParse R s = .ok o) :
    ∃ ts s', ReadsElems '\x00' ts s s' ∧ o = ⟨ts.map build, total ts⟩ ∧
      ∀ u ∈ ts, ∀ t, Within t u → FoldedSoundly R t := by
  obtain ⟨ts, s', hreads, -, ho⟩ := objSpecParse_ok_iff.mp h
  refine ⟨ts, s', hreads, ho, ?_⟩
  intro u hu t ht
  exact foldedSoundly_of_wf R (ht.wf (wf_of_mem hreads.wfList u hu))

/-- A constant list with a multiplier in it, next to a random bin. -/
theorem constant_folding_sound_list :
    ∃ ts s', ReadsElems '\x00' ts "[1,2*T],b".toList s' ∧
      (⟨[.constList 1 [.int 1, .bool true, .bool true], .scalar 1 .bool], 2⟩ : ObjSpec) = ⟨ts.map build, total ts⟩ ∧
      ∀ u ∈ ts, ∀ t, Within t u → FoldedSoundly .littleEndian t :=
  constant_folding_sound .littleEndian "[1,2*T],b".toList _ (by decide +kernel)

end AerospikeBenchmark
