import AerospikeBenchmark.Lemmas.Free
import AerospikeBenchmark.ObjectSpec.Layout

/-!
# What is released of a spec

What the loops of `bin_spec_free` release is a part of the blocks of a spec. It is all of them exactly when every pair of a map that the
loop does not reach owns no memory.
-/

namespace AerospikeBenchmark

open CText SpecTree

/-- The blocks an object spec owns. -/
def ObjSpec.blocks (o : ObjSpec) : List BlockPath := blocksElems 0 o.binSpecs ++ [[]]

/-- From a pair on, after keys that ask for `cnt` entries: a pair that the loop does not reach owns no memory. -/
def PairsReached (nEntries : Nat) : (cnt : Nat) → List (BinSpec × BinSpec) → Prop
  | _, [] => True
  | cnt, (k, v) :: kvs => (nEntries ≤ cnt → k.blocks = [] ∧ v.blocks = []) ∧ PairsReached nEntries (cnt + k.nRepeats) kvs

/-- `bin_spec_free` loses no memory of this spec itself. -/
def BinSpec.PairsFreed : BinSpec → Prop
  | .map _ nEntries _ kvs => PairsReached nEntries 0 kvs
  | _ => True

/-! ## Lists of blocks -/

/-- Parts of two lists that together are the whole. -/
theorem append_eq_iff_of_sublist {α : Type} {a b c d : List α} (hac : a.Sublist c) (hbd : b.Sublist d) :
    a ++ b = c ++ d ↔ a = c ∧ b = d := by
  refine ⟨fun h => ?_, fun ⟨hac, hbd⟩ => by rw [hac, hbd]⟩
  have hlen := congrArg List.length h
  rw [List.length_append, List.length_append] at hlen
  have hle := hac.length_le
  have hle' := hbd.length_le
  exact List.append_inj h (by omega)

theorem map_cons_eq_iff {s : BlockStep} {ps qs : List BlockPath} : ps.map (s :: ·) = qs.map (s :: ·) ↔ ps = qs :=
  (List.map_injective_iff.mpr fun _ _ h => (List.cons.inj h).2).eq_iff

/-- What is released is all there is. -/
def FreedWhole (b : BinSpec) : Prop := binSpecFree b = some b.blocks

/-- A spec without memory of its own has nothing in it. -/
theorem everywhere_of_blocks_nil {b : BinSpec} (h : b.blocks = []) : FreedWhole b ∧ b.Everywhere BinSpec.PairsFreed := by
  cases b with
  | scalar n s =>
    refine ⟨?_, everywhere_scalar.mpr trivial⟩
    unfold FreedWhole
    cases s <;> simp_all [binSpecFree, BinSpec.blocks]
  | list | constList | map | constMap => simp [BinSpec.blocks] at h

/-! ## The loops -/

theorem sublist_of_binSpecFree {b : BinSpec} {ps : List BlockPath} (h : binSpecFree b = some ps) : ps.Sublist b.blocks := by
  have := binSpecFree_sublist b
  rwa [h] at this

theorem freedWhole_iff {b : BinSpec} {ps : List BlockPath} (h : binSpecFree b = some ps) : FreedWhole b ↔ ps = b.blocks := by
  rw [FreedWhole, h, Option.some.injEq]

/-- The loop over a list runs over all its elements. -/
theorem freeLoop_elems_iff {length : Nat} (hlt : length < 2 ^ 32) {es : List BinSpec} (hpos : ∀ e ∈ es, 1 ≤ e.nRepeats) {i cnt : Nat}
    (hsum : cnt + (es.map BinSpec.nRepeats).sum = length) {ps : List BlockPath} (h : freeLoop length cnt (elemEntries i es) = some ps) :
    ps = blocksElems i es ↔ ∀ e ∈ es, FreedWhole e := by
  induction es generalizing i cnt ps with
  | nil =>
    rw [elemEntries, freeLoop, List.map_nil, List.sum_nil] at *
    rw [if_neg (by omega)] at h
    simp [← Option.some.inj h, blocksElems]
  | cons e es ih =>
    have hone := hpos e List.mem_cons_self
    rw [List.map_cons, List.sum_cons] at hsum
    rw [elemEntries, freeLoop, if_pos (by omega), Nat.mod_eq_of_lt (by omega)] at h
    obtain ⟨released, hentry, h⟩ := Option.bind_eq_some_iff.mp h
    obtain ⟨rest, hrest, h⟩ := Option.bind_eq_some_iff.mp h
    obtain ⟨qs, hqs, rfl⟩ := Option.map_eq_some_iff.mp hentry
    have hsub : rest.Sublist (blocksElems (i + 1) es) := (freeLoop_sublist hrest).trans (elemEntries_sublist (i + 1) es)
    rw [← Option.some.inj h, blocksElems, append_eq_iff_of_sublist ((sublist_of_binSpecFree hqs).map _) hsub, map_cons_eq_iff,
      ih (fun e he => hpos e (List.mem_cons_of_mem _ he)) (by omega) hrest, ← freedWhole_iff hqs, List.forall_mem_cons]

theorem blocksPairs_nil_iff {i : Nat} {kvs : List (BinSpec × BinSpec)} :
    blocksPairs i kvs = [] ↔ ∀ p ∈ kvs, p.1.blocks = [] ∧ p.2.blocks = [] := by
  induction kvs generalizing i with
  | nil => simp [blocksPairs]
  | cons p kvs ih =>
    obtain ⟨k, v⟩ := p
    rw [List.forall_mem_cons, ← ih (i := i + 1)]
    simp [blocksPairs, and_assoc]

/-- After the loop has ended no pair is reached. -/
theorem pairsReached_of_le {nEntries cnt : Nat} (h : nEntries ≤ cnt) {kvs : List (BinSpec × BinSpec)} :
    PairsReached nEntries cnt kvs ↔ ∀ p ∈ kvs, p.1.blocks = [] ∧ p.2.blocks = [] := by
  induction kvs generalizing cnt with
  | nil => simp [PairsReached]
  | cons p kvs ih =>
    obtain ⟨k, v⟩ := p
    rw [PairsReached, ih (by omega), List.forall_mem_cons]
    simp [h]

/-- The loop over a map runs over the pairs it reaches. -/
theorem freeLoop_pairs_iff {nEntries : Nat} {kvs : List (BinSpec × BinSpec)} {i cnt : Nat}
    (hfits : cnt + (kvs.map fun p => p.1.nRepeats).sum < 2 ^ 32) {ps : List BlockPath}
    (h : freeLoop nEntries cnt (pairEntriesFree i kvs) = some ps) :
    ps = blocksPairs i kvs ↔ PairsReached nEntries cnt kvs ∧ ∀ p ∈ kvs, FreedWhole p.1 ∧ FreedWhole p.2 := by
  induction kvs generalizing i cnt ps with
  | nil =>
    rw [pairEntriesFree, freeLoop] at h
    split at h
    · cases h
    · simp [← Option.some.inj h, blocksPairs, PairsReached]
  | cons p kvs ih =>
    obtain ⟨k, v⟩ := p
    rw [List.map_cons, List.sum_cons] at hfits
    rw [pairEntriesFree, freeLoop] at h
    split at h
    · next hlt =>
      rw [Nat.mod_eq_of_lt (by simp only at hfits; omega)] at h
      obtain ⟨released, hentry, h⟩ := Option.bind_eq_some_iff.mp h
      obtain ⟨rest, hrest, h⟩ := Option.bind_eq_some_iff.mp h
      obtain ⟨ks, hks, hentry⟩ := Option.bind_eq_some_iff.mp hentry
      obtain ⟨vs, hvs, hentry⟩ := Option.bind_eq_some_iff.mp hentry
      obtain rfl := Option.some.inj hentry
      have hsubk := (sublist_of_binSpecFree hks).map (.key i :: ·)
      have hsubv := (sublist_of_binSpecFree hvs).map (.val i :: ·)
      have hsub : rest.Sublist (blocksPairs (i + 1) kvs) := (freeLoop_sublist hrest).trans (pairEntriesFree_sublist (i + 1) kvs)
      rw [← Option.some.inj h, blocksPairs, append_eq_iff_of_sublist (hsubk.append hsubv) hsub,
        append_eq_iff_of_sublist hsubk hsubv, map_cons_eq_iff, map_cons_eq_iff, ih (by simp only at hfits; omega) hrest,
        ← freedWhole_iff hks, ← freedWhole_iff hvs, List.forall_mem_cons, PairsReached]
      have hreached : nEntries ≤ cnt → k.blocks = [] ∧ v.blocks = [] := fun hle => absurd hlt (by omega)
      tauto
    · next hge =>
      rw [← Option.some.inj h, eq_comm, blocksPairs_nil_iff, pairsReached_of_le (by omega)]
      refine ⟨fun hnil => ⟨hnil, fun p hp => ?_⟩, And.left⟩
      exact ⟨(everywhere_of_blocks_nil (hnil p hp).1).1, (everywhere_of_blocks_nil (hnil p hp).2).1⟩

/-! ## Whole specs -/

theorem freedWhole_list_iff {n length : Nat} {es : List BinSpec} {ps : List BlockPath}
    (h : freeLoop length 0 (elemEntries 0 es) = some ps) : FreedWhole (.list n length es) ↔ ps = blocksElems 0 es := by
  rw [FreedWhole, binSpecFree, BinSpec.blocks, h, Option.map_some, Option.some.injEq, List.append_left_inj]

theorem freedWhole_map_iff {n nEntries length : Nat} {kvs : List (BinSpec × BinSpec)} {ps : List BlockPath}
    (h : freeLoop nEntries 0 (pairEntriesFree 0 kvs) = some ps) :
    FreedWhole (.map n nEntries length kvs) ↔ ps = blocksPairs 0 kvs := by
  rw [FreedWhole, binSpecFree, BinSpec.blocks, h, Option.map_some, Option.some.injEq, List.append_left_inj]

theorem freedWhole_leaf (l : Leaf) : FreedWhole l.build := by
  unfold FreedWhole Leaf.build
  cases l.type <;> simp [binSpecFree, BinSpec.blocks]

/-- The list of the elements of some trees, given what holds of each. -/
theorem freedWhole_buildList {n : Nat} {es : List SpecTree} (hwf : WFList es) (htot : total es < 2 ^ 32)
    (ih : ∀ t ∈ es, FreedWhole t.build ↔ t.build.Everywhere BinSpec.PairsFreed) :
    FreedWhole (.list n (total es) (buildList es)) ↔ BinSpec.Everywhere BinSpec.PairsFreed (.list n (total es) (buildList es)) := by
  obtain ⟨ps, hps⟩ := Option.isSome_iff_exists.mp
    (freeLoop_build (fun t ht => binSpecFree_build (wf_of_mem hwf t ht)) htot)
  have hsum : 0 + ((buildList es).map BinSpec.nRepeats).sum = total es := by
    rw [Nat.zero_add, buildList_eq_map]
    exact totalRepeats_map_build es
  have hpos : ∀ e ∈ buildList es, 1 ≤ e.nRepeats := by
    rw [buildList_eq_map]
    intro e he
    obtain ⟨t, ht, rfl⟩ := List.mem_map.mp he
    rw [nRepeats_build]
    exact (wf_of_mem hwf t ht).mult_bounds.1
  rw [freedWhole_list_iff hps, freeLoop_elems_iff htot hpos hsum hps, everywhere_list, buildList_eq_map]
  simp only [List.forall_mem_map, BinSpec.PairsFreed, true_and]
  exact forall₂_congr ih

/-- What `bin_spec_free` releases of the spec of a well-formed tree is all of it exactly when every map in it has its pairs freed. -/
theorem freedWhole_build_iff {t : SpecTree} (h : t.WF) : FreedWhole t.build ↔ t.build.Everywhere BinSpec.PairsFreed := by
  induction t using SpecTree.induct with
  | leaf l => exact iff_of_true (freedWhole_leaf l) (everywhere_scalar.mpr trivial)
  | list n es ih =>
    obtain ⟨-, -, htot, hes⟩ := h
    rw [build]
    split
    · exact iff_of_true (by simp [FreedWhole, binSpecFree, BinSpec.blocks]) (fun x hx => by cases hx; trivial)
    · exact freedWhole_buildList hes htot fun t ht => ih t ht (wf_of_mem hes t ht)
  | map n kvs ih =>
    obtain ⟨-, -, htot, -, hkvs⟩ := h
    rw [build]
    split
    · exact iff_of_true (by simp [FreedWhole, binSpecFree, BinSpec.blocks]) (fun x hx => by cases hx; trivial)
    · obtain ⟨ps, hps⟩ := Option.isSome_iff_exists.mp
        (freeLoop_buildPairs (fun p hp => binSpecFree_build (wf_of_mem_pairs hkvs p hp)) hkvs htot)
      have hfits : 0 + ((buildPairs kvs).map fun p => p.1.nRepeats).sum < 2 ^ 32 := by
        rw [Nat.zero_add, buildPairs_eq_map, List.map_map]
        exact htot
      rw [freedWhole_map_iff hps, freeLoop_pairs_iff hfits hps, everywhere_map, buildPairs_eq_map]
      simp only [List.forall_mem_map, BinSpec.PairsFreed]
      refine and_congr_right fun _ => forall₂_congr fun p hp => ?_
      exact and_congr (iff_of_true (freedWhole_leaf p.1) (everywhere_scalar.mpr trivial)) (ih p hp (wf_of_mem_pairs hkvs p hp))

end AerospikeBenchmark
