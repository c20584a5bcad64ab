import AerospikeBenchmark.Lemmas.ParseRun
import AerospikeBenchmark.ObjectSpec.Free

/-!
# What is released of a spec

No block has two names, `bin_spec_free` releases blocks of its spec only and none of them twice, and on an accepted spec its loops
stay inside their arrays.
-/

namespace AerospikeBenchmark

open CText SpecTree

/-! ## Blocks -/

theorem nodup_map_cons {s : BlockStep} {ps : List BlockPath} (h : ps.Nodup) : (ps.map (s :: ·)).Nodup :=
  h.map fun _ _ heq => (List.cons.inj heq).2

/-- The blocks of the elements from an index on are behind a step to an index that is not smaller. -/
theorem mem_blocksElems {i : Nat} {es : List BinSpec} {p : BlockPath} (h : p ∈ blocksElems i es) : ∃ j q, i ≤ j ∧ p = .elem j :: q := by
  induction es generalizing i with
  | nil => simp [blocksElems] at h
  | cons e es ih =>
    rw [blocksElems] at h
    rcases List.mem_append.mp h with hfirst | hrest
    · obtain ⟨q, -, rfl⟩ := List.mem_map.mp hfirst
      exact ⟨i, q, le_rfl, rfl⟩
    · obtain ⟨j, q, hj, rfl⟩ := ih hrest
      exact ⟨j, q, by omega, rfl⟩

theorem mem_blocksPairs {i : Nat} {kvs : List (BinSpec × BinSpec)} {p : BlockPath} (h : p ∈ blocksPairs i kvs) :
    ∃ j q, i ≤ j ∧ (p = .key j :: q ∨ p = .val j :: q) := by
  induction kvs generalizing i with
  | nil => simp [blocksPairs] at h
  | cons kv kvs ih =>
    obtain ⟨k, v⟩ := kv
    rw [blocksPairs] at h
    rcases List.mem_append.mp h with hfirst | hrest
    · rcases List.mem_append.mp hfirst with hkey | hval
      · obtain ⟨q, -, rfl⟩ := List.mem_map.mp hkey
        exact ⟨i, q, le_rfl, .inl rfl⟩
      · obtain ⟨q, -, rfl⟩ := List.mem_map.mp hval
        exact ⟨i, q, le_rfl, .inr rfl⟩
    · obtain ⟨j, q, hj, hp⟩ := ih hrest
      exact ⟨j, q, by omega, hp⟩

/-- The block of a collection itself comes after those of its entries. -/
theorem nodup_append_root {ps : List BlockPath} (h : ps.Nodup) (hne : [] ∉ ps) : (ps ++ [[]]).Nodup := by
  refine List.nodup_append.mpr ⟨h, List.nodup_singleton _, ?_⟩
  intro p hp q hq
  rw [List.mem_singleton.mp hq]
  rintro rfl
  exact hne hp

mutual

theorem BinSpec.nodup_blocks : ∀ b : BinSpec, b.blocks.Nodup
  | .scalar _ s => by cases s <;> simp [BinSpec.blocks]
  | .constList _ _ | .constMap _ _ => by simp [BinSpec.blocks]
  | .list _ _ es => by
    rw [BinSpec.blocks]
    refine nodup_append_root (nodup_blocksElems 0 es) fun h => ?_
    obtain ⟨j, q, -, hp⟩ := mem_blocksElems h
    cases hp
  | .map _ _ _ kvs => by
    rw [BinSpec.blocks]
    refine nodup_append_root (nodup_blocksPairs 0 kvs) fun h => ?_
    obtain ⟨j, q, -, hp | hp⟩ := mem_blocksPairs h <;> cases hp

theorem nodup_blocksElems : ∀ (i : Nat) (es : List BinSpec), (blocksElems i es).Nodup
  | _, [] => by simp [blocksElems]
  | i, e :: es => by
    rw [blocksElems]
    refine List.nodup_append.mpr ⟨nodup_map_cons e.nodup_blocks, nodup_blocksElems (i + 1) es, ?_⟩
    rintro p hp _ hq rfl
    obtain ⟨q, -, rfl⟩ := List.mem_map.mp hp
    obtain ⟨j, q', hj, heq⟩ := mem_blocksElems hq
    cases heq
    omega

theorem nodup_blocksPairs : ∀ (i : Nat) (kvs : List (BinSpec × BinSpec)), (blocksPairs i kvs).Nodup
  | _, [] => by simp [blocksPairs]
  | i, (k, v) :: kvs => by
    rw [blocksPairs]
    have hpair : (k.blocks.map (.key i :: ·) ++ v.blocks.map (.val i :: ·)).Nodup := by
      refine List.nodup_append.mpr ⟨nodup_map_cons k.nodup_blocks, nodup_map_cons v.nodup_blocks, ?_⟩
      rintro p hp _ hq rfl
      obtain ⟨q, -, rfl⟩ := List.mem_map.mp hp
      obtain ⟨q', -, heq⟩ := List.mem_map.mp hq
      cases heq
    refine List.nodup_append.mpr ⟨hpair, nodup_blocksPairs (i + 1) kvs, ?_⟩
    rintro p hp _ hq rfl
    obtain ⟨j, q', hj, hrest⟩ := mem_blocksPairs hq
    rcases List.mem_append.mp hp with hp | hp <;> obtain ⟨q, -, rfl⟩ := List.mem_map.mp hp <;>
      rcases hrest with heq | heq <;> cases heq <;> omega

end

/-! ## The loops -/

/-- What a loop releases belongs to the entries of its array, in their order. -/
theorem freeLoop_sublist {length cnt : Nat} {entries : List (Nat × Option (List BlockPath))} {ps : List BlockPath}
    (h : freeLoop length cnt entries = some ps) : ps.Sublist (entries.flatMap fun e => e.2.getD []) := by
  induction entries generalizing cnt ps with
  | nil =>
    rw [freeLoop] at h
    split at h
    · cases h
    · rw [← Option.some.inj h]
      exact List.nil_sublist _
  | cons e entries ih =>
    obtain ⟨nRepeats, entry⟩ := e
    rw [freeLoop] at h
    split at h
    · obtain ⟨released, hentry, h⟩ := Option.bind_eq_some_iff.mp h
      obtain ⟨rest, hrest, h⟩ := Option.bind_eq_some_iff.mp h
      rw [← Option.some.inj h, List.flatMap_cons, hentry]
      exact (List.Sublist.refl _).append (ih hrest)
    · rw [← Option.some.inj h]
      exact List.nil_sublist _

/-- A loop stays inside its array when the multipliers of the entries add up to what bounds it, without wrapping. -/
theorem freeLoop_isSome {length cnt : Nat} {entries : List (Nat × Option (List BlockPath))} (hentries : ∀ e ∈ entries, e.2.isSome)
    (hlength : length ≤ cnt + (entries.map Prod.fst).sum) (hfits : cnt + (entries.map Prod.fst).sum < 2 ^ 32) :
    (freeLoop length cnt entries).isSome := by
  induction entries generalizing cnt with
  | nil =>
    rw [freeLoop, if_neg (by simpa using hlength)]
    rfl
  | cons e entries ih =>
    obtain ⟨nRepeats, entry⟩ := e
    simp only [List.map_cons, List.sum_cons] at hlength hfits
    rw [freeLoop]
    split
    · obtain ⟨released, rfl⟩ := Option.isSome_iff_exists.mp (hentries _ List.mem_cons_self)
      have hmod : (cnt + nRepeats) % 2 ^ 32 = cnt + nRepeats := Nat.mod_eq_of_lt (by omega)
      rw [hmod]
      obtain ⟨rest, hrest⟩ := Option.isSome_iff_exists.mp
        (ih (fun e he => hentries e (List.mem_cons_of_mem _ he)) (by omega : length ≤ cnt + nRepeats + _) (by omega))
      rw [hrest]
      rfl
    · rfl

mutual

theorem binSpecFree_sublist : ∀ (b : BinSpec), ((binSpecFree b).getD []).Sublist b.blocks
  | .scalar _ s => by cases s <;> simp [binSpecFree, BinSpec.blocks]
  | .constList _ _ | .constMap _ _ => by simp [binSpecFree, BinSpec.blocks]
  | .list _ length es => by
    rw [binSpecFree, BinSpec.blocks]
    cases h : freeLoop length 0 (elemEntries 0 es) with
    | none => exact List.nil_sublist _
    | some ps => exact ((freeLoop_sublist h).trans (elemEntries_sublist 0 es)).append (List.Sublist.refl _)
  | .map _ nEntries _ kvs => by
    rw [binSpecFree, BinSpec.blocks]
    cases h : freeLoop nEntries 0 (pairEntriesFree 0 kvs) with
    | none => exact List.nil_sublist _
    | some ps => exact ((freeLoop_sublist h).trans (pairEntriesFree_sublist 0 kvs)).append (List.Sublist.refl _)

theorem elemEntries_sublist : ∀ (i : Nat) (es : List BinSpec),
    ((elemEntries i es).flatMap fun e => e.2.getD []).Sublist (blocksElems i es)
  | _, [] => by simp [elemEntries]
  | i, e :: es => by
    rw [elemEntries, blocksElems, List.flatMap_cons]
    refine List.Sublist.append ?_ (elemEntries_sublist (i + 1) es)
    have he := binSpecFree_sublist e
    cases h : binSpecFree e with
    | none => exact List.nil_sublist _
    | some ps =>
      rw [h] at he
      exact he.map _

theorem pairEntriesFree_sublist : ∀ (i : Nat) (kvs : List (BinSpec × BinSpec)),
    ((pairEntriesFree i kvs).flatMap fun e => e.2.getD []).Sublist (blocksPairs i kvs)
  | _, [] => by simp [pairEntriesFree]
  | i, (k, v) :: kvs => by
    rw [pairEntriesFree, blocksPairs, List.flatMap_cons]
    refine List.Sublist.append ?_ (pairEntriesFree_sublist (i + 1) kvs)
    have hk := binSpecFree_sublist k
    have hv := binSpecFree_sublist v
    cases hk' : binSpecFree k with
    | none => exact List.nil_sublist _
    | some ps =>
      cases hv' : binSpecFree v with
      | none => exact List.nil_sublist _
      | some qs =>
        rw [hk'] at hk
        rw [hv'] at hv
        exact (hk.map _).append (hv.map _)

end

/-- No block is released twice. -/
theorem nodup_of_objSpecFree {specs : List BinSpec} {nBinSpecs : Nat} {ps : List BlockPath} (h : objSpecFree specs nBinSpecs = some ps) :
    ps.Nodup := by
  have hsub := binSpecFree_sublist (.list 1 nBinSpecs specs)
  rw [binSpecFree, ← objSpecFree, h] at hsub
  exact (BinSpec.nodup_blocks _).sublist hsub

/-! ## Accepted specs -/

theorem map_fst_elemEntries (i : Nat) (es : List BinSpec) : (elemEntries i es).map Prod.fst = es.map BinSpec.nRepeats := by
  induction es generalizing i with
  | nil => simp [elemEntries]
  | cons e es ih => simp [elemEntries, ih]

theorem map_fst_pairEntriesFree (i : Nat) (kvs : List (BinSpec × BinSpec)) :
    (pairEntriesFree i kvs).map Prod.fst = kvs.map fun p => p.1.nRepeats := by
  induction kvs generalizing i with
  | nil => simp [pairEntriesFree]
  | cons kv kvs ih => simp [pairEntriesFree, ih]

theorem isSome_elemEntries {es : List BinSpec} (h : ∀ e ∈ es, (binSpecFree e).isSome) (i : Nat) :
    ∀ e ∈ elemEntries i es, e.2.isSome := by
  induction es generalizing i with
  | nil => simp [elemEntries]
  | cons e es ih =>
    rw [elemEntries]
    refine List.forall_mem_cons.mpr ⟨?_, ih (fun e he => h e (List.mem_cons_of_mem _ he)) (i + 1)⟩
    rw [Option.isSome_map]
    exact h e List.mem_cons_self

theorem isSome_pairEntriesFree {kvs : List (BinSpec × BinSpec)} (h : ∀ p ∈ kvs, (binSpecFree p.1).isSome ∧ (binSpecFree p.2).isSome)
    (i : Nat) : ∀ e ∈ pairEntriesFree i kvs, e.2.isSome := by
  induction kvs generalizing i with
  | nil => simp [pairEntriesFree]
  | cons kv kvs ih =>
    obtain ⟨k, v⟩ := kv
    rw [pairEntriesFree]
    refine List.forall_mem_cons.mpr ⟨?_, ih (fun p hp => h p (List.mem_cons_of_mem _ hp)) (i + 1)⟩
    obtain ⟨hk, hv⟩ := h (k, v) List.mem_cons_self
    obtain ⟨ps, hps⟩ := Option.isSome_iff_exists.mp hk
    obtain ⟨qs, hqs⟩ := Option.isSome_iff_exists.mp hv
    simp only at hps hqs
    simp [hps, hqs]

theorem binSpecFree_leaf (l : Leaf) : (binSpecFree l.build).isSome := by
  rw [Leaf.build]
  cases l.type <;> simp [binSpecFree]

/-- There are no more pairs in a map than their keys ask for. -/
theorem length_le_keyTotal {kvs : List (Leaf × SpecTree)} (h : WFPairs kvs) : kvs.length ≤ keyTotal kvs := by
  induction kvs with
  | nil => simp
  | cons p kvs ih =>
    obtain ⟨k, v⟩ := p
    obtain ⟨hk, -, -, hkvs⟩ := h
    have := ih hkvs
    have := hk.pos
    simp only [List.length_cons, keyTotal_cons]
    omega

theorem freeLoop_build {es : List SpecTree} (h : ∀ t ∈ es, (binSpecFree t.build).isSome) (htot : total es < 2 ^ 32) :
    (freeLoop (total es) 0 (elemEntries 0 (buildList es))).isSome := by
  rw [buildList_eq_map]
  have hsum : ((elemEntries 0 (es.map build)).map Prod.fst).sum = total es := by
    rw [map_fst_elemEntries]
    exact totalRepeats_map_build es
  refine freeLoop_isSome (isSome_elemEntries ?_ 0) (by omega) (by omega)
  intro e he
  obtain ⟨t, ht, rfl⟩ := List.mem_map.mp he
  exact h t ht

theorem freeLoop_buildPairs {kvs : List (Leaf × SpecTree)} (h : ∀ p ∈ kvs, (binSpecFree p.2.build).isSome) (hwf : WFPairs kvs)
    (htot : keyTotal kvs < 2 ^ 32) : (freeLoop kvs.length 0 (pairEntriesFree 0 (buildPairs kvs))).isSome := by
  rw [buildPairs_eq_map]
  have hsum : ((pairEntriesFree 0 (kvs.map fun p => (p.1.build, p.2.build))).map Prod.fst).sum = keyTotal kvs := by
    rw [map_fst_pairEntriesFree, List.map_map]
    rfl
  have hlength := length_le_keyTotal hwf
  refine freeLoop_isSome (isSome_pairEntriesFree ?_ 0) (by omega) (by omega)
  intro e he
  obtain ⟨p, hp, rfl⟩ := List.mem_map.mp he
  exact ⟨binSpecFree_leaf p.1, h p hp⟩

/-- `bin_spec_free` returns on the spec of a well-formed tree. -/
theorem binSpecFree_build {t : SpecTree} (h : t.WF) : (binSpecFree t.build).isSome := by
  induction t using SpecTree.induct with
  | leaf l => exact binSpecFree_leaf l
  | list n es ih =>
    obtain ⟨-, -, htot, hes⟩ := h
    rw [build]
    split
    · rw [binSpecFree]
      rfl
    · rw [binSpecFree, Option.isSome_map]
      exact freeLoop_build (fun t ht => ih t ht (wf_of_mem hes t ht)) htot
  | map n kvs ih =>
    obtain ⟨-, -, htot, -, hkvs⟩ := h
    rw [build]
    split
    · rw [binSpecFree]
      rfl
    · rw [binSpecFree, Option.isSome_map]
      exact freeLoop_buildPairs (fun p hp => ih p hp (wf_of_mem_pairs hkvs p hp)) hkvs htot

/-- `obj_spec_free` returns on an accepted spec. -/
theorem objSpecFree_of_accepted {R : AsRandom} {str : Text} {o : ObjSpec} (h : objSpecParse R str = .ok o) :
    ∃ ps, objSpecFree o.binSpecs o.nBinSpecs = some ps := by
  obtain ⟨ts, s', hreads, htot, rfl⟩ := objSpecParse_ok_iff.mp h
  rw [← Option.isSome_iff_exists, objSpecFree, Option.isSome_map, ← buildList_eq_map]
  exact freeLoop_build (fun t ht => binSpecFree_build (wf_of_mem hreads.wfList t ht)) htot

end AerospikeBenchmark
