import AerospikeBenchmark.Lemmas.FreedWhole

/-!
# What freeing a spec leaves behind

The loop of `bin_spec_free` over the pairs of a map counts the multipliers of the keys but stops at the number of pairs. A pair is not
reached when the keys before it ask for as many entries as there are pairs; whatever memory it owns is lost. Everything else of an
accepted spec is released, once.
-/

namespace AerospikeBenchmark

open CText SpecTree

/-- On every accepted spec `obj_spec_free` returns and releases blocks of the spec, none twice; it releases all of them exactly when no
map in the spec has a pair that owns memory and is not reached. -/
theorem objSpecFree_whole_iff (R : AsRandom) (str : Text) (o : ObjSpec) (haccepted : objSpecParse R str = .ok o) :
    ∃ ps, objSpecFree o.binSpecs o.nBinSpecs = some ps ∧ ps.Sublist o.blocks ∧ ps.Nodup ∧
      (ps.Perm o.blocks ↔ ∀ b ∈ o.binSpecs, b.Everywhere BinSpec.PairsFreed) := by
  obtain ⟨ps, hps⟩ := objSpecFree_of_accepted haccepted
  obtain ⟨ts, s', hreads, htot, rfl⟩ := objSpecParse_ok_iff.mp haccepted
  have hlist : binSpecFree (.list 1 (total ts) (ts.map build)) = some ps := by rw [binSpecFree, ← objSpecFree, hps]
  have hsub : ps.Sublist (ObjSpec.blocks ⟨ts.map build, total ts⟩) := sublist_of_binSpecFree hlist
  refine ⟨ps, hps, hsub, nodup_of_objSpecFree hps, ?_⟩
  have hperm : ps.Perm (ObjSpec.blocks ⟨ts.map build, total ts⟩) ↔ FreedWhole (.list 1 (total ts) (ts.map build)) := by
    rw [freedWhole_iff hlist]
    exact ⟨fun h => hsub.eq_of_length h.length_eq, fun h => h ▸ List.Perm.refl _⟩
  have hwhole := freedWhole_buildList (n := 1) hreads.wfList htot
    (fun t ht => freedWhole_build_iff (wf_of_mem hreads.wfList t ht))
  rw [buildList_eq_map] at hwhole
  rw [hperm, hwhole, everywhere_list]
  simp [BinSpec.PairsFreed]

/-- A list in a list, with a constant string. -/
theorem objSpecFree_whole_nested : ∃ ps, objSpecFree [.list 1 2 [.scalar 1 (.constStr ['a']), .scalar 1 .bool]] 1 = some ps ∧
    ps.Perm (ObjSpec.blocks ⟨[.list 1 2 [.scalar 1 (.constStr ['a']), .scalar 1 .bool]], 1⟩) := by
  obtain ⟨ps, hps, -, -, hiff⟩ := objSpecFree_whole_iff .littleEndian "[\"a\",b]".toList
    ⟨[.list 1 2 [.scalar 1 (.constStr ['a']), .scalar 1 .bool]], 1⟩ (by decide +kernel)
  refine ⟨ps, hps, hiff.mpr ?_⟩
  simp [BinSpec.PairsFreed]

/-- The string of the second pair is lost: the key of the first pair stands for two entries, as many as there are pairs. -/
theorem second_pair_not_freed :
    objSpecParse .littleEndian "\x7b2*I1:b,I2:\"a\"\x7d".toList =
      .ok ⟨[.map 1 2 3 [(.scalar 2 (.int 0), .scalar 1 .bool), (.scalar 1 (.int 1), .scalar 1 (.constStr ['a']))]], 1⟩ ∧
    [.elem 0, .val 1] ∈ ObjSpec.blocks
      ⟨[.map 1 2 3 [(.scalar 2 (.int 0), .scalar 1 .bool), (.scalar 1 (.int 1), .scalar 1 (.constStr ['a']))]], 1⟩ ∧
    objSpecFree [.map 1 2 3 [(.scalar 2 (.int 0), .scalar 1 .bool), (.scalar 1 (.int 1), .scalar 1 (.constStr ['a']))]] 1 =
      some [[.elem 0], []] := by
  refine ⟨by decide +kernel, by decide +kernel, by decide +kernel⟩

end AerospikeBenchmark
