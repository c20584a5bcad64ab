import AerospikeBenchmark.Theorems.HistogramUses
import AerospikeBenchmark.Theorems.NormalStages
import AerospikeBenchmark.Transaction.Reads

/-!
# Range reduction

`gen_rand_range` and `gen_rand_range_64` are rejection loops whose function on words is unbiased; the random keys of a stage are
the values of such a loop, moved to the range of the stage.
-/

namespace AerospikeBenchmark

open Words

variable {R : AsRandom}

theorem rejectionBound_eq {bits max : Nat} (hpos : 1 ≤ max) (hmax : max < 2 ^ bits) : rejectionBound bits max = 2 ^ bits % max :=
  neg_mod_eq hpos hmax.le

theorem unbiased_rangeResult {bits max : Nat} (hpos : 1 ≤ max) (hmax : max < 2 ^ bits) :
    Unbiased (2 ^ bits) (Finset.range max) (rangeResult bits max) := by
  unfold rangeResult
  rw [rejectionBound_eq hpos hmax]
  exact unbiased_reduceFrom hpos hmax.le

/-! ## Keys -/

/-- The key that a word gives for a stage, computed without wrapping. -/
def Stage.keyOfWord (s : Stage) (w : Nat) : Option Nat := (rangeResult 64 (s.keyEnd - s.keyStart) w).map (· + s.keyStart)

/-- The range of keys of a stage that was accepted. -/
theorem keyRange_of_accepted {args : StageArgs} {mem : Nat → Stage} {defs : List StageDef} {stages : List Stage}
    (hdefs : ∀ d ∈ defs, d.Typed) (h : stagesSetDefaultsAndParse R args mem defs = .ok stages) {s : Stage} (hs : s ∈ stages) :
    s.keyStart < s.keyEnd ∧ s.keyEnd < 2 ^ 64 := by
  obtain ⟨j, spec, -, d, hd, hparse⟩ := mem_parseStages h hs
  obtain ⟨parsed, hparsed⟩ := parsedStage_of_ok hparse
  refine ⟨hparsed.keyRange, ?_⟩
  rw [hparsed.keyEnd, StageDef.endKey]
  split
  · exact Nat.mod_lt _ (by decide)
  · exact (hdefs d hd).keyEnd

theorem returnsFirst_stageGenRandomKey {s : Stage} (hkeys : s.keyStart < s.keyEnd) (hend : s.keyEnd < 2 ^ 64) :
    ReturnsFirst (stageGenRandomKey s) s.keyOfWord := by
  have hsize : (s.keyEnd + 2 ^ 64 - s.keyStart) % 2 ^ 64 = s.keyEnd - s.keyStart := by omega
  have hloop := (returnsFirst_genRandRange64 (s.keyEnd - s.keyStart)).map fun r => (r + s.keyStart) % 2 ^ 64
  have hmap : (fun w => (rangeResult 64 (s.keyEnd - s.keyStart) w).map fun r => (r + s.keyStart) % 2 ^ 64) = s.keyOfWord := by
    funext w
    refine Option.map_congr fun r hr => ?_
    have hlt := Finset.mem_range.mp ((unbiased_rangeResult (by omega) (by omega)).inRange w r hr)
    exact Nat.mod_eq_of_lt (by omega)
  rw [hmap] at hloop
  rw [stageGenRandomKey, hsize]
  exact hloop

theorem unbiased_keyOfWord {s : Stage} (hkeys : s.keyStart < s.keyEnd) (hend : s.keyEnd < 2 ^ 64) :
    Unbiased (2 ^ 64) (Finset.Ico s.keyStart s.keyEnd) s.keyOfWord := by
  have hmax : s.keyEnd - s.keyStart < 2 ^ 64 := by omega
  have h := (unbiased_rangeResult (Nat.sub_pos_of_lt hkeys) hmax).map (addRightEmbedding s.keyStart)
  have hvalues : (Finset.range (s.keyEnd - s.keyStart)).map (addRightEmbedding s.keyStart) = Finset.Ico s.keyStart s.keyEnd := by
    rw [Finset.range_eq_Ico, Finset.map_add_right_Ico, Nat.zero_add, Nat.sub_add_cancel hkeys.le]
  rw [hvalues] at h
  exact h

/-- With the bound `(-max) % max`, which is `2^w % max`, range reduction accepts at least half of the words and gives each value below
`max` for equally many of them; both routines return what it makes of the first word it accepts. The random keys of an accepted
stage are in its range, are computed without wrapping, and each of them comes from equally many words. -/
theorem range_reduction_unbiased (R : AsRandom) (args : StageArgs) (mem : Nat → Stage) (defs : List StageDef) (stages : List Stage)
    (hdefs : ∀ d ∈ defs, d.Typed) (haccept : stagesSetDefaultsAndParse R args mem defs = .ok stages) :
    (∀ bits ∈ [32, 64], ∀ max, 1 ≤ max → max < 2 ^ bits → rejectionBound bits max = 2 ^ bits % max ∧
      Unbiased (2 ^ bits) (Finset.range max) (rangeResult bits max)) ∧
    (∀ max, ReturnsFirst (genRandRange R max) fun w => rangeResult 32 max (R.toUint32 w)) ∧
    (∀ max, ReturnsFirst (genRandRange64 max) (rangeResult 64 max)) ∧
    ∀ s ∈ stages, ReturnsFirst (stageGenRandomKey s) s.keyOfWord ∧
      Unbiased (2 ^ 64) (Finset.Ico s.keyStart s.keyEnd) s.keyOfWord := by
  refine ⟨?_, ?_, returnsFirst_genRandRange64, ?_⟩
  · intro bits _ max hpos hmax
    exact ⟨rejectionBound_eq hpos hmax, unbiased_rangeResult hpos hmax⟩
  · intro max
    exact returnsFirst_retry _
  · intro s hs
    obtain ⟨hkeys, hend⟩ := keyRange_of_accepted hdefs haccept hs
    exact ⟨returnsFirst_stageGenRandomKey hkeys hend, unbiased_keyOfWord hkeys hend⟩

/-- With the default keys of the command line. -/
theorem range_reduction_unbiased_default :
    ((Finset.range (2 ^ 64)).filter fun w => readsAndWrites.keyOfWord w = some 1).card = 2 ^ 64 / 1000000 := by
  have h := range_reduction_unbiased .littleEndian .defaults (fun _ => readsAndWrites) [StageDef.ofWorkload ['R', 'U']]
    [readsAndWrites] (by simp [StageDef.ofWorkload, unset64, StageDef.typed_iff]) (by decide +kernel)
  have heven := (h.2.2.2 readsAndWrites (List.mem_singleton_self _)).2.even 1 (by simp [readsAndWrites, Stage.ofWorkload])
  rw [Nat.card_Ico] at heven
  exact heven

end AerospikeBenchmark
