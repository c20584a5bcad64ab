import AerospikeBenchmark.Lemmas.Strings

/-!
# Random strings in blocks and one by one

`_gen_random_str` makes 24 characters at a time of two seeds and the rest of one seed for twelve. It draws the same seeds as the plain
algorithm, which takes one for every twelve characters, and writes the same characters.
-/

namespace AerospikeBenchmark

open CText Words Digits

/-- The plain algorithm: the base-36 digits of each seed, twelve of them, or as many as are still to be written. -/
def plainStr : (n : Nat) → (seeds : List Nat) → Text
  | _, [] => []
  | n, s :: seeds => (lowDigits nAlphanum (min n 12) s).map alphanumChar ++ plainStr (n - 12) seeds

/-- The number of seeds for `n` characters. -/
def nSeeds (n : Nat) : Nat := (n + 11) / 12

/-- The plain algorithm on seeds that are drawn. -/
def genPlainStr (n : Nat) : Gen Text := do
  let seeds ← repeatGen (genRandRange64 maxSeed) (nSeeds n)
  pure (plainStr n seeds)

/-! ## The loops -/

@[simp] theorem nSeeds_zero : nSeeds 0 = 0 := rfl

theorem genPlainStr_zero : genPlainStr 0 = pure [] := by
  rw [genPlainStr, nSeeds_zero, repeatGen, pure_bind]
  rfl

/-- One seed, and then the plain algorithm for the characters that are left. -/
theorem genPlainStr_step {n : Nat} (h : 0 < n) :
    genPlainStr n = (do
      let s ← genRandRange64 maxSeed
      let rest ← genPlainStr (n - 12)
      pure (seedChars (min n 12) s ++ rest)) := by
  have hseeds : nSeeds n = nSeeds (n - 12) + 1 := by
    unfold nSeeds
    omega
  simp only [genPlainStr, hseeds, repeatGen, bind_assoc, pure_bind, plainStr, seedChars_eq]

theorem strTail_eq_plain {fuel left : Nat} (h : left ≤ fuel) : strTail fuel left = genPlainStr left := by
  induction fuel generalizing left with
  | zero =>
    obtain rfl : left = 0 := by omega
    rw [strTail, genPlainStr_zero]
  | succ fuel ih =>
    rw [strTail]
    split
    · next hzero => rw [hzero, genPlainStr_zero]
    · next hpos =>
      have hrest : left - min left 12 = left - 12 := by omega
      have hfuel : left - 12 ≤ fuel := by omega
      rw [genPlainStr_step (by omega)]
      simp only [hrest, ih hfuel]

/-- The blocks and then the rest. -/
theorem strBlocks_eq_plain {fuel left : Nat} (h : left ≤ fuel) :
    (do
      let b ← strBlocks fuel left
      let t ← strTail b.2 b.2
      pure (b.1 ++ t)) = genPlainStr left := by
  induction fuel generalizing left with
  | zero =>
    obtain rfl : left = 0 := by omega
    simp only [strBlocks, pure_bind, strTail, List.append_nil, genPlainStr_zero]
  | succ fuel ih =>
    rw [strBlocks]
    split
    · next hblock =>
      -- a block takes the two seeds that the plain algorithm takes next
      have hrest : left - 12 - 12 = left - 24 := by omega
      have hfuel : left - 24 ≤ fuel := by omega
      rw [genPlainStr_step (by omega), genPlainStr_step (by omega), hrest, ← ih hfuel]
      simp only [bind_assoc, pure_bind, block_eq, Nat.min_eq_right (show 12 ≤ left by omega),
        Nat.min_eq_right (show 12 ≤ left - 12 by omega)]
      simp only [List.append_assoc]
    · simp only [pure_bind, List.nil_append, bind_pure]
      exact strTail_eq_plain le_rfl

/-! ## The seeds -/

/-- A seed can be drawn from a word above it by `MAX_SEED`. -/
theorem genRandRange64_seed {s : Nat} (h : s < maxSeed) (ws : List Nat) :
    genRandRange64 maxSeed (some ((s + maxSeed) :: ws)) = .ok (s, some ws) := by
  have hbound : rejectionBound 64 maxSeed < maxSeed := Nat.mod_lt _ (by decide)
  have hresult : rangeResult 64 maxSeed (s + maxSeed) = some s := by
    rw [rangeResult, reduceFrom_eq_some, Nat.add_mod_right, Nat.mod_eq_of_lt h]
    exact ⟨by omega, rfl⟩
  exact (returnsFirst_genRandRange64 maxSeed _ _ _).mpr ⟨[], _, rfl, by simp, hresult⟩

theorem repeatGen_seeds {seeds : List Nat} (h : ∀ s ∈ seeds, s < maxSeed) (rest : List Nat) :
    repeatGen (genRandRange64 maxSeed) seeds.length (some (seeds.map (· + maxSeed) ++ rest)) = .ok (seeds, some rest) := by
  induction seeds with
  | nil => rfl
  | cons s seeds ih =>
    obtain ⟨hs, hseeds⟩ := List.forall_mem_cons.mp h
    rw [List.length_cons, repeatGen, List.map_cons, List.cons_append, bind_eq_of_ok (genRandRange64_seed hs _),
      bind_eq_of_ok (ih hseeds)]
    rfl

/-! ## The vectors -/

theorem rawToAlphanumByte_eq_toNat {d : Nat} (h : d < nAlphanum) : rawToAlphanumByte d = (alphanumChar d).toNat := by
  revert h
  revert d
  decide

/-- Every byte of a vector becomes the character of its own digit. -/
theorem rawToAlphanum_lanes {ds : List Nat} (hlen : ds.length = 8) (hds : ∀ d ∈ ds, d < nAlphanum) :
    rawToAlphanum (pack id ds) = pack (fun d => (alphanumChar d).toNat) ds := by
  rw [rawToAlphanum_pack hlen hds, pack, pack]
  congr 1
  exact List.map_congr_left fun d hd => rawToAlphanumByte_eq_toNat (hds d hd)

/-- The vectors of two seeds hold all the digits of the first and then all those of the second. -/
theorem seedVectors_digits (s1 s2 : Nat) : ∃ a b c : List Nat, a.length = 8 ∧ b.length = 8 ∧ c.length = 8 ∧
    seedVectors s1 s2 = (pack id a, pack id b, pack id c) ∧
    a ++ b ++ c = lowDigits nAlphanum 12 s1 ++ lowDigits nAlphanum 12 s2 := by
  refine ⟨_, _, _, length_lowDigits _ _ _, ?_, length_lowDigits _ _ _, seedVectors_eq s1 s2, ?_⟩
  · rw [List.length_append, length_lowDigits, length_lowDigits]
  · rw [← lowDigits_append nAlphanum 8 4, ← lowDigits_append nAlphanum 4 8]
    simp only [List.append_assoc]

/-- For every length `_gen_random_str` is the plain algorithm, on any source of words; every sequence of seeds that is long enough is
drawn from some source, and then the characters are those of the plain algorithm. In `raw_to_alphanum` every byte becomes the character
of its own value, and the three vectors hold the digits of two seeds, each once and in order. -/
theorem genRandomStr_eq_plain (n : Nat) (hn : n < 2 ^ 32 - 1) :
    genRandomStr n = AsVal.str <$> genPlainStr n ∧
    (∀ seeds : List Nat, seeds.length = nSeeds n → (∀ s ∈ seeds, s < maxSeed) → ∃ words : List Nat, (∀ w ∈ words, w < 2 ^ 64) ∧
      ∀ rest, genRandomStr n (some (words ++ rest)) = .ok (.str (plainStr n seeds), some rest)) ∧
    (∀ ds : List Nat, ds.length = 8 → (∀ d ∈ ds, d < nAlphanum) →
      rawToAlphanum (pack id ds) = pack (fun d => (alphanumChar d).toNat) ds) ∧
    ∀ s1 s2, ∃ a b c : List Nat, a.length = 8 ∧ b.length = 8 ∧ c.length = 8 ∧ seedVectors s1 s2 = (pack id a, pack id b, pack id c) ∧
      a ++ b ++ c = lowDigits nAlphanum 12 s1 ++ lowDigits nAlphanum 12 s2 := by
  have hplain : genRandomStr n = AsVal.str <$> genPlainStr n := by
    rw [genRandomStr, if_neg (by omega), ← strBlocks_eq_plain le_rfl]
    simp only [map_eq_pure_bind, bind_assoc, pure_bind]
  refine ⟨hplain, fun seeds hlen hseeds => ⟨seeds.map (· + maxSeed), ?_, fun rest => ?_⟩, fun ds => rawToAlphanum_lanes, seedVectors_digits⟩
  · rw [List.forall_mem_map]
    intro s hs
    have hlt := hseeds s hs
    rw [maxSeed] at *
    omega
  · have hdraw := repeatGen_seeds hseeds rest
    rw [hlen] at hdraw
    rw [hplain, genPlainStr, map_eq_pure_bind, bind_assoc, bind_eq_of_ok hdraw]
    rfl

/-- Thirteen characters from two seeds. -/
theorem genRandomStr_eq_plain_thirteen : ∃ words : List Nat, (∀ w ∈ words, w < 2 ^ 64) ∧
    ∀ rest, genRandomStr 13 (some (words ++ rest)) = .ok (.str (plainStr 13 [35, 10]), some rest) :=
  (genRandomStr_eq_plain 13 (by decide)).2.1 [35, 10] rfl (by decide)

example : plainStr 13 [35, 10] = "z00000000000a".toList := by decide +kernel

end AerospikeBenchmark
