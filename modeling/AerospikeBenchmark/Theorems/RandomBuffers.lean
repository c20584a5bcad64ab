import AerospikeBenchmark.Lemmas.ParseRun
import AerospikeBenchmark.ObjectSpec.Buffers
import AerospikeBenchmark.ObjectSpec.Conform

/-!
# Random values stay in their buffers

The buffer of a random string is too small for one length only, the largest that the parser takes: its size wraps to 0. The buffer of
random bytes is filled up to its length in single precision, which is sometimes more than the length.
-/

namespace AerospikeBenchmark

open CText Words SpecTree

/-! ## Strings -/

/-- The blocks are written from `i` on without a gap, and less than a block is left. -/
theorem blockIndices_spec {length : Nat} (hlt : length < 2 ^ 32) {fuel i : Nat} (hi : i ≤ length) :
    ∃ m, blockIndices length fuel i = (List.range' i m, i + m) ∧ i + m ≤ length := by
  induction fuel generalizing i with
  | zero => exact ⟨0, rfl, hi⟩
  | succ fuel ih =>
    rw [blockIndices]
    split
    · next hblock =>
      obtain ⟨m, hrest, hle⟩ := ih hblock
      refine ⟨24 + m, ?_, by omega⟩
      rw [Nat.mod_eq_of_lt (by omega), hrest, ← Nat.add_assoc]
      simp only [List.range'_append_1]
    · exact ⟨0, rfl, hi⟩

theorem tailIndices_eq {length : Nat} (hlt : length < 2 ^ 32) {fuel i : Nat} (hi : i ≤ length) (hfuel : length - i ≤ fuel) :
    tailIndices length fuel i = List.range' i (length - i) := by
  induction fuel generalizing i with
  | zero =>
    rw [show length - i = 0 by omega]
    rfl
  | succ fuel ih =>
    rw [tailIndices]
    split
    · next hmore =>
      dsimp only
      have hsz : min (length - i) 12 + (length - (i + min (length - i) 12)) = length - i := by omega
      rw [Nat.mod_eq_of_lt (by omega), ih (by omega) (by omega), List.range'_append_1, hsz]
    · rw [show length - i = 0 by omega]
      rfl

/-- `_gen_random_str` writes at every index up to the length, once each. -/
theorem strIndices_eq {length : Nat} (hlt : length < 2 ^ 32) : strIndices length = List.range (length + 1) := by
  obtain ⟨m, hblocks, hle⟩ : ∃ m, blockIndices length length 0 = (List.range' 0 m, 0 + m) ∧ 0 + m ≤ length :=
    blockIndices_spec hlt (Nat.zero_le length)
  rw [Nat.zero_add] at hblocks hle
  rw [strIndices, hblocks]
  dsimp only
  rw [tailIndices_eq hlt hle (by omega), List.range_succ, List.range_eq_range']
  have hjoin := List.range'_append_1 (s := 0) (m := m) (n := length - m)
  rw [Nat.zero_add, Nat.add_sub_cancel' hle] at hjoin
  rw [hjoin]

/-- The parameters of the scalars in an accepted spec are in range. -/
theorem inRange_of_accepted {R : AsRandom} {str : Text} {o : ObjSpec} (h : objSpecParse R str = .ok o) :
    ∀ c ∈ scalarsList o.binSpecs, c.InRange := by
  obtain ⟨ts, s', hreads, -, rfl⟩ := objSpecParse_ok_iff.mp h
  rw [← buildList_eq_map]
  exact SpecTree.WFList.inRange hreads.wfList

/-- For every string type in an accepted spec, the writes of `_gen_random_str` are at the indices up to the length, and its buffer is
large enough for all of them exactly when the length is not the largest `uint32_t`; with that length no run stays in the buffer. -/
theorem str_buffer_fits_iff (R : AsRandom) (str : Text) (o : ObjSpec) (haccepted : objSpecParse R str = .ok o) (n : Nat)
    (hn : .str n ∈ scalarsList o.binSpecs) :
    strIndices n = List.range (n + 1) ∧ ((∀ i ∈ strIndices n, i < strBufSize n) ↔ n ≠ 2 ^ 32 - 1) ∧
    (n = 2 ^ 32 - 1 → ∀ s, genRandomStr n s = .error .outOfBounds) := by
  have hlt : n < 2 ^ 32 := inRange_of_accepted haccepted _ hn
  refine ⟨strIndices_eq hlt, ⟨fun hfits hmax => ?_, fun hne i hi => ?_⟩, ?_⟩
  · have hlast : n < strBufSize n := hfits n (by rw [strIndices_eq hlt, List.mem_range]; omega)
    rw [strBufSize] at hlast
    omega
  · rw [strIndices_eq hlt, List.mem_range] at hi
    rw [strBufSize, Nat.mod_eq_of_lt (by omega)]
    exact hi
  · intro hmax s
    rw [genRandomStr, if_pos (by omega)]
    rfl

/-- The spec `S5`. -/
theorem str_buffer_fits_five : objSpecParse .littleEndian "S5".toList = .ok ⟨[.scalar 1 (.str 5)], 1⟩ ∧
    ∀ i ∈ strIndices 5, i < strBufSize 5 := by
  have haccepted : objSpecParse .littleEndian "S5".toList = .ok ⟨[.scalar 1 (.str 5)], 1⟩ := by decide +kernel
  exact ⟨haccepted, (str_buffer_fits_iff .littleEndian _ _ haccepted 5 (by decide)).2.1.mpr (by decide)⟩

/-- The longest string type is accepted, and its buffer has no byte. -/
theorem longest_str_overruns :
    objSpecParse .littleEndian "S4294967295".toList = .ok ⟨[.scalar 1 (.str 4294967295)], 1⟩ ∧ strBufSize 4294967295 = 0 ∧
    0 ∈ strIndices 4294967295 ∧ 4294967295 ∈ strIndices 4294967295 := by
  have hindices : strIndices 4294967295 = List.range (4294967295 + 1) := strIndices_eq (by decide)
  refine ⟨by decide +kernel, by decide, ?_, ?_⟩
  · rw [hindices, List.mem_range]
    omega
  · rw [hindices, List.mem_range]
    omega

/-! ## Bytes -/

theorem fullLength_eq (n : Nat) : fullLength n = divNearest n (floatSpacing n) * floatSpacing n := rfl

theorem floatSpacing_pos (n : Nat) : 0 < floatSpacing n := Nat.two_pow_pos _

/-- A length is rounded to the next number below exactly when it is nearer to it, or as near and the number below is the even one. -/
theorem fullLength_le_iff (n : Nat) :
    fullLength n ≤ n ↔ 2 * (n % floatSpacing n) < floatSpacing n ∨
      2 * (n % floatSpacing n) = floatSpacing n ∧ n / floatSpacing n % 2 = 0 := by
  have hdiv : n / floatSpacing n * floatSpacing n + n % floatSpacing n = n := Nat.div_add_mod' n (floatSpacing n)
  have hmod := Nat.mod_lt n (floatSpacing_pos n)
  rw [fullLength_eq, divNearest]
  split
  · next hdown => exact iff_of_true (by omega) hdown
  · next hup =>
    refine iff_of_false ?_ hup
    rw [Nat.add_mul, Nat.one_mul]
    omega

/-- Up to 2^24 every length is a single-precision number. -/
theorem fullLength_of_le {n : Nat} (h : n ≤ 2 ^ 24) : fullLength n = n := by
  rcases h.lt_or_eq with hlt | rfl
  · have hlog : n.log2 + 1 - 24 = 0 := by
      have : n.log2 < 24 := by
        by_cases hzero : n = 0
        · subst hzero
          decide
        · exact (Nat.log2_lt hzero).mpr hlt
      omega
    have hone : floatSpacing n = 1 := by rw [floatSpacing, hlog, pow_zero]
    rw [fullLength_eq, hone, divNearest, Nat.mod_one, Nat.div_one, if_pos (by omega), Nat.mul_one]
  · decide

/-- For every bytes type in an accepted spec and the compression ratio 1, what `_gen_random_bytes` fills is within its buffer exactly when
single precision does not round the length up; in particular up to 2^24. Then the conversion back to `uint32_t` is in range too. When
the length is rounded up no run stays in the buffer. -/
theorem bytes_fill_fits_iff (R : AsRandom) (str : Text) (o : ObjSpec) (haccepted : objSpecParse R str = .ok o) (n : Nat)
    (hn : .bytes n ∈ scalarsList o.binSpecs) :
    (fullLength n ≤ n ↔ 2 * (n % floatSpacing n) < floatSpacing n ∨
      2 * (n % floatSpacing n) = floatSpacing n ∧ n / floatSpacing n % 2 = 0) ∧
    (n ≤ 2 ^ 24 → fullLength n = n) ∧ (fullLength n ≤ n → fullLength n < 2 ^ 32) ∧
    (n < fullLength n → ∀ s, genRandomBytes R fullLength n s = .error .outOfBounds) := by
  have hlt : n < 2 ^ 32 := inRange_of_accepted haccepted _ hn
  refine ⟨fullLength_le_iff n, fullLength_of_le, fun h => h.trans_lt hlt, fun h s => ?_⟩
  rw [genRandomBytes, if_pos h]
  rfl

/-- The spec `B16777217` is rounded down. -/
theorem bytes_fill_fits_down : objSpecParse .littleEndian "B16777217".toList = .ok ⟨[.scalar 1 (.bytes 16777217)], 1⟩ ∧
    fullLength 16777217 ≤ 16777217 := by
  have haccepted : objSpecParse .littleEndian "B16777217".toList = .ok ⟨[.scalar 1 (.bytes 16777217)], 1⟩ := by decide +kernel
  exact ⟨haccepted, (bytes_fill_fits_iff .littleEndian _ _ haccepted 16777217 (by decide)).1.mpr (by decide +kernel)⟩

/-- The spec `B16777219` is rounded up: one byte too many is filled. -/
theorem bytes_fill_overruns : objSpecParse .littleEndian "B16777219".toList = .ok ⟨[.scalar 1 (.bytes 16777219)], 1⟩ ∧
    fullLength 16777219 = 16777220 := by
  exact ⟨by decide +kernel, by decide +kernel⟩

end AerospikeBenchmark
