import AerospikeBenchmark.ObjectSpec.Gen

/-!
# The buffers of random strings and bytes

The indices at which `_gen_random_str` writes, with its loop variable as the `uint32_t` it is, next to the size it asks for; and the
distance of the single-precision numbers around the length of a byte array.
-/

namespace AerospikeBenchmark

/-- The argument of `cf_malloc` in `_gen_random_str`: `length + 1` on a `uint32_t`. -/
def strBufSize (length : Nat) : Nat := (length + 1) % 2 ^ 32

/-- `while (i + (2 * ALPHANUM_PER_64_BITS) <= length)`: the indices written, and `i` after the loop. The comparison is on 64 bits. The fuel
bounds the iterations. -/
def blockIndices (length : Nat) : (fuel i : Nat) → List Nat × Nat
  | 0, i => ([], i)
  | fuel + 1, i =>
    if i + 24 ≤ length then
      let rest := blockIndices length fuel ((i + 24) % 2 ^ 32)
      (List.range' i 24 ++ rest.1, rest.2)
    else ([], i)

/-- `while (i < length)`: the indices written. The fuel bounds the iterations. -/
def tailIndices (length : Nat) : (fuel i : Nat) → List Nat
  | 0, _ => []
  | fuel + 1, i =>
    if i < length then
      let sz := min (length - i) 12
      List.range' i sz ++ tailIndices length fuel ((i + sz) % 2 ^ 32)
    else []

/-- The indices at which `_gen_random_str` writes, in its order; the NUL comes last. -/
def strIndices (length : Nat) : List Nat :=
  let blocks := blockIndices length length 0
  blocks.1 ++ tailIndices length length blocks.2 ++ [length]

/-- The distance of the single-precision numbers around `n`, or 1 if all integers there are among them. -/
def floatSpacing (n : Nat) : Nat := 2 ^ (n.log2 + 1 - 24)

end AerospikeBenchmark
