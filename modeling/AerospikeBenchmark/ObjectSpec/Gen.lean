import AerospikeBenchmark.Lib.Rejection
import AerospikeBenchmark.ObjectSpec.Token

/-!
# Generating values from bin specs

`bin_spec_random_val` and the generators it calls. The random source is the stream of 64-bit words `as_random_next_uint64`
returns; what `as_random_next_uint32` and `as_random_next_bytes` make of the words is the client library's and stays a parameter.
The float `compression_ratio` only decides how many bytes of a byte array are filled, so the generators take that function,
`cLen length` for `(uint32_t) (compression_ratio * length)`.
-/

namespace AerospikeBenchmark

open CText Words

/-- The functions of `as_random` that are not one word: a 32-bit number is made of one word, `n` bytes of `bytesWords n` words. -/
structure AsRandom where
  toUint32 : Nat → Nat
  bytesWords : Nat → Nat
  bytes : Nat → List Nat → List UInt8
  length_bytes : ∀ n ws, ws.length = bytesWords n → (bytes n ws).length = n

/-- A client library that takes the low half of a word, and fills bytes with the words in little-endian order. -/
def AsRandom.littleEndian : AsRandom where
  toUint32 w := w % 2 ^ 32
  bytesWords n := (n + 7) / 8
  bytes n ws := (ws.flatMap fun w => (List.range 8).map fun k => UInt8.ofNat (w / 256 ^ k)).take n
  length_bytes n ws h := by
    simp only [List.length_take, List.length_flatMap, List.length_map, List.length_range, List.map_const', List.sum_replicate, h]
    simp only [smul_eq_mul]
    omega

/-- `gen_rand_range_64`: words below `2^64 % max` are rejected, computed as `(-max) % max` in 64-bit arithmetic. -/
def genRandRange64 (max : Nat) : Gen Nat := do
  let r ← nextFrom ((2 ^ 64 - max) % 2 ^ 64 % max)
  pure (r % max)

/-- The bound below which words are rejected: `(-max) % max` in `bits`-bit arithmetic. -/
def rejectionBound (bits max : Nat) : Nat := (2 ^ bits - max) % 2 ^ bits % max

/-- What a word gives: nothing when it is rejected and the loop draws again. -/
def rangeResult (bits max r : Nat) : Option Nat := reduceFrom (rejectionBound bits max) max r

/-- `gen_rand_range`: the same as `gen_rand_range_64` with 32-bit words. -/
def genRandRange (R : AsRandom) (max : Nat) : Gen Nat := retry fun w => rangeResult 32 max (R.toUint32 w)

/-- `gen_rand_range_64` in the form of `gen_rand_range`. -/
theorem returnsFirst_genRandRange64 (max : Nat) : ReturnsFirst (genRandRange64 max) (rangeResult 64 max) := by
  have hloop := returnsFirst_retry fun w => if w < rejectionBound 64 max then none else some w
  rw [← nextFrom_eq_retry] at hloop
  have hmap : (fun w => (if w < rejectionBound 64 max then none else some w).map (· % max)) = rangeResult 64 max := by
    funext w
    simp only [rangeResult, reduceFrom]
    split <;> rfl
  rw [← hmap]
  exact hloop.map (· % max)

/-! ## Scalars -/

/-- `_gen_random_bool`. -/
def genRandomBool (R : AsRandom) : Gen AsVal := do
  let w ← nextWord
  pure (.bool (R.toUint32 w % 2 = 1))

/-- The smallest value of an integer range: `(0x1LU << (range * 8)) & ~0x1LU`. -/
def rangeMin (range : Nat) : Nat := 2 ^ (range * 8) / 2 * 2

/-- The number of values of an integer range: `(0xffLU << (range * 8)) + !range`. -/
def rangeSize (range : Nat) : Nat := 0xff * 2 ^ (range * 8) + if range = 0 then 1 else 0

/-- `_gen_random_int`. -/
def genRandomInt (range : Nat) : Gen AsVal :=
  if 7 < range then stop .nullValue
  else do
    let r ← genRandRange64 (rangeSize range)
    pure (.int (toInt64 ((r + rangeMin range) % 2 ^ 64)))

/-- `raw_to_alphanum`, on a vector of eight bytes. -/
def rawToAlphanum (n : Nat) : Nat :=
  let n := (n + 0x3636363636363636) % 2 ^ 64
  let x := (n >>> 6) &&& 0x0101010101010101
  let y := (x + 0x7f7f7f7f7f7f7f7f) % 2 ^ 64 &&& 0x7a7a7a7a7a7a7a7a
  let x := x ||| (x <<< 5) % 2 ^ 64
  let n := (n + (x + y)) % 2 ^ 64
  n &&& 0x7f7f7f7f7f7f7f7f

/-- `N_ALPHANUM`. -/
def nAlphanum : Nat := 36

/-- `MAX_SEED`. -/
def maxSeed : Nat := 4738381338321616896

/-- `for k: s /= N_ALPHANUM; c |= (s % N_ALPHANUM) << (k * 8);` over the given `k`. -/
def divThenPack (ks : List Nat) (sc : Nat × Nat) : Nat × Nat :=
  ks.foldl (fun sc k => (sc.1 / nAlphanum, sc.2 ||| (sc.1 / nAlphanum % nAlphanum) <<< (k * 8))) sc

/-- `for k: c |= (s % N_ALPHANUM) << (k * 8); s /= N_ALPHANUM;` over the given `k`. -/
def packThenDiv (ks : List Nat) (sc : Nat × Nat) : Nat × Nat :=
  ks.foldl (fun sc k => (sc.1 / nAlphanum, sc.2 ||| (sc.1 % nAlphanum) <<< (k * 8))) sc

/-- The three vectors of eight values below 36 that two seeds give. -/
def seedVectors (s1 s2 : Nat) : Nat × Nat × Nat :=
  let a := divThenPack [1, 2, 3, 4, 5, 6, 7] (s1, s1 % nAlphanum)
  let s1 := a.1 / nAlphanum
  let b := divThenPack [1, 2, 3] (s1, s1 % nAlphanum)
  let c := packThenDiv [4, 5, 6, 7] (s2, b.2)
  let d := divThenPack [1, 2, 3, 4, 5, 6, 7] (c.1, c.1 % nAlphanum)
  (a.2, c.2, d.2)

/-- The `n` bytes of a number in memory, least significant first, as characters. -/
def bytesLE : Nat → Nat → Text
  | 0, _ => []
  | n + 1, v => Char.ofNat (v % 256) :: bytesLE n (v / 256)

/-- `r < 10 ? r + '0' : r + 'a' - 10`. -/
def alphanumChar (r : Nat) : Char := if r < 10 then Char.ofNat (r + 48) else Char.ofNat (r + 97 - 10)

/-- `while (i + 24 <= length)`: the text written and the number of characters that are left. The fuel bounds the iterations. -/
def strBlocks : (fuel left : Nat) → Gen (Text × Nat)
  | 0, left => pure ([], left)
  | fuel + 1, left =>
    if 24 ≤ left then do
      let s1 ← genRandRange64 maxSeed
      let s2 ← genRandRange64 maxSeed
      let c := seedVectors s1 s2
      let block := bytesLE 8 (rawToAlphanum c.1) ++ bytesLE 8 (rawToAlphanum c.2.1) ++ bytesLE 8 (rawToAlphanum c.2.2)
      let rest ← strBlocks fuel (left - 24)
      pure (block ++ rest.1, rest.2)
    else pure ([], left)

/-- The first `sz` digits of a seed in base 36, least significant first. -/
def seedChars : (sz s : Nat) → Text
  | 0, _ => []
  | sz + 1, s => alphanumChar (s % nAlphanum) :: seedChars sz (s / nAlphanum)

/-- `while (i < length)`: the remaining characters, at most 12 from each seed. The fuel bounds the iterations. -/
def strTail : (fuel left : Nat) → Gen Text
  | 0, _ => pure []
  | fuel + 1, left =>
    if left = 0 then pure []
    else do
      let sz := min left 12
      let s ← genRandRange64 maxSeed
      let rest ← strTail fuel (left - sz)
      pure (seedChars sz s ++ rest)

/-- `_gen_random_str`. The buffer has `length + 1` bytes, computed in 32-bit arithmetic, and the NUL goes to index `length`. -/
def genRandomStr (length : Nat) : Gen AsVal :=
  if (length + 1) % 2 ^ 32 ≤ length then stop .outOfBounds
  else do
    let b ← strBlocks length length
    let t ← strTail b.2 b.2
    pure (.str (b.1 ++ t))

/-- `_gen_random_bytes`: the buffer is zeroed and its first `c_len` bytes are filled. -/
def genRandomBytes (R : AsRandom) (cLen : Nat → Nat) (length : Nat) : Gen AsVal :=
  if length < cLen length then stop .outOfBounds
  else do
    let ws ← nextWords (R.bytesWords (cLen length))
    pure (.bytes (R.bytes (cLen length) ws ++ List.replicate (length - cLen length) 0))

/-- `_gen_random_double`. -/
def genRandomDouble : Gen AsVal := do
  let w ← nextWord
  pure (.double w)

/-- The scalar cases of `bin_spec_random_val`. -/
def genScalar (R : AsRandom) (cLen : Nat → Nat) : Scalar → Gen AsVal
  | .bool => genRandomBool R
  | .int range => genRandomInt range
  | .str length => genRandomStr length
  | .bytes length => genRandomBytes R cLen length
  | .double => genRandomDouble
  | .constBool b => pure (.bool b)
  | .constInt v => pure (.int v)
  | .constStr s => pure (.str s)
  | .constDouble d => pure (.double d)

/-! ## Collections -/

/-- `MAX_KEY_ENTRY_RETRIES`. -/
def maxKeyEntryRetries : Nat := 1024

/-- The `while` loop of `_gen_random_map`: draw keys until one is not in the map. The argument is the number of retries left; a
key and what is left of the retries, or no key when they are used up. -/
def freshKey (genKey : Gen AsVal) (m : AsMap) : Nat → Gen (Option AsVal × Nat)
  | 0 => pure (none, 0)
  | left + 1 => do
    let key ← genKey
    match m.get key with
    | none => pure (some key, left + 1)
    | some _ => freshKey genKey m left

/-- The loop of `_gen_random_map` over the repetitions of one pair. The retries are shared by all of them. -/
def pairEntries (genKey genVal : Gen AsVal) : (n left : Nat) → AsMap → Gen AsMap
  | 0, _, m => pure m
  | n + 1, left, m => do
    let k ← freshKey genKey m left
    match k.1 with
    | none => pure m
    | some key => do
      let val ← genVal
      pairEntries genKey genVal n k.2 (m.set key val)

mutual

/-- `bin_spec_random_val`. -/
def binSpecRandomVal (R : AsRandom) (cLen : Nat → Nat) : BinSpec → Gen AsVal
  | .scalar _ s => genScalar R cLen s
  | .list _ length es => AsVal.list <$> genRandomList R cLen es length 0
  | .constList _ vs => pure (.list vs)
  | .map _ nEntries _ kvs => AsVal.map <$> genRandomMap R cLen kvs nEntries []
  | .constMap _ m => pure (.map m)

/-- The loop of `_gen_random_list`: `for (i = 0, cnt = 0; cnt < length; i++)`, from an element and a count on. -/
def genRandomList (R : AsRandom) (cLen : Nat → Nat) : List BinSpec → (length cnt : Nat) → Gen (List AsVal)
  | [], length, cnt => if cnt < length then stop .outOfBounds else pure []
  | e :: es, length, cnt =>
    if cnt < length then do
      let vs ← repeatGen (binSpecRandomVal R cLen e) e.nRepeats
      let rest ← genRandomList R cLen es length ((cnt + e.nRepeats) % 2 ^ 32)
      pure (vs ++ rest)
    else pure []

/-- The loop of `_gen_random_map`: `for (entry_idx = 0; entry_idx < n_entries; entry_idx++)`, the entries left as argument. -/
def genRandomMap (R : AsRandom) (cLen : Nat → Nat) : List (BinSpec × BinSpec) → Nat → AsMap → Gen AsMap
  | _, 0, m => pure m
  | [], _ + 1, _ => stop .outOfBounds
  | (k, v) :: kvs, n + 1, m => do
    let m ← pairEntries (binSpecRandomVal R cLen k) (binSpecRandomVal R cLen v) k.nRepeats maxKeyEntryRetries m
    genRandomMap R cLen kvs n m

end

/-- `obj_spec_gen_compressible_value` with `write_bins == NULL`: a temporary list spec over all bins. -/
def objSpecGenCompressibleValue (R : AsRandom) (cLen : Nat → Nat) (o : ObjSpec) : Gen AsVal :=
  binSpecRandomVal R cLen (.list 1 o.nBinSpecs o.binSpecs)

/-- `(uint32_t) (1.f * length)`: the length rounded to single precision. -/
def fullLength (length : Nat) : Nat := roundSig 24 length

/-- `obj_spec_gen_value` with `write_bins == NULL`. -/
def objSpecGenValue (R : AsRandom) (o : ObjSpec) : Gen AsVal := objSpecGenCompressibleValue R fullLength o

end AerospikeBenchmark
