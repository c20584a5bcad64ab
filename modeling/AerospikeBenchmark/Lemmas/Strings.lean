import AerospikeBenchmark.Lib.Digits
import AerospikeBenchmark.ObjectSpec.Gen

/-!
# The characters of random strings

`_gen_random_str` writes 24 characters at a time from two seeds, on vectors of eight bytes. A block is the same text that the
one-character loop at the end of the function writes for the two seeds: twelve base-36 digits of each, least significant first.
-/

namespace AerospikeBenchmark

open CText Words Digits

/-! ## Eight bytes at once -/

/-- What `raw_to_alphanum` does to one byte. -/
def rawToAlphanumByte (d : Nat) : Nat :=
  let n := d + 0x36
  let x := (n >>> 6) &&& 1
  let y := (x + 0x7f) &&& 0x7a
  (n + ((x ||| x <<< 5) + y)) &&& 0x7f

theorem rawToAlphanumByte_eq {d : Nat} (h : d < nAlphanum) : Char.ofNat (rawToAlphanumByte d) = alphanumChar d := by
  revert h
  revert d
  decide

theorem rawToAlphanumByte_lt {d : Nat} : rawToAlphanumByte d < 256 := by
  have h : rawToAlphanumByte d < 2 ^ 7 := Nat.and_lt_two_pow _ (by decide)
  exact Nat.lt_trans h (by decide)

/-- On digits below 36 no byte of the vector overflows into the next. -/
theorem rawToAlphanum_pack {ds : List Nat} (hlen : ds.length = 8) (hds : ∀ d ∈ ds, d < nAlphanum) :
    rawToAlphanum (pack id ds) = pack rawToAlphanumByte ds := by
  have const : ∀ c, pack (fun _ => c) ds = Nat.ofDigits 256 (List.replicate 8 c) := by
    intro c
    rw [pack, List.map_const', hlen]
  have small : ∀ f : Nat → Nat, (∀ d < nAlphanum, f d < 256) → ∀ d ∈ ds, f d < 256 := fun f hf d hd => hf d (hds d hd)
  have fits : ∀ f : Nat → Nat, (∀ d < nAlphanum, f d < 256) → pack f ds % 2 ^ 64 = pack f ds := by
    intro f hf
    have h := pack_lt (small f hf)
    rw [hlen] at h
    exact Nat.mod_eq_of_lt h
  have h36 : 0x3636363636363636 = pack (fun _ => 0x36) ds := (const 0x36).symm
  have h01 : 0x0101010101010101 = pack (fun _ => 1) ds := (const 1).symm
  have h7f : 0x7f7f7f7f7f7f7f7f = pack (fun _ => 0x7f) ds := (const 0x7f).symm
  have h7a : 0x7a7a7a7a7a7a7a7a = pack (fun _ => 0x7a) ds := (const 0x7a).symm
  unfold rawToAlphanum
  simp only []
  rw [h36, h01, h7f, h7a, pack_add, fits _ (by decide), pack_shiftRight_and_one (by decide) (small _ (by decide)), pack_add,
    fits _ (by decide), pack_and (small _ (by decide)) (small _ (by decide)), pack_shiftLeft, fits _ (by decide),
    pack_or (small _ (by decide)) (small _ (by decide)), pack_add, pack_add, fits _ (by decide),
    pack_and (small _ (by decide)) (small _ (by decide))]
  rfl

theorem bytesLE_pack {f : Nat → Nat} {ds : List Nat} (hf : ∀ d ∈ ds, f d < 256) :
    bytesLE ds.length (pack f ds) = ds.map fun d => Char.ofNat (f d) := by
  induction ds with
  | nil => rfl
  | cons d ds ih =>
    have hd : f d < 256 := hf d List.mem_cons_self
    have hmod : (f d + 256 * pack f ds) % 256 = f d := by omega
    have hdiv : (f d + 256 * pack f ds) / 256 = pack f ds := by omega
    rw [List.length_cons, bytesLE, pack_cons, hmod, hdiv, List.map_cons, ih (fun c hc => hf c (List.mem_cons_of_mem _ hc))]

/-- Eight digits written as a vector are the characters of the digits. -/
theorem bytesLE_rawToAlphanum {ds : List Nat} (hlen : ds.length = 8) (hds : ∀ d ∈ ds, d < nAlphanum) :
    bytesLE 8 (rawToAlphanum (pack id ds)) = ds.map alphanumChar := by
  have hbytes : bytesLE ds.length (pack rawToAlphanumByte ds) = ds.map fun d => Char.ofNat (rawToAlphanumByte d) :=
    bytesLE_pack fun d _ => rawToAlphanumByte_lt
  rw [hlen] at hbytes
  rw [rawToAlphanum_pack hlen hds, hbytes]
  exact List.map_congr_left fun d hd => rawToAlphanumByte_eq (hds d hd)

/-! ## The vectors of two seeds -/

theorem packThenDiv_range (m a s c : Nat) (hc : c < 256 ^ a) :
    packThenDiv (List.range' a m) (s, c) = (s / nAlphanum ^ m, c + 256 ^ a * pack id (lowDigits nAlphanum m s)) := by
  induction m generalizing a s c with
  | zero => simp [packThenDiv, lowDigits, pack]
  | succ m ih =>
    have hd : s % nAlphanum < 256 := Nat.lt_trans (Nat.mod_lt _ (by decide)) (by decide)
    have hc' : c + 256 ^ a * (s % nAlphanum) < 256 ^ (a + 1) := by
      rw [pow_succ]
      nlinarith
    have hstep : packThenDiv (List.range' a (m + 1)) (s, c)
        = packThenDiv (List.range' (a + 1) m) (s / nAlphanum, c + 256 ^ a * (s % nAlphanum)) := by
      rw [List.range'_succ]
      simp only [packThenDiv, List.foldl_cons]
      rw [or_shiftLeft_byte hc]
    rw [hstep, ih _ _ _ hc', lowDigits, pack_cons, Nat.div_div_eq_div_mul, ← pow_succ', pow_succ 256]
    simp only [id]
    congr 1
    ring

/-- Dividing first packs what packing first packs of the quotient. -/
theorem divThenPack_eq (ks : List Nat) (s c : Nat) :
    divThenPack ks (s, c) = (s / nAlphanum ^ ks.length, (packThenDiv ks (s / nAlphanum, c)).2) := by
  induction ks generalizing s c with
  | nil => simp [divThenPack, packThenDiv]
  | cons k ks ih =>
    have h := ih (s / nAlphanum) (c ||| (s / nAlphanum % nAlphanum) <<< (k * 8))
    rw [Nat.div_div_eq_div_mul, ← pow_succ'] at h
    exact h

/-- The first digit is put in place before the loop over the others. -/
theorem divThenPack_all (m s : Nat) :
    divThenPack (List.range' 1 m) (s, s % nAlphanum) = (s / nAlphanum ^ m, pack id (lowDigits nAlphanum (m + 1) s)) := by
  have hd : s % nAlphanum < 256 ^ 1 := Nat.lt_trans (Nat.mod_lt _ (by decide)) (by decide)
  rw [divThenPack_eq, packThenDiv_range m 1 _ _ hd, List.length_range', lowDigits, pack_cons]
  rfl

/-- The three vectors hold the twelve digits of the first seed and then those of the second. -/
theorem seedVectors_eq (s1 s2 : Nat) :
    seedVectors s1 s2 = (pack id (lowDigits nAlphanum 8 s1),
      pack id (lowDigits nAlphanum 4 (s1 / nAlphanum ^ 8) ++ lowDigits nAlphanum 4 s2),
      pack id (lowDigits nAlphanum 8 (s2 / nAlphanum ^ 4))) := by
  have hlow : pack id (lowDigits nAlphanum 4 (s1 / nAlphanum ^ 8)) < 256 ^ 4 := by
    have h : pack id (lowDigits nAlphanum 4 (s1 / nAlphanum ^ 8)) < 256 ^ (lowDigits nAlphanum 4 (s1 / nAlphanum ^ 8)).length :=
      pack_lt fun d hd => Nat.lt_trans (lt_of_mem_lowDigits (by decide) hd) (by decide)
    rwa [length_lowDigits] at h
  have h7 := divThenPack_all 7 s1
  have hs1 : s1 / nAlphanum ^ 7 / nAlphanum = s1 / nAlphanum ^ 8 := by
    rw [Nat.div_div_eq_div_mul, ← pow_succ]
  have h3 := divThenPack_all 3 (s1 / nAlphanum ^ 8)
  have h4 := packThenDiv_range 4 4 s2 _ hlow
  have h7' := divThenPack_all 7 (s2 / nAlphanum ^ 4)
  unfold seedVectors
  simp only [List.range', Nat.reduceAdd] at h7 h3 h4 h7'
  simp only [h7, hs1, h3, h4, h7', pack_append, length_lowDigits]

theorem seedChars_eq (sz s : Nat) : seedChars sz s = (lowDigits nAlphanum sz s).map alphanumChar := by
  induction sz generalizing s with
  | zero => rfl
  | succ sz ih => rw [seedChars, lowDigits, List.map_cons, ih]

/-- A block of 24 characters is the twelve characters of each seed that the loop at the end of the function writes. -/
theorem block_eq (s1 s2 : Nat) :
    bytesLE 8 (rawToAlphanum (seedVectors s1 s2).1) ++ bytesLE 8 (rawToAlphanum (seedVectors s1 s2).2.1)
      ++ bytesLE 8 (rawToAlphanum (seedVectors s1 s2).2.2) = seedChars 12 s1 ++ seedChars 12 s2 := by
  have below : ∀ m s, ∀ d ∈ lowDigits nAlphanum m s, d < nAlphanum := fun m s d hd => lt_of_mem_lowDigits (by decide) hd
  rw [seedVectors_eq]
  simp only []
  rw [bytesLE_rawToAlphanum (length_lowDigits _ _ _) (below _ _), bytesLE_rawToAlphanum (length_lowDigits _ _ _) (below _ _),
    bytesLE_rawToAlphanum]
  · rw [seedChars_eq, seedChars_eq, ← lowDigits_append nAlphanum 8 4, ← lowDigits_append nAlphanum 4 8]
    simp only [List.map_append, List.append_assoc]
  · rw [List.length_append, length_lowDigits, length_lowDigits]
  · intro d hd
    rcases List.mem_append.mp hd with h | h
    · exact below _ _ d h
    · exact below _ _ d h

end AerospikeBenchmark
