import AerospikeBenchmark.Lemmas.ConstGen
import AerospikeBenchmark.Lemmas.Strings
import AerospikeBenchmark.ObjectSpec.Conform

/-!
# What the generator returns

For each generator: a value it returns conforms to its spec, whatever the source; and on a stream in which the words its rejection
loops accept come again, it returns. The first is about partial correctness and holds for every spec with counts that agree
(`BinSpec.Valid`); the second needs that the buffers of strings and byte arrays hold what is written to them.
-/

namespace AerospikeBenchmark

open CText Words Digits

variable {R : AsRandom} {cLen : Nat → Nat}

/-! ## Scalars -/

theorem genRandRange64_lt {max r : Nat} (hmax : 0 < max) {s s' : Source} (h : genRandRange64 max s = .ok (r, s')) : r < max := by
  obtain ⟨w, t, -, hw⟩ := bind_ok.mp h
  obtain ⟨rfl, -⟩ := pure_ok.mp hw
  exact Nat.mod_lt _ hmax

/-- Read as unsigned, a wrapped integer is the number that was wrapped. -/
theorem toInt64_emod {n : Nat} (h : n < 2 ^ 64) : toInt64 n % 2 ^ 64 = (n : Int) := by
  unfold toInt64
  split <;> omega

theorem rangeMin_eq {range : Nat} (h : range ≠ 0) : rangeMin range = 2 ^ (8 * range) := by
  obtain ⟨r, rfl⟩ := Nat.exists_eq_succ_of_ne_zero h
  have hpow : 2 ^ ((r + 1) * 8) = 2 ^ ((r + 1) * 8 - 1) * 2 := by
    rw [← pow_succ]
    congr 1
  unfold rangeMin
  rw [hpow, Nat.mul_div_cancel _ (by decide), ← hpow, Nat.mul_comm]

theorem rangeSize_pos (range : Nat) : 0 < rangeSize range := by
  have : 0 < 2 ^ (range * 8) := Nat.two_pow_pos _
  unfold rangeSize
  omega

/-- The values of an integer range fill it: the smallest value and the size add up to the end of the range. -/
theorem rangeMin_add_rangeSize (range : Nat) : rangeMin range + rangeSize range = 2 ^ (8 * range + 8) := by
  by_cases h : range = 0
  · subst h
    rfl
  · rw [rangeMin_eq h, rangeSize, if_neg h, Nat.mul_comm range, pow_add]
    omega

theorem genRandomInt_conforms {range : Nat} {s s' : Source} {v : AsVal} (h : genRandomInt range s = .ok (v, s')) :
    (Scalar.int range).Conforms v := by
  unfold genRandomInt at h
  split at h
  · exact (stop_ok.mp h).elim
  · rename_i hle
    obtain ⟨r, t, hr, hv⟩ := bind_ok.mp h
    obtain ⟨rfl, -⟩ := pure_ok.mp hv
    have hlt := genRandRange64_lt (rangeSize_pos range) hr
    have hend := rangeMin_add_rangeSize range
    have hpow : 2 ^ (8 * range + 8) ≤ 2 ^ 64 := Nat.pow_le_pow_right (by decide) (by omega)
    have hfit : r + rangeMin range < 2 ^ 64 := by omega
    have hmin : (if range = 0 then 0 else 2 ^ (8 * range)) ≤ rangeMin range := by
      split
      · exact Nat.zero_le _
      · exact (rangeMin_eq ‹_›).ge
    refine ⟨_, rfl, ?_⟩
    rw [Nat.mod_eq_of_lt hfit, toInt64_emod hfit]
    constructor
    · exact_mod_cast hmin.trans (Nat.le_add_left _ _)
    · have hup : r + rangeMin range + 1 ≤ 2 ^ (8 * range + 8) := by omega
      have hup' : ((r + rangeMin range : Nat) : Int) + 1 ≤ 2 ^ (8 * range + 8) := by exact_mod_cast hup
      omega

theorem isAlphanum_alphanumChar {d : Nat} (h : d < nAlphanum) : IsAlphanum (alphanumChar d) := by
  revert h
  revert d
  decide

theorem isAlphanum_seedChars (sz s : Nat) : ∀ c ∈ seedChars sz s, IsAlphanum c := by
  intro c hc
  rw [seedChars_eq] at hc
  obtain ⟨d, hd, rfl⟩ := List.mem_map.mp hc
  exact isAlphanum_alphanumChar (lt_of_mem_lowDigits (by decide) hd)

@[simp] theorem length_seedChars (sz s : Nat) : (seedChars sz s).length = sz := by
  rw [seedChars_eq, List.length_map, length_lowDigits]

/-- The blocks written and what they leave add up to the length. -/
theorem strBlocks_spec (fuel left : Nat) : ∀ {s s' : Source} {r : Text × Nat}, strBlocks fuel left s = .ok (r, s') →
    r.1.length + r.2 = left ∧ ∀ c ∈ r.1, IsAlphanum c := by
  induction fuel generalizing left with
  | zero =>
    intro s s' r h
    obtain ⟨rfl, -⟩ := pure_ok.mp h
    simp
  | succ fuel ih =>
    intro s s' r h
    unfold strBlocks at h
    split at h
    · obtain ⟨s1, t1, -, h⟩ := bind_ok.mp h
      obtain ⟨s2, t2, -, h⟩ := bind_ok.mp h
      obtain ⟨rest, t3, hrest, h⟩ := bind_ok.mp h
      obtain ⟨rfl, -⟩ := pure_ok.mp h
      obtain ⟨hlen, hall⟩ := ih _ hrest
      simp only [block_eq]
      constructor
      · simp only [List.length_append, length_seedChars]
        omega
      · intro c hc
        rcases List.mem_append.mp hc with hc | hc
        · rcases List.mem_append.mp hc with hc | hc
          · exact isAlphanum_seedChars _ _ c hc
          · exact isAlphanum_seedChars _ _ c hc
        · exact hall c hc
    · obtain ⟨rfl, -⟩ := pure_ok.mp h
      simp

theorem strTail_spec (fuel left : Nat) (hfuel : left ≤ fuel) : ∀ {s s' : Source} {t : Text}, strTail fuel left s = .ok (t, s') →
    t.length = left ∧ ∀ c ∈ t, IsAlphanum c := by
  induction fuel generalizing left with
  | zero =>
    intro s s' t h
    obtain ⟨rfl, -⟩ := pure_ok.mp h
    simp only [List.length_nil, List.not_mem_nil, false_implies, implies_true, and_true]
    omega
  | succ fuel ih =>
    intro s s' t h
    unfold strTail at h
    split at h
    · obtain ⟨rfl, -⟩ := pure_ok.mp h
      simp only [List.length_nil, List.not_mem_nil, false_implies, implies_true, and_true]
      omega
    · obtain ⟨w, t1, -, h⟩ := bind_ok.mp h
      obtain ⟨rest, t2, hrest, h⟩ := bind_ok.mp h
      obtain ⟨rfl, -⟩ := pure_ok.mp h
      obtain ⟨hlen, hall⟩ := ih _ (by omega) hrest
      constructor
      · simp only [List.length_append, length_seedChars]
        omega
      · intro c hc
        rcases List.mem_append.mp hc with hc | hc
        · exact isAlphanum_seedChars _ _ c hc
        · exact hall c hc

theorem genRandomStr_conforms {length : Nat} {s s' : Source} {v : AsVal} (h : genRandomStr length s = .ok (v, s')) :
    (Scalar.str length).Conforms v := by
  unfold genRandomStr at h
  split at h
  · exact (stop_ok.mp h).elim
  · obtain ⟨b, t1, hb, h⟩ := bind_ok.mp h
    obtain ⟨t, t2, ht, h⟩ := bind_ok.mp h
    obtain ⟨rfl, -⟩ := pure_ok.mp h
    obtain ⟨hblen, hball⟩ := strBlocks_spec _ _ hb
    obtain ⟨htlen, htall⟩ := strTail_spec _ _ le_rfl ht
    refine ⟨_, rfl, ?_, ?_⟩
    · rw [List.length_append, htlen, hblen]
    · intro c hc
      rcases List.mem_append.mp hc with hc | hc
      · exact hball c hc
      · exact htall c hc

theorem genRandomBytes_conforms {length : Nat} {s s' : Source} {v : AsVal}
    (h : genRandomBytes R cLen length s = .ok (v, s')) : (Scalar.bytes length).Conforms v := by
  unfold genRandomBytes at h
  split at h
  · exact (stop_ok.mp h).elim
  · rename_i hfit
    obtain ⟨ws, t, hws, h⟩ := bind_ok.mp h
    obtain ⟨rfl, -⟩ := pure_ok.mp h
    refine ⟨_, rfl, ?_⟩
    rw [List.length_append, List.length_replicate, R.length_bytes _ _ (length_nextWords hws)]
    omega

/-- A scalar the generator returns conforms to its type. -/
theorem genScalar_conforms {c : Scalar} {s s' : Source} {v : AsVal} (h : genScalar R cLen c s = .ok (v, s')) : c.Conforms v := by
  cases c with
  | bool =>
    obtain ⟨w, t, -, h⟩ := bind_ok.mp h
    obtain ⟨rfl, -⟩ := pure_ok.mp h
    exact ⟨_, rfl⟩
  | int range => exact genRandomInt_conforms h
  | str length => exact genRandomStr_conforms h
  | bytes length => exact genRandomBytes_conforms h
  | double =>
    obtain ⟨w, t, -, h⟩ := bind_ok.mp h
    obtain ⟨rfl, -⟩ := pure_ok.mp h
    exact ⟨_, rfl⟩
  | constBool b => exact (pure_ok.mp h).1.symm
  | constInt i => exact (pure_ok.mp h).1.symm
  | constStr t => exact (pure_ok.mp h).1.symm
  | constDouble d => exact (pure_ok.mp h).1.symm

/-! ## Maps -/

/-- A key the retry loop returns is one the key's generator returned, and is not in the map. -/
theorem freshKey_spec {genKey : Gen AsVal} {P : AsVal → Prop} (hk : ∀ s v s', genKey s = .ok (v, s') → P v) {m : AsMap}
    (left : Nat) : ∀ {s s' : Source} {key : AsVal} {left' : Nat}, freshKey genKey m left s = .ok ((some key, left'), s') →
      m.get key = none ∧ P key := by
  induction left with
  | zero =>
    intro s s' key left' h
    exact absurd (pure_ok.mp h).1 (by simp)
  | succ left ih =>
    intro s s' key left' h
    obtain ⟨k, t, hgen, h⟩ := bind_ok.mp h
    cases hget : m.get k with
    | none =>
      rw [hget] at h
      obtain ⟨heq, -⟩ := pure_ok.mp h
      simp only [Prod.mk.injEq, Option.some.injEq] at heq
      rw [← heq.1]
      exact ⟨hget, hk _ _ _ hgen⟩
    | some v =>
      rw [hget] at h
      exact ih h

theorem nodup_append_entry {m : AsMap} {k v : AsVal} (hm : (m.map Prod.fst).Nodup) (hk : m.get k = none) :
    ((m ++ [(k, v)]).map Prod.fst).Nodup := by
  rw [List.map_append, List.nodup_append]
  refine ⟨hm, by simp, ?_⟩
  intro a ha b hb
  obtain ⟨p, hp, rfl⟩ := List.mem_map.mp ha
  simp only [List.map_cons, List.map_nil, List.mem_singleton] at hb
  rw [hb]
  exact AsMap.get_eq_none_iff.mp hk p hp

/-- The entries of one pair: at most as many as its key is repeated, with keys that are new. -/
theorem pairEntries_spec {genKey genVal : Gen AsVal} {P Q : AsVal → Prop} (hk : ∀ s v s', genKey s = .ok (v, s') → P v)
    (hv : ∀ s v s', genVal s = .ok (v, s') → Q v) (n : Nat) : ∀ {left : Nat} {m m' : AsMap} {s s' : Source},
      pairEntries genKey genVal n left m s = .ok (m', s') → (m.map Prod.fst).Nodup →
      ∃ d, m' = m ++ d ∧ (m'.map Prod.fst).Nodup ∧ d.length ≤ n ∧ ∀ p ∈ d, P p.1 ∧ Q p.2 := by
  induction n with
  | zero =>
    intro left m m' s s' h hm
    obtain ⟨rfl, -⟩ := pure_ok.mp h
    exact ⟨[], by simp, hm, by simp, by simp⟩
  | succ n ih =>
    intro left m m' s s' h hm
    obtain ⟨⟨k, left'⟩, t, hfresh, h⟩ := bind_ok.mp h
    cases k with
    | none =>
      -- the retries are used up and the loop is left
      obtain ⟨rfl, -⟩ := pure_ok.mp h
      exact ⟨[], by simp, hm, by simp, by simp⟩
    | some key =>
      obtain ⟨hget, hP⟩ := freshKey_spec hk left hfresh
      obtain ⟨val, t', hval, h⟩ := bind_ok.mp h
      rw [AsMap.set_of_get_none hget] at h
      obtain ⟨d, rfl, hnd, hlen, hall⟩ := ih h (nodup_append_entry hm hget)
      refine ⟨(key, val) :: d, by simp, hnd, by simpa using hlen, ?_⟩
      intro p hp
      rcases List.mem_cons.mp hp with rfl | hp
      · exact ⟨hP, hv _ _ _ hval⟩
      · exact hall p hp

/-! ## All specs -/

/-- Positions of a list of `n` values followed by others. -/
theorem conformsAt_append {e : BinSpec} {es : List BinSpec} {vs rest : List AsVal} (hlen : vs.length = e.nRepeats)
    (hvs : ∀ a ∈ vs, e.Conforms a) (hrest : ∀ i a, rest[i]? = some a → ConformsAt es i a) :
    ∀ i a, (vs ++ rest)[i]? = some a → ConformsAt (e :: es) i a := by
  intro i a ha
  simp only [ConformsAt]
  split
  · rename_i hi
    rw [List.getElem?_append_left (by omega)] at ha
    exact hvs a (List.mem_of_getElem? ha)
  · rename_i hi
    rw [List.getElem?_append_right (by omega), hlen] at ha
    exact hrest _ a ha

mutual

/-- A value the generator returns conforms to its spec. -/
theorem gen_conforms : ∀ {b : BinSpec}, b.Valid → ∀ {s s' : Source} {v : AsVal},
    binSpecRandomVal R cLen b s = .ok (v, s') → b.Conforms v
  | .scalar _ _, _, s, s', v, h => by
    rw [binSpecRandomVal] at h
    exact genScalar_conforms h
  | .list _ length es, hb, s, s', v, h => by
    obtain ⟨hlen, hlt, hes⟩ := hb
    rw [binSpecRandomVal] at h
    obtain ⟨l, hl, rfl⟩ := map_ok.mp h
    obtain ⟨htot, hat⟩ := genList_conforms hes ((Nat.zero_add _).trans hlen.symm) hlt hl
    exact ⟨l, rfl, by omega, hat⟩
  | .constList _ _, _, s, s', v, h => by
    rw [binSpecRandomVal] at h
    exact (pure_ok.mp h).1.symm
  | .map _ nEntries length kvs, hb, s, s', v, h => by
    obtain ⟨hn, hlen, hkvs⟩ := hb
    rw [binSpecRandomVal] at h
    obtain ⟨m, hm, rfl⟩ := map_ok.mp h
    subst hn
    obtain ⟨d, rfl, hnd, hd, hpairs⟩ := genMap_conforms hkvs hm (by simp)
    exact ⟨_, rfl, hnd, by simpa [hlen] using hd, by simpa using hpairs⟩
  | .constMap _ _, _, s, s', v, h => by
    rw [binSpecRandomVal] at h
    exact (pure_ok.mp h).1.symm

/-- The list loop from a count on returns one value for each repetition that is left, in the order of the elements. -/
theorem genList_conforms : ∀ {es : List BinSpec}, ValidList es → ∀ {length cnt : Nat}, cnt + totalRepeats es = length →
    length < 2 ^ 32 → ∀ {s s' : Source} {l : List AsVal}, genRandomList R cLen es length cnt s = .ok (l, s') →
      l.length = totalRepeats es ∧ ∀ i a, l[i]? = some a → ConformsAt es i a
  | [], _, length, cnt, hcnt, _, s, s', l, h => by
    simp only [totalRepeats_nil, Nat.add_zero] at hcnt
    rw [genRandomList, if_neg (by omega)] at h
    obtain ⟨rfl, -⟩ := pure_ok.mp h
    exact ⟨by simp, by simp⟩
  | e :: es, ⟨hpos, he, hes⟩, length, cnt, hcnt, hlt, s, s', l, h => by
    simp only [totalRepeats_cons] at hcnt ⊢
    rw [genRandomList, if_pos (by omega)] at h
    obtain ⟨vs, t, hvs, h⟩ := bind_ok.mp h
    obtain ⟨rest, t', hrest, h⟩ := bind_ok.mp h
    obtain ⟨rfl, -⟩ := pure_ok.mp h
    obtain ⟨hvlen, hvall⟩ := repeatGen_spec (fun s a s' ha => gen_conforms he ha) _ _ _ _ hvs
    rw [Nat.mod_eq_of_lt (by omega)] at hrest
    obtain ⟨hrlen, hrall⟩ := genList_conforms hes (by omega) hlt hrest
    exact ⟨by rw [List.length_append, hvlen, hrlen], conformsAt_append hvlen hvall hrall⟩

/-- The map loop appends entries that can be dealt out to its pairs. -/
theorem genMap_conforms : ∀ {kvs : List (BinSpec × BinSpec)}, ValidPairs kvs → ∀ {m m' : AsMap} {s s' : Source},
    genRandomMap R cLen kvs kvs.length m s = .ok (m', s') → (m.map Prod.fst).Nodup →
      ∃ d, m' = m ++ d ∧ (m'.map Prod.fst).Nodup ∧ d.length ≤ totalKeyRepeats kvs ∧ ConformsPairs kvs d
  | [], _, m, m', s, s', h, hm => by
    rw [List.length_nil, genRandomMap] at h
    obtain ⟨rfl, -⟩ := pure_ok.mp h
    exact ⟨[], by simp, hm, by simp, by simp [ConformsPairs]⟩
  | (k, v) :: kvs, ⟨hk, hv, hkvs⟩, m, m', s, s', h, hm => by
    rw [List.length_cons, genRandomMap] at h
    obtain ⟨m₁, t, hpair, h⟩ := bind_ok.mp h
    obtain ⟨d₁, rfl, hnd₁, hlen₁, hall₁⟩ :=
      pairEntries_spec (fun s a s' ha => gen_conforms hk ha) (fun s a s' ha => gen_conforms hv ha) _ hpair hm
    obtain ⟨d₂, rfl, hnd₂, hlen₂, hall₂⟩ := genMap_conforms hkvs h hnd₁
    refine ⟨d₁ ++ d₂, by simp, hnd₂, ?_, d₁, d₂, List.Perm.refl _, hlen₁, hall₁, hall₂⟩
    rw [List.length_append, totalKeyRepeats_cons]
    exact Nat.add_le_add hlen₁ hlen₂

end

/-! ## Streams on which the generator returns -/

/-- Words that the rejection loop for numbers below `max` accepts come again and again. -/
def Recurs (ω : Nat → Nat) (max : Nat) : Prop := ∀ i, ∃ j, i ≤ j ∧ (2 ^ 64 - max) % 2 ^ 64 % max ≤ ω j

/-- The stream has the words the rejection loop of a scalar waits for. -/
def Scalar.Served (ω : Nat → Nat) : Scalar → Prop
  | .int range => Recurs ω (rangeSize range)
  | .str length => 0 < length → Recurs ω maxSeed
  | _ => True

/-- The buffer of a string or a byte array holds what is written to it. -/
def Scalar.BufferFits (cLen : Nat → Nat) : Scalar → Prop
  | .str length => length + 1 < 2 ^ 32
  | .bytes length => cLen length ≤ length
  | _ => True

variable {ω : Nat → Nat}

theorem finishes_genRandRange64 {max : Nat} (h : Recurs ω max) (i : Nat) : Finishes (genRandRange64 max) ω i := by
  obtain ⟨j, hij, hj⟩ := h i
  obtain ⟨d, rfl⟩ := Nat.exists_eq_add_of_le hij
  exact (returnsFirst_genRandRange64 max).finishes ⟨d, isSome_reduceFrom.mpr hj⟩

theorem finishes_strBlocks (h : Recurs ω maxSeed) (fuel left i : Nat) : Finishes (strBlocks fuel left) ω i := by
  induction fuel generalizing left i with
  | zero => exact finishes_pure _ i
  | succ fuel ih =>
    unfold strBlocks
    split
    · exact (finishes_genRandRange64 h i).bind fun s1 j => (finishes_genRandRange64 h j).bind fun s2 k =>
        (ih (left - 24) k).bind fun rest l => finishes_pure _ l
    · exact finishes_pure _ i

theorem finishes_strTail (h : Recurs ω maxSeed) (fuel left i : Nat) : Finishes (strTail fuel left) ω i := by
  induction fuel generalizing left i with
  | zero => exact finishes_pure _ i
  | succ fuel ih =>
    unfold strTail
    split
    · exact finishes_pure _ i
    · exact (finishes_genRandRange64 h i).bind fun s j => (ih _ j).bind fun rest k => finishes_pure _ k

theorem finishes_genRandomStr {length : Nat} (hfit : length + 1 < 2 ^ 32) (h : 0 < length → Recurs ω maxSeed) (i : Nat) :
    Finishes (genRandomStr length) ω i := by
  unfold genRandomStr
  rw [if_neg (by rw [Nat.mod_eq_of_lt hfit]; omega)]
  rcases Nat.eq_zero_or_pos length with rfl | hpos
  · exact finishes_pure (AsVal.str []) i
  · exact (finishes_strBlocks (h hpos) length length i).bind fun b j => (finishes_strTail (h hpos) b.2 b.2 j).bind fun t k =>
      finishes_pure _ k

theorem finishes_genScalar {c : Scalar} (hr : c.InRange) (hfit : c.BufferFits cLen) (h : c.Served ω) (i : Nat) :
    Finishes (genScalar R cLen c) ω i := by
  cases c with
  | bool => exact (finishes_nextWord ω i).bind fun w j => finishes_pure _ j
  | int range =>
    simp only [genScalar, genRandomInt]
    rw [if_neg (Nat.not_lt.mpr hr)]
    exact (finishes_genRandRange64 h i).bind fun r j => finishes_pure _ j
  | str length => exact finishes_genRandomStr hfit h i
  | bytes length =>
    simp only [genScalar, genRandomBytes]
    rw [if_neg (Nat.not_lt.mpr hfit)]
    exact (finishes_nextWords ω _ i).bind fun ws j => finishes_pure _ j
  | double => exact (finishes_nextWord ω i).bind fun w j => finishes_pure _ j
  | constBool b => exact finishes_pure _ i
  | constInt v => exact finishes_pure _ i
  | constStr s => exact finishes_pure _ i
  | constDouble d => exact finishes_pure _ i

theorem finishes_freshKey {genKey : Gen AsVal} (hk : ∀ i, Finishes genKey ω i) (m : AsMap) (left i : Nat) :
    Finishes (freshKey genKey m left) ω i := by
  induction left generalizing i with
  | zero => exact finishes_pure _ i
  | succ left ih =>
    refine (hk i).bind fun key j => ?_
    split
    · exact finishes_pure _ j
    · exact ih j

theorem finishes_pairEntries {genKey genVal : Gen AsVal} (hk : ∀ i, Finishes genKey ω i) (hv : ∀ i, Finishes genVal ω i)
    (n left : Nat) (m : AsMap) (i : Nat) : Finishes (pairEntries genKey genVal n left m) ω i := by
  induction n generalizing left m i with
  | zero => exact finishes_pure _ i
  | succ n ih =>
    refine (finishes_freshKey hk m left i).bind fun k j => ?_
    split
    · exact finishes_pure _ j
    · exact (hv j).bind fun val l => ih _ _ l

mutual

/-- The generator returns when the generators of all scalars of the spec do. -/
theorem finishes_gen : ∀ {b : BinSpec}, b.Valid → (∀ c ∈ b.scalars, ∀ i, Finishes (genScalar R cLen c) ω i) → ∀ i,
    Finishes (binSpecRandomVal R cLen b) ω i
  | .scalar _ c, _, hc, i => by
    rw [binSpecRandomVal]
    exact hc c (List.mem_singleton.mpr rfl) i
  | .list _ length es, ⟨hlen, hlt, hes⟩, hc, i => by
    rw [binSpecRandomVal]
    exact (finishes_genList hes hc ((Nat.zero_add _).trans hlen.symm) hlt i).map _
  | .constList _ _, _, _, i => by
    rw [binSpecRandomVal]
    exact finishes_pure _ i
  | .map _ nEntries _ kvs, ⟨hn, _, hkvs⟩, hc, i => by
    rw [binSpecRandomVal, hn]
    exact (finishes_genMap hkvs hc [] i).map _
  | .constMap _ _, _, _, i => by
    rw [binSpecRandomVal]
    exact finishes_pure _ i

theorem finishes_genList : ∀ {es : List BinSpec}, ValidList es → (∀ c ∈ scalarsList es, ∀ i, Finishes (genScalar R cLen c) ω i) →
    ∀ {length cnt : Nat}, cnt + totalRepeats es = length → length < 2 ^ 32 → ∀ i,
      Finishes (genRandomList R cLen es length cnt) ω i
  | [], _, _, length, cnt, hcnt, _, i => by
    simp only [totalRepeats_nil, Nat.add_zero] at hcnt
    rw [genRandomList, if_neg (by omega)]
    exact finishes_pure _ i
  | e :: es, ⟨hpos, he, hes⟩, hc, length, cnt, hcnt, hlt, i => by
    simp only [totalRepeats_cons] at hcnt
    rw [genRandomList, if_pos (by omega), Nat.mod_eq_of_lt (by omega)]
    have hhead := finishes_gen he fun c hm => hc c (List.mem_append_left _ hm)
    have htail := fun j => finishes_genList hes (fun c hm => hc c (List.mem_append_right _ hm))
      (Nat.add_assoc _ _ _ ▸ hcnt) hlt j
    exact (finishes_repeatGen hhead _ i).bind fun vs j => (htail j).bind fun rest k => finishes_pure _ k

theorem finishes_genMap : ∀ {kvs : List (BinSpec × BinSpec)}, ValidPairs kvs →
    (∀ c ∈ scalarsPairs kvs, ∀ i, Finishes (genScalar R cLen c) ω i) → ∀ (m : AsMap) (i : Nat),
      Finishes (genRandomMap R cLen kvs kvs.length m) ω i
  | [], _, _, m, i => by
    rw [List.length_nil, genRandomMap]
    exact finishes_pure _ i
  | (k, v) :: kvs, ⟨hk, hv, hkvs⟩, hc, m, i => by
    rw [List.length_cons, genRandomMap]
    have hkey := finishes_gen hk fun c hm => hc c (List.mem_append_left _ hm)
    have hval := finishes_gen hv fun c hm => hc c (List.mem_append_right _ (List.mem_append_left _ hm))
    refine (finishes_pairEntries hkey hval _ _ m i).bind fun m' j => ?_
    exact finishes_genMap hkvs (fun c hm => hc c (List.mem_append_right _ (List.mem_append_right _ hm))) m' j

end

end AerospikeBenchmark
