import AerospikeBenchmark.Latency.HdrLog
import AerospikeBenchmark.Lemmas.HdrEncoding
import AerospikeBenchmark.Lemmas.HdrRecording

/-!
# What the HDR log keeps of a histogram

Each part of the format read back: the counts with their runs of zeros, the header, the counters that are computed from the counts,
and the fields of a line.
-/

namespace AerospikeBenchmark

open CText

/-! ## The counts -/

theorem toInt_ofNat {n : Nat} (h : n < 2 ^ 63) : (BitVec.ofNat 64 n).toInt = n := by
  have hnat : (BitVec.ofNat 64 n).toNat = n := by
    rw [BitVec.toNat_ofNat, Nat.mod_eq_of_lt (by omega)]
  rw [BitVec.toInt_eq_toNat_of_lt (by rw [hnat]; omega), hnat]

theorem toInt_neg_ofNat {n : Nat} (h : n < 2 ^ 63) : (-(BitVec.ofNat 64 n)).toInt = -n := by
  rw [BitVec.toInt_neg, toInt_ofNat h]
  exact Int.bmod_eq_of_le (by omega) (by omega)

section

variable {countsLen dataLimit : Nat} {fuel dataIndex countsIndex : Nat} {counts : List Nat} (rest : List UInt8)
  (hdata : dataIndex < dataLimit)

include hdata

/-- A run of zeros is skipped. -/
theorem applyToCountsLoop_zeros {zeros : Nat} (hpos : 0 < zeros) (hsmall : zeros < 2 ^ 31) (hin : countsIndex + zeros ≤ countsLen) :
    applyToCountsLoop countsLen dataLimit (fuel + 1) (encodeZeros zeros ++ rest) dataIndex countsIndex counts =
      applyToCountsLoop countsLen dataLimit fuel rest (dataIndex + (encodeZeros zeros).length) (countsIndex + zeros) counts := by
  have hint := toInt_neg_ofNat (n := zeros) (by omega)
  rw [encodeZeros, if_neg hpos.ne', applyToCountsLoop, if_pos ⟨by exact_mod_cast hdata, by omega⟩, zigZagDecodeI64_encode]
  simp only [hint]
  rw [if_pos (by omega), if_neg (by omega), List.drop_left, Int.neg_neg, Int.toNat_natCast]

/-- A count is stored. -/
theorem applyToCountsLoop_count {count : Nat} (hcount : count < 2 ^ 63) (hin : countsIndex < countsLen) :
    applyToCountsLoop countsLen dataLimit (fuel + 1) (zigZagEncodeI64 (BitVec.ofNat 64 count) ++ rest) dataIndex countsIndex counts =
      applyToCountsLoop countsLen dataLimit fuel rest (dataIndex + (zigZagEncodeI64 (BitVec.ofNat 64 count)).length) (countsIndex + 1)
        (counts.set countsIndex count) := by
  have hint := toInt_ofNat hcount
  have hnat : (BitVec.ofNat 64 count).toNat = count := by
    rw [BitVec.toNat_ofNat, Nat.mod_eq_of_lt (by omega)]
  rw [applyToCountsLoop, if_pos ⟨by exact_mod_cast hdata, hin⟩, zigZagDecodeI64_encode]
  simp only [hint]
  rw [if_neg (by omega), List.drop_left, hnat]

end

theorem length_encodeZeros {zeros : Nat} (h : 0 < zeros) : 1 ≤ (encodeZeros zeros).length := by
  rw [encodeZeros, if_neg h.ne']
  exact (length_zigZagEncodeI64 _).1

theorem set_replicate (pre : List Nat) (n count : Nat) :
    (pre ++ List.replicate (n + 1) 0).set pre.length count = (pre ++ [count]) ++ List.replicate n 0 := by
  rw [List.set_append_right _ _ le_rfl, Nat.sub_self, List.replicate_succ, List.set_cons_zero, List.append_assoc]
  rfl

/-- The loop stores the counts it was written for, behind the ones it has stored, and leaves the ones behind them zero. -/
theorem applyToCountsLoop_encode {countsLen : Nat} (hsmall : countsLen < 2 ^ 31) (rest : List UInt8) (counts : List Nat)
    (hcounts : ∀ c ∈ counts, c < 2 ^ 63) (zeros dataIndex dataLimit fuel tail : Nat) (pre : List Nat)
    (hlen : pre.length + zeros + counts.length + tail = countsLen)
    (hlimit : dataIndex + (encodeCounts zeros counts).length = dataLimit) (hfuel : (encodeCounts zeros counts).length < fuel) :
    applyToCountsLoop countsLen dataLimit fuel (encodeCounts zeros counts ++ rest) dataIndex pre.length
        (pre ++ List.replicate (zeros + counts.length + tail) 0) =
      .ok (dataLimit, pre ++ (List.replicate zeros 0 ++ (counts ++ List.replicate tail 0))) := by
  have hstop : ∀ fuel data idx cs, applyToCountsLoop countsLen dataLimit (fuel + 1) data dataLimit idx cs = .ok (dataLimit, cs) := by
    intro fuel data idx cs
    rw [applyToCountsLoop, if_neg]
    rintro ⟨hlt, -⟩
    exact absurd hlt (lt_irrefl _)
  induction counts generalizing zeros dataIndex fuel pre with
  | nil =>
    rw [encodeCounts] at hlimit hfuel ⊢
    obtain ⟨fuel, rfl⟩ := Nat.exists_eq_succ_of_ne_zero (by omega : fuel ≠ 0)
    rcases Nat.eq_zero_or_pos zeros with rfl | hpos
    · obtain rfl : dataIndex = dataLimit := by
        simpa [encodeZeros] using hlimit
      rw [hstop]
      simp
    · have hbytes := length_encodeZeros hpos
      obtain ⟨fuel, rfl⟩ := Nat.exists_eq_succ_of_ne_zero (by omega : fuel ≠ 0)
      rw [applyToCountsLoop_zeros rest (by omega) hpos (by omega) (by omega), hlimit, hstop, List.length_nil, Nat.add_zero,
        List.replicate_add]
      rfl
  | cons count counts ih =>
    have hcount := hcounts count List.mem_cons_self
    have hrest : ∀ c ∈ counts, c < 2 ^ 63 := fun c hc => hcounts c (List.mem_cons_of_mem _ hc)
    rw [List.length_cons] at hlen
    rw [encodeCounts] at hlimit hfuel ⊢
    split at hlimit
    · next hzero =>
      -- one more zero in the run
      rw [if_pos hzero] at hfuel ⊢
      have hnext := ih hrest (zeros + 1) dataIndex fuel pre (by omega) hlimit hfuel
      rw [List.length_cons, show zeros + (counts.length + 1) + tail = zeros + 1 + counts.length + tail by omega, hnext, hzero,
        List.replicate_succ', List.append_assoc]
      rfl
    · next hpos =>
      rw [if_neg hpos] at hfuel ⊢
      rw [List.length_append, List.length_append] at hlimit hfuel
      have hbytes := (length_zigZagEncodeI64 (BitVec.ofNat 64 count)).1
      -- the count itself, after the run of zeros
      have hstep : ∀ (fuel dataIndex : Nat) (pre : List Nat), pre.length + (counts.length + 1) + tail = countsLen →
          dataIndex + ((zigZagEncodeI64 (BitVec.ofNat 64 count)).length + (encodeCounts 0 counts).length) = dataLimit →
          (zigZagEncodeI64 (BitVec.ofNat 64 count)).length + (encodeCounts 0 counts).length < fuel →
          applyToCountsLoop countsLen dataLimit fuel
              (zigZagEncodeI64 (BitVec.ofNat 64 count) ++ encodeCounts 0 counts ++ rest) dataIndex pre.length
              (pre ++ List.replicate (counts.length + 1 + tail) 0) =
            .ok (dataLimit, pre ++ (count :: counts ++ List.replicate tail 0)) := by
        intro fuel dataIndex pre hlen hlimit hfuel
        obtain ⟨fuel, rfl⟩ := Nat.exists_eq_succ_of_ne_zero (by omega : fuel ≠ 0)
        rw [List.append_assoc, applyToCountsLoop_count _ (by omega) hcount (by omega),
          show counts.length + 1 + tail = counts.length + tail + 1 by omega, set_replicate,
          show pre.length + 1 = (pre ++ [count]).length by simp]
        have hnext := ih hrest 0 (dataIndex + (zigZagEncodeI64 (BitVec.ofNat 64 count)).length) fuel (pre ++ [count])
          (by rw [List.length_append, List.length_singleton]; omega) (by omega) (by omega)
        rw [Nat.zero_add] at hnext
        rw [hnext]
        simp
      rcases Nat.eq_zero_or_pos zeros with rfl | hzeros
      · have := hstep fuel dataIndex pre (by omega) (by simpa [encodeZeros] using hlimit) (by simpa [encodeZeros] using hfuel)
        simpa [encodeZeros] using this
      · obtain ⟨fuel, rfl⟩ := Nat.exists_eq_succ_of_ne_zero (by omega : fuel ≠ 0)
        have hlead := length_encodeZeros hzeros
        have hcounted := hstep fuel (dataIndex + (encodeZeros zeros).length) (pre ++ List.replicate zeros 0)
          (by rw [List.length_append, List.length_replicate]; omega) (by omega) (by omega)
        rw [List.append_assoc, applyToCountsLoop_zeros _ (by omega) hzeros (by omega) (by omega), List.length_cons, Nat.add_assoc,
          List.replicate_add, ← List.append_assoc,
          show pre.length + zeros = (pre ++ List.replicate zeros 0).length by simp]
        rw [hcounted]
        simp

/-! ## The header -/

section

variable {w n off : Nat} (rest : List UInt8)

/-- The bytes behind a field. -/
theorem drop_field (h : w ≤ off) : (BigEndian.toBytes w n ++ rest).drop off = rest.drop (off - w) := by
  rw [List.drop_append, List.drop_of_length_le (by rw [BigEndian.length_toBytes]; exact h), BigEndian.length_toBytes, List.nil_append]

theorem ofBytes_front (hn : n < 256 ^ w) : BigEndian.ofBytes ((BigEndian.toBytes w n ++ rest).take w) = n := by
  rw [List.take_left' (BigEndian.length_toBytes w n), BigEndian.ofBytes_toBytes hn]

theorem bmod_ofBytes_front (hn : n < 2 ^ (8 * w - 1)) (hw : 0 < w) :
    Int.bmod (BigEndian.ofBytes ((BigEndian.toBytes w n ++ rest).take w)) (256 ^ w) = n := by
  have hpow : 256 ^ w = 2 ^ (8 * w - 1) * 2 := by
    rw [← Nat.pow_succ, show (256 : Nat) = 2 ^ 8 from rfl, ← Nat.pow_mul]
    congr 1
    omega
  rw [ofBytes_front rest (by omega), hpow]
  generalize 2 ^ (8 * w - 1) = half at hn
  exact Int.bmod_eq_of_le (by omega) (by omega)

end

theorem length_encodingHeader (h : HdrFull) (n : Nat) : (encodingHeader h n).length = 40 := by simp [encodingHeader]

/-- The fields of the header, where the decoder looks for them. -/
structure HeaderFields (h : HdrFull) (payload encoded : List UInt8) : Prop where
  cookie : getCookieBase (BigEndian.ofBytes (encoded.take 4)) = v2EncodingCookie
  payloadLen : readSigned 4 encoded 4 = payload.length
  offset : BigEndian.ofBytes ((encoded.drop 8).take 4) = h.normalizingIndexOffset
  figures : readSigned 4 encoded 12 = h.significantFigures
  lowest : readSigned 8 encoded 16 = h.lowestTrackableValue
  highest : readSigned 8 encoded 24 = h.highestTrackableValue
  ratio : BigEndian.ofBytes ((encoded.drop 32).take 8) = h.conversionRatio
  payload : encoded.drop 40 = payload

theorem encodingHeader_fields {h : HdrFull} {payload : List UInt8} (hpayload : payload.length < 2 ^ 31)
    (hoffset : h.normalizingIndexOffset < 2 ^ 32) (hfigures : h.significantFigures < 2 ^ 31) (hlow : h.lowestTrackableValue < 2 ^ 63)
    (hhigh : h.highestTrackableValue < 2 ^ 63) (hratio : h.conversionRatio < 2 ^ 64) :
    HeaderFields h payload (encodingHeader h payload.length ++ payload) := by
  have hcookie : getCookieBase (v2EncodingCookie ||| 0x10) = v2EncodingCookie := by decide
  unfold encodingHeader
  simp only [List.append_assoc]
  refine ⟨?_, ?_, ?_, ?_, ?_, ?_, ?_, ?_⟩
  · rw [ofBytes_front _ (by decide), hcookie]
  · rw [readSigned, drop_field _ (by decide)]
    exact bmod_ofBytes_front _ hpayload (by decide)
  · rw [drop_field _ (by decide), drop_field _ (by decide)]
    exact ofBytes_front _ hoffset
  · rw [readSigned, drop_field _ (by decide), drop_field _ (by decide), drop_field _ (by decide)]
    exact bmod_ofBytes_front _ hfigures (by decide)
  · rw [readSigned, drop_field _ (by decide), drop_field _ (by decide), drop_field _ (by decide), drop_field _ (by decide)]
    exact bmod_ofBytes_front _ hlow (by decide)
  · rw [readSigned, drop_field _ (by decide), drop_field _ (by decide), drop_field _ (by decide), drop_field _ (by decide),
      drop_field _ (by decide)]
    exact bmod_ofBytes_front _ hhigh (by decide)
  · rw [drop_field _ (by decide), drop_field _ (by decide), drop_field _ (by decide), drop_field _ (by decide),
      drop_field _ (by decide), drop_field _ (by decide)]
    exact ofBytes_front _ hratio
  · rw [drop_field _ (by decide), drop_field _ (by decide), drop_field _ (by decide), drop_field _ (by decide),
      drop_field _ (by decide), drop_field _ (by decide), drop_field _ (by decide)]
    rfl

/-! ## Counters from counts -/

/-- What the loop over the counts has found before index `i`. -/
structure Observed (f : Nat → Nat) (i : Nat) (o : ObservedCounts) : Prop where
  total : o.totalCount = ((List.range i).map f).sum
  max_none : o.maxIndex = none → ∀ j < i, f j = 0
  max_some : ∀ k, o.maxIndex = some k → k < i ∧ 0 < f k ∧ ∀ j < i, k < j → f j = 0
  min_none : o.minNonZeroIndex = none → ∀ j < i, j ≠ 0 → f j = 0
  min_some : ∀ k, o.minNonZeroIndex = some k → k < i ∧ k ≠ 0 ∧ 0 < f k ∧ ∀ j < k, j ≠ 0 → f j = 0

theorem observeCounts_spec (f : Nat → Nat) (n a : Nat) (o : ObservedCounts) (ho : Observed f a o) :
    Observed f (a + n) (observeCounts ((List.range' a n).map f) a o) := by
  induction n generalizing a o with
  | zero => exact ho
  | succ n ih =>
    rw [List.range'_succ, List.map_cons, observeCounts, show a + (n + 1) = a + 1 + n by omega]
    refine ih (a + 1) _ ?_
    have hsum : ((List.range (a + 1)).map f).sum = ((List.range a).map f).sum + f a := by simp [List.range_succ]
    have hlast : ∀ j < a + 1, j < a ∨ j = a := fun j hj => Nat.lt_succ_iff_lt_or_eq.mp hj
    split
    · next hpos =>
      refine ⟨by rw [hsum, ← ho.total], (fun hnone => by cases hnone), ?_, ?_, ?_⟩
      · intro k hk
        obtain rfl : a = k := Option.some.inj hk
        exact ⟨by omega, hpos, fun j hj hlt => by omega⟩
      · dsimp only
        split
        · intro hnone
          cases hnone
        · next hnot =>
          intro hnone j hj hne
          rcases hlast j hj with hlt | rfl
          · exact ho.min_none hnone j hlt hne
          · exact absurd ⟨hnone, hne⟩ hnot
      · dsimp only
        intro k hk
        split at hk
        · next hfirst =>
          obtain rfl : a = k := Option.some.inj hk
          exact ⟨by omega, hfirst.2, hpos, ho.min_none hfirst.1⟩
        · obtain ⟨hlt, hne, hpos', hzero⟩ := ho.min_some k hk
          exact ⟨by omega, hne, hpos', hzero⟩
    · next hzero =>
      have hfa : f a = 0 := by omega
      refine ⟨by rw [hsum, hfa, Nat.add_zero, ← ho.total], ?_, ?_, ?_, ?_⟩
      · intro hnone j hj
        rcases hlast j hj with hlt | rfl
        · exact ho.max_none hnone j hlt
        · exact hfa
      · intro k hk
        obtain ⟨hlt, hpos, hafter⟩ := ho.max_some k hk
        refine ⟨by omega, hpos, ?_⟩
        intro j hj hkj
        rcases hlast j hj with hlt' | rfl
        · exact hafter j hlt' hkj
        · exact hfa
      · intro hnone j hj hne
        rcases hlast j hj with hlt | rfl
        · exact ho.min_none hnone j hlt hne
        · exact hfa
      · intro k hk
        obtain ⟨hlt, hne, hpos, hbefore⟩ := ho.min_some k hk
        exact ⟨by omega, hne, hpos, hbefore⟩

section

variable {h : HdrHistogram} {vs : List Nat}

/-- The indices at which the histogram has a count. -/
theorem HdrHistogram.Holds.countP_pos (i : Nat) : 0 < vs.countP (h.classOf · = i) ↔ ∃ v ∈ vs, h.classOf v = i := by
  rw [List.countP_pos_iff]
  simp only [decide_eq_true_eq]

theorem HdrHistogram.Holds.observed (hh : h.Holds vs) :
    Observed (fun i => vs.countP (h.classOf · = i)) h.countsLen (observeCounts h.counts 0 ⟨none, none, 0⟩) := by
  have hstart : Observed (fun i => vs.countP (h.classOf · = i)) 0 ⟨none, none, 0⟩ := by
    refine ⟨rfl, ?_, ?_, ?_, ?_⟩ <;> simp
  have hloop := observeCounts_spec _ h.countsLen 0 _ hstart
  rw [Nat.zero_add, ← List.range_eq_range', ← hh.counts] at hloop
  exact hloop

theorem sum_countP (h : HdrBucketConfig) (vs : List Nat) (n : Nat) :
    ((List.range n).map fun i => vs.countP (h.classOf · = i)).sum = countBelow h vs n := by
  induction n with
  | zero => rw [countBelow_zero, List.range_zero, List.map_nil, List.sum_nil]
  | succ n ih => rw [countBelow_succ, ← ih, List.range_succ, List.map_append, List.sum_append, List.map_singleton, List.sum_singleton]

/-- Counting again gives the number of values. -/
theorem HdrHistogram.Holds.reset_totalCount (hh : h.Holds vs) : (hdrResetInternalCounters h).totalCount = h.totalCount := by
  change (observeCounts h.counts 0 ⟨none, none, 0⟩).totalCount = _
  rw [hh.observed.total, sum_countP, countBelow_len hh, hh.totalCount]

theorem HdrHistogram.Holds.lt_two_pow (hh : h.Holds vs) {v : Nat} (hv : v ∈ vs) : v < 2 ^ 63 :=
  Nat.lt_of_lt_of_le ((hh.valid.classOf_lt v).mp (hh.inRange v hv)) (Nat.pow_le_pow_right (by decide) hh.valid.inRange)

theorem HdrHistogram.Holds.eq_nil (hh : h.Holds vs) (hzero : ∀ i < h.countsLen, vs.countP (h.classOf · = i) = 0) : vs = [] := by
  refine List.eq_nil_iff_forall_not_mem.mpr ?_
  intro v hv
  have hpos := (countP_pos (h := h) (h.classOf v)).mpr ⟨v, hv, rfl⟩
  have := hzero _ (hh.inRange v hv)
  omega

/-- The last index with a count is the one of the largest value. -/
theorem HdrHistogram.Holds.maxIndex_eq (hh : h.Holds vs) {k : Nat}
    (hk : (observeCounts h.counts 0 ⟨none, none, 0⟩).maxIndex = some k) : k = h.classOf h.maxValue := by
  obtain ⟨hlt, hpos, hafter⟩ := hh.observed.max_some k hk
  obtain ⟨v, hv, rfl⟩ := (countP_pos k).mp hpos
  have hle : h.classOf v ≤ h.classOf h.maxValue := LogLinear.index_mono (hh.max_ge v hv)
  rcases hh.max_mem with hzero | hmem
  · have hvzero : v = h.maxValue := by
      have := hh.max_ge v hv
      omega
    rw [hvzero]
  · refine Nat.le_antisymm hle (Nat.le_of_not_lt fun hgt => ?_)
    have hcount := (countP_pos (h := h) _).mpr ⟨_, hmem, rfl⟩
    have := hafter _ (hh.inRange _ hmem) hgt
    omega

/-- The largest value that is found again stands for the same class, unless all values are zero and share a class with others. -/
theorem HdrHistogram.Holds.reset_max (hh : h.Holds vs) (hzero : h.unitMagnitude = 0 ∨ h.maxValue ≠ 0) :
    hdrMax (hdrResetInternalCounters h) = hdrMax h := by
  have hhigh : ∀ value, (hdrResetInternalCounters h).highestEquivalentValue value = h.highestEquivalentValue value := fun _ => rfl
  unfold hdrMax
  rw [hhigh]
  cases hmax : (observeCounts h.counts 0 ⟨none, none, 0⟩).maxIndex with
  | none =>
    have hfound : (hdrResetInternalCounters h).maxValue = 0 := by simp only [hdrResetInternalCounters, hmax]
    have hnil := hh.eq_nil (hh.observed.max_none hmax)
    rw [if_pos hfound, if_pos (hh.max_mem.resolve_right (by rw [hnil]; exact List.not_mem_nil))]
  | some k =>
    have hfound : (hdrResetInternalCounters h).maxValue = h.highestEquivalentValue (h.valueAtIndex k) := by
      simp only [hdrResetInternalCounters, hmax]
    rw [hh.valid.highestEquivalentValue_valueAtIndex] at hfound
    rw [hfound, hh.valid.highestEquivalentValue_eq, hh.valid.highestEquivalentValue_eq, HdrBucketConfig.classOf, LogLinear.index_high,
      hh.maxIndex_eq hmax]
    split
    · next hnone =>
      rw [hnone, ite_self]
    · next hsome =>
      rw [if_neg]
      intro hmaxValue
      -- the class of zero is zero alone
      have hunit := hzero.resolve_right (not_not.mpr hmaxValue)
      refine hsome ?_
      simp [hmaxValue, hunit, HdrBucketConfig.classOf, LogLinear.high, LogLinear.low_index, LogLinear.width, LogLinear.bucketOf_index,
        LogLinear.bucket]

/-- When zero has no count, the first index with a count is the one of the smallest value. -/
theorem HdrHistogram.Holds.minIndex_eq (hh : h.Holds vs) (hsmall : ∀ v ∈ vs, v ≠ 2 ^ 63 - 1) (hclass : ∀ v ∈ vs, h.classOf v ≠ 0)
    {k : Nat} (hk : (observeCounts h.counts 0 ⟨none, none, 0⟩).minNonZeroIndex = some k) :
    h.minValue ∈ vs ∧ k = h.classOf h.minValue := by
  obtain ⟨hlt, hne, hpos, hbefore⟩ := hh.observed.min_some k hk
  obtain ⟨v, hv, rfl⟩ := (countP_pos k).mp hpos
  have hvne : v ≠ 0 := by
    rintro rfl
    exact hne (HdrBucketConfig.classOf_zero _)
  have hle := hh.min_le v hv hvne
  have hmem : h.minValue ∈ vs := by
    rcases hh.min_mem with htop | ⟨hmem, -⟩
    · have := hh.lt_two_pow hv
      have := hsmall v hv
      omega
    · exact hmem
  refine ⟨hmem, Nat.le_antisymm (Nat.le_of_not_lt fun hgt => ?_) (LogLinear.index_mono hle)⟩
  have hcount := (countP_pos (h := h) _).mpr ⟨_, hmem, rfl⟩
  have := hbefore _ hgt (hclass _ hmem)
  omega

/-- The smallest value that is found again stands for the same class. -/
theorem HdrHistogram.Holds.reset_min (hh : h.Holds vs) (hsmall : ∀ v ∈ vs, v ≠ 2 ^ 63 - 1) :
    hdrMin (hdrResetInternalCounters h) = hdrMin h := by
  have hcounts : (hdrResetInternalCounters h).counts = h.counts := rfl
  have hlow : ∀ value, (hdrResetInternalCounters h).lowestEquivalentValue value = h.lowestEquivalentValue value := fun _ => rfl
  unfold hdrMin
  rw [hcounts]
  split
  · rfl
  next hfirst =>
  have hlen := hh.valid.countsLen_pos
  have hclass : ∀ v ∈ vs, h.classOf v ≠ 0 := by
    intro v hv hzero
    refine hfirst ?_
    rw [hh.counts, List.getD_eq_getElem?_getD, List.getElem?_map, List.getElem?_range hlen]
    exact (countP_pos 0).mpr ⟨v, hv, hzero⟩
  unfold nonZeroMin
  rw [hlow]
  cases hmin : (observeCounts h.counts 0 ⟨none, none, 0⟩).minNonZeroIndex with
  | none =>
    have hfound : (hdrResetInternalCounters h).minValue = 2 ^ 63 - 1 := by simp only [hdrResetInternalCounters, hmin]
    have hnil : vs = [] := by
      refine List.eq_nil_iff_forall_not_mem.mpr fun v hv => ?_
      have hpos := (countP_pos (h := h) _).mpr ⟨v, hv, rfl⟩
      have := hh.observed.min_none hmin _ (hh.inRange v hv) (hclass v hv)
      omega
    rw [if_pos hfound, if_pos]
    exact hh.min_mem.resolve_right fun ⟨hmem, _⟩ => by rw [hnil] at hmem; exact List.not_mem_nil hmem
  | some k =>
    have hfound : (hdrResetInternalCounters h).minValue = h.valueAtIndex k := by simp only [hdrResetInternalCounters, hmin]
    obtain ⟨hmem, rfl⟩ := hh.minIndex_eq hsmall hclass hmin
    rw [hfound, if_neg (hsmall _ hmem), hh.valid.lowestEquivalentValue_eq, hh.valid.classOf_valueAtIndex,
      hh.valid.lowestEquivalentValue_eq, ← hh.valid.valueAtIndex_eq]
    split
    · next htop => exact htop.symm
    · rfl

end

/-! ## The bytes -/

theorem length_encodeCounts_le (zeros : Nat) (counts : List Nat) :
    (encodeCounts zeros counts).length ≤ 9 * (counts.length + min zeros 1) := by
  have hzeros : ∀ zeros, (encodeZeros zeros).length ≤ 9 * min zeros 1 := by
    intro zeros
    unfold encodeZeros
    split
    · next hnone => rw [hnone]; decide
    · have := (length_zigZagEncodeI64 (-(BitVec.ofNat 64 zeros))).2
      omega
  induction counts generalizing zeros with
  | nil =>
    have := hzeros zeros
    rw [encodeCounts, List.length_nil]
    omega
  | cons count counts ih =>
    rw [encodeCounts, List.length_cons]
    split
    · have := ih (zeros + 1)
      omega
    · have hrun := hzeros zeros
      have hcount := (length_zigZagEncodeI64 (BitVec.ofNat 64 count)).2
      have hrest := ih 0
      rw [List.length_append, List.length_append]
      omega

theorem length_encodeCounts_pos (zeros : Nat) (counts : List Nat) (h : 0 < zeros + counts.length) :
    0 < (encodeCounts zeros counts).length := by
  induction counts generalizing zeros with
  | nil => exact length_encodeZeros h
  | cons count counts ih =>
    rw [encodeCounts]
    split
    · exact ih (zeros + 1) (by omega)
    · have hcount := (length_zigZagEncodeI64 (BitVec.ofNat 64 count)).1
      rw [List.length_append, List.length_append]
      omega

section

variable {h : HdrHistogram} {vs : List Nat}

theorem HdrHistogram.Holds.length_counts (hh : h.Holds vs) : h.counts.length = h.countsLen := by
  rw [hh.counts, List.length_map, List.length_range]

theorem HdrHistogram.Holds.length_take_counts (hh : h.Holds vs) : (h.counts.take (countsLimit h)).length = countsLimit h := by
  rw [List.length_take, hh.length_counts]
  exact Nat.min_eq_left (Nat.min_le_right _ _)

/-- The counts that are not written are zero. -/
theorem HdrHistogram.Holds.counts_eq_take (hh : h.Holds vs) :
    h.counts = h.counts.take (countsLimit h) ++ List.replicate (h.countsLen - countsLimit h) 0 := by
  have hlimit : countsLimit h ≤ h.countsLen := Nat.min_le_right _ _
  have hdrop : h.counts.drop (countsLimit h) = List.replicate (h.countsLen - countsLimit h) 0 := by
    rw [List.eq_replicate_iff, List.length_drop, hh.length_counts]
    refine ⟨rfl, ?_⟩
    intro c hc
    obtain ⟨i, hi, rfl⟩ := List.mem_drop_iff_getElem.mp hc
    simp only [hh.counts, List.getElem_map, List.getElem_range]
    rw [hh.length_counts] at hi
    rw [List.countP_eq_zero]
    intro v hv
    have hmax : h.classOf v ≤ h.classOf h.maxValue := LogLinear.index_mono (hh.max_ge v hv)
    have hclass : h.classOf h.maxValue + 1 ≤ countsLimit h := by
      have hfor := hh.valid.countsIndexFor_eq h.maxValue
      unfold countsLimit at hi ⊢
      omega
    rw [decide_eq_true_eq]
    omega
  rw [← hdrop, List.take_append_drop]

/-- The bytes of the counts that are written. -/
def HdrHistogram.payload (h : HdrHistogram) : List UInt8 := encodeCounts 0 (h.counts.take (countsLimit h))

theorem HdrHistogram.Holds.length_payload (hh : h.Holds vs) : 0 < h.payload.length ∧ h.payload.length < 2 ^ 27 := by
  have hlen := hh.valid.countsLen_le
  have hpos := hh.valid.countsLen_pos
  have htake := hh.length_take_counts
  have hlimit : 0 < countsLimit h ∧ countsLimit h ≤ h.countsLen := by
    unfold countsLimit
    omega
  have hle := length_encodeCounts_le 0 (h.counts.take (countsLimit h))
  rw [htake] at hle
  refine ⟨length_encodeCounts_pos _ _ (by omega), ?_⟩
  unfold HdrHistogram.payload
  omega

/-- The counts are read back into a histogram that was set up anew. -/
theorem HdrHistogram.Holds.applyToCountsZz_payload (hh : h.Holds vs) (hlength : vs.length < 2 ^ 63) (pad : List UInt8)
    {fresh : HdrHistogram} (hlen : fresh.countsLen = h.countsLen) (hfresh : fresh.counts = List.replicate h.countsLen 0) :
    applyToCountsZz fresh (h.payload ++ pad) h.payload.length = .ok { fresh with counts := h.counts } := by
  have hsmall := hh.valid.countsLen_le
  have hlimit : countsLimit h ≤ h.countsLen := Nat.min_le_right _ _
  have htake := hh.length_take_counts
  have hcounts : ∀ c ∈ h.counts.take (countsLimit h), c < 2 ^ 63 := by
    intro c hc
    have hmem := List.mem_of_mem_take hc
    rw [hh.counts] at hmem
    obtain ⟨i, -, rfl⟩ := List.mem_map.mp hmem
    exact Nat.lt_of_le_of_lt List.countP_le_length hlength
  have hloop := applyToCountsLoop_encode (by omega : h.countsLen < 2 ^ 31) pad _ hcounts 0 0 h.payload.length
    ((h.payload ++ pad).length + 1) (h.countsLen - countsLimit h) [] (by rw [htake, List.length_nil]; omega) (Nat.zero_add _)
    (by rw [List.length_append]; exact Nat.lt_succ_of_le (Nat.le_add_right _ _))
  rw [htake, show 0 + countsLimit h + (h.countsLen - countsLimit h) = h.countsLen by omega, List.replicate_zero, List.nil_append,
    List.nil_append, List.nil_append, ← hh.counts_eq_take] at hloop
  unfold applyToCountsZz
  rw [hlen, hfresh]
  have hloop' : applyToCountsLoop h.countsLen h.payload.length ((h.payload ++ pad).length + 1) (h.payload ++ pad) 0 0
      (List.replicate h.countsLen 0) = .ok (h.payload.length, h.counts) := hloop
  rw [hloop']
  simp

/-- What `hdr_encode_compressed` writes. -/
theorem hdrEncodeCompressed_eq {z : Zlib} {compressed : List UInt8} (hencode : hdrEncodeCompressed z h.full = .ok compressed) :
    ∃ data, z.compress (encodingHeader h.full h.payload.length ++ h.payload) = some data ∧
      compressed = BigEndian.toBytes 4 (v2CompressionCookie ||| 0x10) ++ (BigEndian.toBytes 4 data.length ++ data) := by
  unfold hdrEncodeCompressed at hencode
  dsimp only at hencode
  split at hencode
  · cases hencode
  · next data hdata => exact ⟨data, hdata, (Except.ok.inj hencode).symm⟩

/-- It fails only with the compression. -/
theorem hdrEncodeCompressed_error {z : Zlib} {e : HdrError} (hencode : hdrEncodeCompressed z h.full = .error e) :
    z.compress (encodingHeader h.full h.payload.length ++ h.payload) = none ∧ e = .deflateFail := by
  unfold hdrEncodeCompressed at hencode
  dsimp only at hencode
  split at hencode
  · next hnone => exact ⟨hnone, (Except.error.inj hencode).symm⟩
  · cases hencode

theorem HdrHistogram.Holds.length_compressed (hh : h.Holds vs) {z : Zlib} {compressed : List UInt8}
    (hencode : hdrEncodeCompressed z h.full = .ok compressed) : compressed ≠ [] ∧ compressed.length < 2 ^ 50 := by
  obtain ⟨data, hdata, rfl⟩ := hdrEncodeCompressed_eq hencode
  have hsize := hh.length_payload.2
  have hbound := z.length_le hdata
  rw [List.length_append, length_encodingHeader, compressBound] at hbound
  constructor
  · rw [← List.length_pos_iff]
    simp only [List.length_append, BigEndian.length_toBytes]
    omega
  · simp only [List.length_append, BigEndian.length_toBytes]
    omega

theorem HdrHistogram.Holds.headerFields (hh : h.Holds vs)
    (hcfg : hdrCalculateBucketConfig h.lowestTrackableValue h.highestTrackableValue h.significantFigures = some h.toHdrBucketConfig)
    (hhigh : h.highestTrackableValue < 2 ^ 63) :
    HeaderFields h.full h.payload (encodingHeader h.full h.payload.length ++ h.payload) := by
  have hsize := hh.length_payload.2
  obtain ⟨-, -, -, hlow, hfigures⟩ := hdrCalculateBucketConfig_args hcfg
  refine encodingHeader_fields (by omega) (Nat.two_pow_pos 32) ?_ ?_ hhigh ?_
  · exact Nat.lt_of_le_of_lt hfigures (by decide)
  · exact Nat.lt_of_le_of_lt (Nat.le_trans (Nat.le_mul_of_pos_right _ (by decide)) hlow) hhigh
  · change 0x3FF0000000000000 < 2 ^ 64
    decide

/-- Counting again does not look at what was counted before. -/
theorem hdrResetInternalCounters_counted (h : HdrHistogram) (minValue maxValue totalCount : Nat) :
    hdrResetInternalCounters { h with minValue := minValue, maxValue := maxValue, totalCount := totalCount } =
      hdrResetInternalCounters h := rfl

/-- The decoder of the second version on a buffer with the stream of the fields. -/
theorem HdrHistogram.Holds.decodeV2 (hh : h.Holds vs) (hlength : vs.length < 2 ^ 63)
    (hcfg : hdrCalculateBucketConfig h.lowestTrackableValue h.highestTrackableValue h.significantFigures = some h.toHdrBucketConfig)
    {z : Zlib} {buffer data encoded : List UInt8} (hcompressed : readSigned 4 buffer 4 = data.length)
    (hbuffer : data.length ≤ buffer.length - 8) (hstream : (buffer.drop 8).take data.length = data)
    (hdata : z.uncompress data = some encoded) (hlen : encoded.length = 40 + h.payload.length)
    (hfields : HeaderFields h.full h.payload encoded) :
    hdrDecodeCompressedV2 z buffer = .ok (hdrResetInternalCounters h).full := by
  obtain ⟨hpos, hsize⟩ := hh.length_payload
  have hinit : hdrInit h.full.lowestTrackableValue h.full.highestTrackableValue h.full.significantFigures =
      some { h with minValue := 2 ^ 63 - 1, maxValue := 0, totalCount := 0, counts := List.replicate h.countsLen 0 } := by
    rw [hdrInit, show hdrCalculateBucketConfig h.full.lowestTrackableValue h.full.highestTrackableValue h.full.significantFigures =
      some h.toHdrBucketConfig from hcfg]
    rfl
  unfold hdrDecodeCompressedV2
  extract_lets compressedLength
  have hcompressedLength : compressedLength = data.length := hcompressed
  clear_value compressedLength
  rw [hcompressedLength, if_neg (by omega), Int.toNat_natCast, hstream, hdata]
  dsimp -zeta only
  rw [if_neg (by omega), if_neg (not_not.mpr hfields.cookie)]
  extract_lets limit payload
  have hlimit : limit = h.payload.length := hfields.payloadLen
  have hpayload : payload = h.payload := hfields.payload
  clear_value limit payload
  rw [hfields.lowest, hfields.highest, hfields.figures, Int.toNat_natCast, Int.toNat_natCast, Int.toNat_natCast, hinit]
  dsimp -zeta only
  rw [hlimit, hpayload, if_neg (by omega), if_neg (by omega), if_neg (by omega), hh.applyToCountsZz_payload hlength, hfields.offset,
    hfields.ratio]
  · dsimp only
    rw [hdrResetInternalCounters_counted]
    rfl
  · rfl
  · rfl

/-- Everything `hdr_encode_compressed` writes is found again, up to what is counted again. -/
theorem HdrHistogram.Holds.decode_encode (hh : h.Holds vs) (hlength : vs.length < 2 ^ 63)
    (hcfg : hdrCalculateBucketConfig h.lowestTrackableValue h.highestTrackableValue h.significantFigures = some h.toHdrBucketConfig)
    (hhigh : h.highestTrackableValue < 2 ^ 63) (z : Zlib) (v0 v1 : List UInt8 → Except HdrError HdrFull) {compressed : List UInt8}
    (hencode : hdrEncodeCompressed z h.full = .ok compressed) (pad : List UInt8) :
    hdrDecodeCompressed z v0 v1 (compressed ++ pad) = .ok (hdrResetInternalCounters h).full := by
  have hsize := hh.length_payload.2
  obtain ⟨data, hdata, rfl⟩ := hdrEncodeCompressed_eq hencode
  have hencoded : (encodingHeader h.full h.payload.length ++ h.payload).length = 40 + h.payload.length := by
    rw [List.length_append, length_encodingHeader]
  have hbound := z.length_le hdata
  rw [hencoded] at hbound
  have hsmall : data.length < 2 ^ 31 := by
    unfold compressBound at hbound
    omega
  have hcookie : getCookieBase (v2CompressionCookie ||| 0x10) = v2CompressionCookie := by decide
  rw [List.append_assoc, List.append_assoc]
  have hlen : (BigEndian.toBytes 4 (v2CompressionCookie ||| 0x10) ++ (BigEndian.toBytes 4 data.length ++ (data ++ pad))).length =
      8 + (data.length + pad.length) := by
    simp only [List.length_append, BigEndian.length_toBytes]
    omega
  unfold hdrDecodeCompressed
  rw [if_neg (by omega), ofBytes_front _ (by decide), hcookie, if_neg (by decide), if_neg (by decide), if_pos rfl]
  refine hh.decodeV2 hlength hcfg ?_ (by omega) ?_ (z.uncompress_compress hdata) hencoded (hh.headerFields hcfg hhigh)
  · rw [readSigned, drop_field _ (by decide)]
    exact bmod_ofBytes_front _ hsmall (by decide)
  · rw [drop_field _ (by decide), drop_field _ (by decide)]
    exact List.take_left

end

end AerospikeBenchmark
