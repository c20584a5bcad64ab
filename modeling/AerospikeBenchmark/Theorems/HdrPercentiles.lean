import AerospikeBenchmark.Lemmas.HdrRecording
import AerospikeBenchmark.Lib.Rounded

/-!
# What the percentiles of an HDR histogram say about the recorded values

The value at a percentile is the largest value of a class in which the value of that rank lies, when the recorded values are sorted;
the rank is the percentile of the number of values, up to one.
-/

namespace AerospikeBenchmark

open CText

/-! ## Classes of values -/

/-- What a histogram keeps of a value. -/
structure KeptWithin (h : HdrBucketConfig) (figures value : Nat) : Prop where
  taken : h.Takes value
  low_le : h.lowestEquivalentValue value ≤ value
  le_high : value ≤ h.highestEquivalentValue value
  /-- The values that are counted together with it. -/
  together : ∀ w, h.countsIndexFor w = h.countsIndexFor value ↔ h.lowestEquivalentValue value ≤ w ∧ w ≤ h.highestEquivalentValue value
  readBack : h.valueAtIndex (h.countsIndexFor value) = h.lowestEquivalentValue value
  /-- They differ by less than the lowest trackable value, or by less than a unit in the last significant figure. -/
  precise : h.highestEquivalentValue value - h.lowestEquivalentValue value < h.lowestTrackableValue ∨
    (h.highestEquivalentValue value - h.lowestEquivalentValue value + 1) * 10 ^ figures ≤ value

section

variable {h : HdrHistogram} {vs : List Nat}

/-- The loop stops at the first class with which the rank is reached. -/
theorem valueAtPercentileLoop_spec (h : HdrBucketConfig) (vs : List Nat) (count n a : Nat) (hlow : countBelow h vs a < count)
    (hhigh : count ≤ countBelow h vs (a + n)) :
    ∃ i, valueAtPercentileLoop h count ((List.range' a n).map fun i => vs.countP (h.classOf · = i)) a (countBelow h vs a) =
        h.highestEquivalentValue (h.valueAtIndex i) ∧ i < a + n ∧ countBelow h vs i < count ∧ count ≤ countBelow h vs (i + 1) := by
  induction n generalizing a with
  | zero => exact absurd hhigh (Nat.not_le.mpr hlow)
  | succ n ih =>
    rw [List.range'_succ, List.map_cons, valueAtPercentileLoop, ← countBelow_succ]
    split
    · next hreached => exact ⟨a, rfl, by omega, hlow, hreached⟩
    · next hnot =>
      obtain ⟨i, heq, hlt, hbelow, hreached⟩ := ih (a + 1) (by omega) (by rw [show a + 1 + n = a + (n + 1) by omega]; exact hhigh)
      exact ⟨i, heq, by omega, hbelow, hreached⟩

/-- The values of the classes before one are those below its smallest value. -/
theorem countBelow_eq_low {h : HdrBucketConfig} (vs : List Nat) (i : Nat) :
    countBelow h vs i = vs.countP (· < LogLinear.low h.subBucketHalfCountMagnitude h.unitMagnitude i) := by
  refine List.countP_congr fun v _ => ?_
  simp only [decide_eq_true_eq]
  rw [← Nat.not_le, ← Nat.not_le, not_iff_not]
  constructor
  · intro hle
    exact (LogLinear.low_mono hle).trans (LogLinear.low_le v)
  · intro hle
    have hmono := LogLinear.index_mono (m := h.subBucketHalfCountMagnitude) (u := h.unitMagnitude) hle
    rw [LogLinear.index_low] at hmono
    exact hmono

theorem countBelow_succ_eq_high {h : HdrBucketConfig} (vs : List Nat) (i : Nat) :
    countBelow h vs (i + 1) = vs.countP (· ≤ LogLinear.high h.subBucketHalfCountMagnitude h.unitMagnitude i) := by
  refine List.countP_congr fun v _ => ?_
  simp only [decide_eq_true_eq, Nat.lt_succ_iff]
  exact LogLinear.index_le_iff v i

/-- The value found for a rank: enough values are at most it, too few are below its class, and it is the largest of its class. -/
structure AtRank (h : HdrBucketConfig) (vs : List Nat) (k r : Nat) : Prop where
  enough : k ≤ vs.countP (· ≤ r)
  tooFew : vs.countP (· < h.lowestEquivalentValue r) < k
  top : h.highestEquivalentValue r = r

theorem HdrHistogram.Holds.atRank (hh : h.Holds vs) {k : Nat} (hpos : 0 < k) (hle : k ≤ vs.length) :
    AtRank h.toHdrBucketConfig vs k (valueAtPercentileLoop h.toHdrBucketConfig k h.counts 0 0) := by
  have hzero := countBelow_zero h.toHdrBucketConfig vs
  obtain ⟨i, heq, -, hbelow, hreached⟩ := valueAtPercentileLoop_spec h.toHdrBucketConfig vs k h.countsLen 0 (by omega)
    (by rw [Nat.zero_add, countBelow_len hh]; exact hle)
  rw [hzero, ← List.range_eq_range', ← hh.counts, hh.valid.highestEquivalentValue_valueAtIndex] at heq
  rw [heq]
  refine ⟨?_, ?_, ?_⟩
  · rw [← countBelow_succ_eq_high]
    exact hreached
  · rw [hh.valid.lowestEquivalentValue_eq, HdrBucketConfig.classOf, LogLinear.index_high, ← countBelow_eq_low]
    exact hbelow
  · rw [hh.valid.highestEquivalentValue_eq, HdrBucketConfig.classOf, LogLinear.index_high]

theorem le_of_classOf_le {h : HdrBucketConfig} (hv : h.Valid) {v r : Nat} (htop : h.highestEquivalentValue r = r)
    (hle : h.classOf v ≤ h.classOf r) : v ≤ r := by
  rw [← htop, hv.highestEquivalentValue_eq]
  exact (LogLinear.index_le_iff v _).mp hle

theorem lt_lowestEquivalentValue {h : HdrBucketConfig} (hv : h.Valid) {v r : Nat} (hlt : h.classOf v < h.classOf r) :
    v < h.lowestEquivalentValue r := by
  rw [hv.lowestEquivalentValue_eq]
  by_contra hge
  have hmono := LogLinear.index_mono (m := h.subBucketHalfCountMagnitude) (u := h.unitMagnitude) (Nat.le_of_not_lt hge)
  rw [LogLinear.index_low] at hmono
  exact absurd hlt (Nat.not_lt.mpr hmono)

/-- A larger rank has no smaller value. -/
theorem AtRank.mono {h : HdrBucketConfig} (hv : h.Valid) {k k' r r' : Nat} (hr : AtRank h vs k r) (hr' : AtRank h vs k' r')
    (hk : k ≤ k') : r ≤ r' := by
  refine le_of_classOf_le hv hr'.top ?_
  by_contra hgt
  have hlt := lt_lowestEquivalentValue hv (Nat.lt_of_not_le hgt)
  have hsub : vs.countP (· ≤ r') ≤ vs.countP (· < h.lowestEquivalentValue r) := by
    refine List.countP_mono_left fun v _ hle => ?_
    simp only [decide_eq_true_eq] at hle ⊢
    omega
  have h1 := hr.tooFew
  have h2 := hr'.enough
  omega

/-- Some recorded value lies in the class of the value. -/
theorem AtRank.exists_mem {h : HdrBucketConfig} {k r : Nat} (hr : AtRank h vs k r) :
    ∃ v ∈ vs, h.lowestEquivalentValue r ≤ v ∧ v ≤ r := by
  by_contra hnone
  have hsub : vs.countP (· ≤ r) ≤ vs.countP (· < h.lowestEquivalentValue r) := by
    refine List.countP_mono_left fun v hv hle => ?_
    simp only [decide_eq_true_eq] at hle ⊢
    exact Nat.lt_of_not_le fun hge => hnone ⟨v, hv, hge, hle⟩
  have h1 := hr.tooFew
  have h2 := hr.enough
  omega

/-- The last rank is that of the largest value. -/
theorem AtRank.eq_max (hh : h.Holds vs) {r : Nat} (hr : AtRank h.toHdrBucketConfig vs vs.length r) :
    r = h.highestEquivalentValue h.maxValue := by
  obtain ⟨v, hv, hlow, -⟩ := hr.exists_mem
  have hall : ∀ v ∈ vs, v ≤ r := by
    have heq : vs.countP (· ≤ r) = vs.length := le_antisymm List.countP_le_length hr.enough
    intro v hv
    simpa using List.countP_eq_length.mp heq v hv
  have hmax : h.maxValue ≤ r := by
    rcases hh.max_mem with hzero | hmem
    · omega
    · exact hall _ hmem
  have hge : h.lowestEquivalentValue r ≤ h.maxValue := hlow.trans (hh.max_ge v hv)
  -- the largest value and the one found are in one class
  have hclass : h.classOf h.maxValue = h.classOf r := by
    refine le_antisymm (LogLinear.index_mono hmax) ?_
    by_contra hgt
    exact absurd hge (Nat.not_le.mpr (lt_lowestEquivalentValue hh.valid (Nat.lt_of_not_le hgt)))
  rw [hh.valid.highestEquivalentValue_eq, hclass, ← hh.valid.highestEquivalentValue_eq, hr.top]

/-- No value found is below the smallest one. -/
theorem AtRank.min_le (hh : h.Holds vs) {k r : Nat} (hr : AtRank h.toHdrBucketConfig vs k r) : hdrMin h ≤ r := by
  obtain ⟨v, hv, -, hle⟩ := hr.exists_mem
  unfold hdrMin
  split
  · exact Nat.zero_le r
  next hcount =>
  -- a value of zero would be counted at the first index
  have hne : v ≠ 0 := by
    rintro rfl
    apply hcount
    have hclass := h.classOf_zero
    have hlen := hh.inRange 0 hv
    rw [hclass] at hlen
    rw [hh.counts, List.getD_eq_getElem?_getD, List.getElem?_map, List.getElem?_range hlen]
    simp only [Option.map_some, Option.getD_some]
    exact List.countP_pos_iff.mpr ⟨0, hv, by simpa using hclass⟩
  have hmin := hh.min_le v hv hne
  unfold nonZeroMin
  split
  · omega
  · rw [hh.valid.lowestEquivalentValue_eq]
    exact (LogLinear.low_le _).trans (hmin.trans hle)

end

/-! ## The rank of a percentile -/

/-- The rank before it is cut off to an integer. -/
def roundedRank (n : Nat) (q : ℚ) : ℚ := binary64.rounded (binary64.rounded (binary64.rounded (q / 100) * n) + 1 / 2)

theorem roundedRank_mono (n : Nat) {q q' : ℚ} (h : q ≤ q') : roundedRank n q ≤ roundedRank n q' := by
  unfold roundedRank
  have hinner : binary64.rounded (q / 100) ≤ binary64.rounded (q' / 100) := Format.rounded_mono (by linarith)
  have hmid : binary64.rounded (binary64.rounded (q / 100) * n) ≤ binary64.rounded (binary64.rounded (q' / 100) * n) :=
    Format.rounded_mono (mul_le_mul_of_nonneg_right hinner (Nat.cast_nonneg n))
  exact Format.rounded_mono (by linarith)

section

variable {n : Nat} (hn : n < 2 ^ 50) {q : ℚ} (hq : 0 ≤ q) (hq' : q ≤ 100)

include hn in
theorem roundedRank_hundred : roundedRank n 100 = n + 1 / 2 := by
  have hone : binary64.rounded ((100 : ℚ) / 100) = 1 := by
    have h := Format.rounded_eq_self (F := binary64) (Format.representable_natCast (n := 1) (by decide) (by decide))
    rw [Nat.cast_one] at h
    rw [div_self (by norm_num), h]
  have hint : binary64.rounded n = n := Format.rounded_eq_self (Format.representable_natCast (by decide) (by change n ≤ 2 ^ 53; omega))
  have hhalf : ((2 * n + 1 : Nat) : ℚ) * 2 ^ (-1 : Int) = n + 1 / 2 := by
    push_cast
    rw [zpow_neg_one]
    ring
  rw [roundedRank, hone, one_mul, hint, ← hhalf]
  exact Format.rounded_eq_self (Format.representable_mul (by change 2 * n + 1 ≤ 2 ^ 53; omega) (by decide))

include hn hq' in
theorem roundedRank_le : roundedRank n q ≤ n + 1 / 2 := by
  rw [← roundedRank_hundred hn]
  exact roundedRank_mono n hq'

include hq hq'

theorem rounded_fraction_mem : 0 ≤ binary64.rounded (q / 100) ∧ binary64.rounded (q / 100) ≤ 1 := by
  refine ⟨Format.rounded_nonneg (by linarith), ?_⟩
  have hone : binary64.Representable ((1 : Nat) : ℚ) := Format.representable_natCast (by decide) (by decide)
  have h := Format.rounded_le (q := q / 100) hone (by push_cast; linarith)
  exact_mod_cast h

include hn

/-- The rank is the percentile of the number of values, up to one. -/
theorem abs_roundedRank_sub_le : |roundedRank n q - (q * n / 100 + 1 / 2)| ≤ 1 / 2 := by
  have hn' : (n : ℚ) ≤ 2 ^ 50 := by exact_mod_cast hn.le
  have hn0 : (0 : ℚ) ≤ n := Nat.cast_nonneg n
  obtain ⟨hlow, hhigh⟩ := rounded_fraction_mem hq hq'
  have h1 := abs_rounded_binary64_sub_le (q := q / 100) (B := 1) (by rw [abs_of_nonneg (by linarith)]; linarith)
  have hprod0 : 0 ≤ binary64.rounded (q / 100) * n := mul_nonneg hlow hn0
  have hprod : binary64.rounded (q / 100) * n ≤ 2 ^ 50 := by nlinarith
  have h2 := abs_rounded_binary64_sub_le (q := binary64.rounded (q / 100) * n) (B := 2 ^ 50) (by rw [abs_of_nonneg hprod0]; exact hprod)
  have hmid0 : 0 ≤ binary64.rounded (binary64.rounded (q / 100) * n) := Format.rounded_nonneg hprod0
  have hmid : binary64.rounded (binary64.rounded (q / 100) * n) ≤ 2 ^ 50 := by
    have hrep : binary64.Representable ((2 ^ 50 : Nat) : ℚ) := Format.representable_natCast (by decide) (by decide)
    have h := Format.rounded_le hrep (by push_cast; exact hprod)
    exact_mod_cast h
  have h3 := abs_rounded_binary64_sub_le (q := binary64.rounded (binary64.rounded (q / 100) * n) + 1 / 2) (B := 2 ^ 50 + 1)
    (by rw [abs_of_nonneg (by linarith)]; linarith)
  -- the error of the quotient is multiplied by the number of values
  have h1n : |binary64.rounded (q / 100) * n - q / 100 * n| ≤ (1 / 2 ^ 53 + 1 / 2 ^ 60) * 2 ^ 50 := by
    rw [← sub_mul, abs_mul, abs_of_nonneg hn0]
    exact mul_le_mul h1 hn' hn0 (by positivity)
  rw [roundedRank, abs_le]
  rw [abs_le] at h1n h2 h3
  norm_num at h1n h2 h3 ⊢
  constructor <;> linarith [h1n.1, h1n.2, h2.1, h2.2, h3.1, h3.2]

theorem roundedRank_nonneg : 0 ≤ roundedRank n q := by
  have h := (abs_le.mp (abs_roundedRank_sub_le hn hq hq')).1
  have hpos : 0 ≤ q * n / 100 := by positivity
  linarith

/-- The operations on `double` give the rounded rank. -/
theorem countAtPercentile_eq : countAtPercentile n (.num q) = some (max ⌊roundedRank n q⌋ 1).toNat := by
  have hn' : (n : ℚ) ≤ 2 ^ 50 := by exact_mod_cast hn.le
  have hn0 : (0 : ℚ) ≤ n := Nat.cast_nonneg n
  obtain ⟨hlow, hhigh⟩ := rounded_fraction_mem hq hq'
  have hrequested : (if (FpNum.num q).lt (.num 100) then FpNum.num q else .num 100) = .num q := by
    simp only [FpNum.lt, decide_eq_true_eq]
    split
    · rfl
    · rw [le_antisymm hq' (not_lt.mp ‹_›)]
  have hfrac : binary64.unscale 100 (.num q) = .num (binary64.rounded (q / 100)) :=
    Format.ofRat_of_lt (by decide) (by rw [abs_of_nonneg (by linarith)]; norm_num; linarith)
  have hcount : binary64.ofRat n = .num n := by
    have hrep : binary64.Representable (n : ℚ) := Format.representable_natCast (by decide) (by change n ≤ 2 ^ 53; omega)
    rw [Format.ofRat_of_lt (by decide) (by rw [abs_of_nonneg hn0]; norm_num; linarith), Format.rounded_eq_self hrep]
  have hprod0 : 0 ≤ binary64.rounded (q / 100) * n := mul_nonneg hlow hn0
  have hprod : binary64.rounded (q / 100) * n ≤ 2 ^ 50 := by nlinarith
  have hmul : binary64.mul (.num (binary64.rounded (q / 100))) (.num n) = .num (binary64.rounded (binary64.rounded (q / 100) * n)) :=
    Format.ofRat_of_lt (by decide) (by rw [abs_of_nonneg hprod0]; norm_num at hprod ⊢; linarith)
  have hmid0 : 0 ≤ binary64.rounded (binary64.rounded (q / 100) * n) := Format.rounded_nonneg hprod0
  have hmid : binary64.rounded (binary64.rounded (q / 100) * n) ≤ 2 ^ 50 := by
    have hrep : binary64.Representable ((2 ^ 50 : Nat) : ℚ) := Format.representable_natCast (by decide) (by decide)
    have h := Format.rounded_le hrep (by push_cast; exact hprod)
    exact_mod_cast h
  have hadd : binary64.add (.num (binary64.rounded (binary64.rounded (q / 100) * n))) (.num (1 / 2)) = .num (roundedRank n q) :=
    Format.ofRat_of_lt (by decide) (by rw [abs_of_nonneg (by linarith)]; norm_num at hmid ⊢; linarith)
  have hrank0 := roundedRank_nonneg hn hq hq'
  have hrank := roundedRank_le hn hq'
  rw [countAtPercentile, hrequested, hfrac, hcount, hmul, hadd]
  simp only [FpNum.toSigned, not_lt.mpr hrank0, if_false]
  rw [if_pos]
  · rfl
  · constructor
    · exact le_trans (by norm_num) (Int.floor_nonneg.mpr hrank0)
    · have h50 : (2 : ℚ) ^ 50 = 1125899906842624 := by norm_num
      rw [h50] at hn'
      rw [Int.floor_lt]
      norm_num
      linarith

end

/-! ## Percentiles of recorded values -/

/-- What the value `r` at the percentile `q` says about the recorded values. -/
structure PercentileOf (h : HdrHistogram) (vs : List Nat) (q : ℚ) (k r : Nat) : Prop where
  found : hdrValueAtPercentile h (.num q) = some r
  rank_pos : 1 ≤ k
  rank_le : k ≤ vs.length
  /-- The rank is the percentile of the number of values, up to one, and at least the first. -/
  le_rank : q * vs.length / 100 - 1 ≤ k
  rank_near : k = 1 ∨ (k : ℚ) ≤ q * vs.length / 100 + 1
  atRank : AtRank h.toHdrBucketConfig vs k r
  min_le : hdrMin h ≤ r
  le_max : r ≤ h.highestEquivalentValue h.maxValue
  hundred : q = 100 → r = h.highestEquivalentValue h.maxValue

section

variable {h : HdrHistogram} {vs : List Nat} (hh : h.Holds vs) (hne : vs ≠ []) (hlen : vs.length < 2 ^ 50) {q : ℚ} (hq : 0 ≤ q)
  (hq' : q ≤ 100)

include hh hne hlen hq hq'

theorem HdrHistogram.Holds.percentile :
    PercentileOf h vs q (max ⌊roundedRank vs.length q⌋ 1).toNat
      (valueAtPercentileLoop h.toHdrBucketConfig (max ⌊roundedRank vs.length q⌋ 1).toNat h.counts 0 0) := by
  have hpos : 0 < vs.length := List.length_pos_iff.mpr hne
  have hrank0 := roundedRank_nonneg hlen hq hq'
  have hrank := roundedRank_le hlen hq'
  obtain ⟨hnear1, hnear2⟩ := abs_le.mp (abs_roundedRank_sub_le hlen hq hq')
  have hfloor := Int.floor_le (roundedRank vs.length q)
  have hfloor' := Int.lt_floor_add_one (roundedRank vs.length q)
  have hfloor_le : ⌊roundedRank vs.length q⌋ ≤ vs.length := by
    rw [← Int.lt_add_one_iff, Int.floor_lt]
    push_cast
    linarith
  have hk : ((max ⌊roundedRank vs.length q⌋ 1).toNat : ℚ) = max ⌊roundedRank vs.length q⌋ 1 := by
    have : ((max ⌊roundedRank vs.length q⌋ 1).toNat : Int) = max ⌊roundedRank vs.length q⌋ 1 := Int.toNat_of_nonneg (by omega)
    exact_mod_cast this
  have hkpos : 1 ≤ (max ⌊roundedRank vs.length q⌋ 1).toNat := by omega
  have hkle : (max ⌊roundedRank vs.length q⌋ 1).toNat ≤ vs.length := by omega
  have hat := hh.atRank hkpos hkle
  have hlast := hh.atRank hpos le_rfl
  have hmax := hlast.eq_max hh
  refine ⟨?_, hkpos, hkle, ?_, ?_, hat, hat.min_le hh, ?_, ?_⟩
  · rw [hdrValueAtPercentile, hh.totalCount, countAtPercentile_eq hlen hq hq', Option.map_some]
  · rw [hk]
    have hle : (⌊roundedRank vs.length q⌋ : ℚ) ≤ (max ⌊roundedRank vs.length q⌋ 1 : Int) := by exact_mod_cast le_max_left _ _
    linarith
  · rcases le_total ⌊roundedRank vs.length q⌋ 1 with hle | hge
    · left
      rw [max_eq_right hle]
      rfl
    · right
      rw [hk, max_eq_left (by exact_mod_cast hge)]
      linarith
  · rw [← hmax]
    exact hat.mono hh.valid hlast hkle
  · rintro rfl
    have hfull : (max ⌊roundedRank vs.length 100⌋ 1).toNat = vs.length := by
      have hint : ⌊roundedRank vs.length 100⌋ = vs.length := by
        rw [roundedRank_hundred hlen, Int.floor_eq_iff]
        push_cast
        constructor <;> linarith
      omega
    rw [hfull]
    exact hmax

end

theorem HdrHistogram.Holds.perm {h : HdrHistogram} {vs ws : List Nat} (hh : h.Holds vs) (hp : vs.Perm ws) : h.Holds ws where
  valid := hh.valid
  inRange v hv := hh.inRange v (hp.mem_iff.mpr hv)
  counts := by
    rw [hh.counts]
    exact List.map_congr_left fun i _ => hp.countP_eq _
  totalCount := by rw [hh.totalCount, hp.length_eq]
  max_ge v hv := hh.max_ge v (hp.mem_iff.mpr hv)
  max_mem := hh.max_mem.imp id hp.mem_iff.mp
  min_le v hv := hh.min_le v (hp.mem_iff.mpr hv)
  min_mem := hh.min_mem.imp id fun ⟨hmem, hne⟩ => ⟨hp.mem_iff.mp hmem, hne⟩

/-- Whatever values are recorded into a histogram of an accepted configuration: the value at a percentile lies in the class of the
value of that rank among those the histogram takes, between the smallest and the largest; and it does not fall when the percentile
rises. -/
theorem percentiles_of_recorded_values (lowest highest figures : Nat) (hhigh : highest < 2 ^ 63) (h : HdrHistogram)
    (hinit : hdrInit lowest highest figures = some h) (values : List Nat) (hne : values.filter (fun v => h.Takes v) ≠ [])
    (hlen : values.length < 2 ^ 50) (q q' : ℚ) (hq : 0 ≤ q) (hqq' : q ≤ q') (hq' : q' ≤ 100) :
    ∃ k r k' r', PercentileOf (hdrRecordAll h values) (values.filter fun v => h.Takes v) q k r ∧
      PercentileOf (hdrRecordAll h values) (values.filter fun v => h.Takes v) q' k' r' ∧ k ≤ k' ∧ r ≤ r' := by
  have hrecorded := (hdrInit_holds hhigh hinit).recordAll values
  rw [List.append_nil] at hrecorded
  have hh := hrecorded.perm (List.reverse_perm _)
  have hlen' : (values.filter fun v => h.Takes v).length < 2 ^ 50 := Nat.lt_of_le_of_lt (List.length_filter_le _ _) hlen
  have hspec := hh.percentile hne hlen' hq (hqq'.trans hq')
  have hspec' := hh.percentile hne hlen' (hq.trans hqq') hq'
  have hk : (max ⌊roundedRank (values.filter fun v => h.Takes v).length q⌋ 1).toNat ≤
      (max ⌊roundedRank (values.filter fun v => h.Takes v).length q'⌋ 1).toNat :=
    Int.toNat_le_toNat (max_le_max_right _ (Int.floor_mono (roundedRank_mono _ hqq')))
  exact ⟨_, _, _, _, hspec, hspec', hk, hspec.atRank.mono hh.valid hspec'.atRank hk⟩

/-- The median of three latencies, and the largest. -/
theorem percentiles_of_three_latencies : ∃ h, hdrInit 1 1000000 3 = some h ∧
    ∃ k r k' r', PercentileOf (hdrRecordAll h [250, 7000, 90]) [250, 7000, 90] 50 k r ∧
      PercentileOf (hdrRecordAll h [250, 7000, 90]) [250, 7000, 90] 100 k' r' ∧ k ≤ k' ∧ r ≤ r' := by
  have hinit := hdrInit_latency
  refine ⟨_, hinit, ?_⟩
  have hall : [250, 7000, 90].filter (fun v => latencyHdrConfig.Takes v) = [250, 7000, 90] := by
    rw [List.filter_eq_self]
    intro v hv
    have hvalid := hdrCalculateBucketConfig_valid (by decide) hdrCalculateBucketConfig_latency
    simp only [List.mem_cons, List.not_mem_nil, or_false] at hv
    rcases hv with rfl | rfl | rfl <;> exact decide_eq_true (hvalid.takes_of_le (by decide))
  have h := percentiles_of_recorded_values 1 1000000 3 (by decide) _ hinit [250, 7000, 90] (by rw [hall]; simp) (by decide) 50 100
    (by norm_num) (by norm_num) le_rfl
  rw [hall] at h
  exact h

end AerospikeBenchmark
