import AerospikeBenchmark.Lemmas.HdrLog

/-!
# What is written to an HDR log can be read back

A line that `hdr_log_write` writes is read by `hdr_log_read` as an entry with the same histogram and with the same times, to the
millisecond; and what follows the line is left for the next entry.
-/

namespace AerospikeBenchmark

open CText

/-! ## Times -/

theorem isDigit_bounds {c : Char} (h : c.isDigit = true) : '0' ≤ c ∧ c ≤ '9' := by
  simp only [Char.isDigit, Bool.and_eq_true, decide_eq_true_eq] at h
  exact h

theorem isDigit_ne {c d : Char} (h : c.isDigit = true) (hd : d.isDigit = false) : c ≠ d := by
  rintro rfl
  rw [h] at hd
  cases hd

/-- The digits in front of the point. -/
theorem readAheadTimestamp_seconds (ds rest : Text) (hds : ∀ c ∈ ds, c.isDigit = true) (sec nsec multiplier : Nat) :
    readAheadTimestamp ',' (ds ++ rest) true sec nsec multiplier =
      readAheadTimestamp ',' rest true (Nat.ofDigitChars 10 ds sec) nsec multiplier := by
  induction ds generalizing sec with
  | nil => rfl
  | cons c ds ih =>
    have hc := hds c List.mem_cons_self
    rw [List.cons_append, readAheadTimestamp, if_neg (isDigit_ne hc (by decide)), if_neg (isDigit_ne hc (by decide)),
      if_pos (isDigit_bounds hc), if_pos rfl, ih (fun d hd => hds d (List.mem_cons_of_mem _ hd)), Nat.ofDigitChars_cons,
      Nat.mul_comm]

theorem readAheadTimestamp_toDigits (n : Nat) (rest : Text) :
    readAheadTimestamp ',' (Nat.toDigits 10 n ++ rest) true 0 0 1000000000 =
      readAheadTimestamp ',' rest true n 0 1000000000 := by
  rw [readAheadTimestamp_seconds _ _ fun _ hc => Nat.isDigit_of_mem_toDigits (by decide) (by decide) hc,
    Nat.ofDigitChars_ten_toDigits]

/-- A digit behind the point. -/
theorem readAheadTimestamp_digit {d : Nat} (hd : d < 10) (rest : Text) (sec nsec multiplier : Nat) :
    readAheadTimestamp ',' (Nat.digitChar d :: rest) false sec nsec multiplier =
      readAheadTimestamp ',' rest false sec (nsec * 10 + d) (multiplier / 10) := by
  have hdigit : ∀ d < 10, (Nat.digitChar d).isDigit = true ∧ (Nat.digitChar d).toNat - '0'.toNat = d := by decide
  obtain ⟨hc, hvalue⟩ := hdigit d hd
  rw [readAheadTimestamp, if_neg (isDigit_ne hc (by decide)), if_neg (isDigit_ne hc (by decide)), if_pos (isDigit_bounds hc),
    if_neg Bool.false_ne_true, hvalue]

theorem readAheadTimestamp_point (rest : Text) (sec : Nat) :
    readAheadTimestamp ',' ('.' :: rest) true sec 0 1000000000 = readAheadTimestamp ',' rest false sec 0 1000000000 := by
  rw [readAheadTimestamp, if_neg (by decide), if_pos rfl]

theorem readAheadTimestamp_comma (rest : Text) (sec nsec multiplier : Nat) :
    readAheadTimestamp ',' (',' :: rest) false sec nsec multiplier = some (⟨sec, nsec * multiplier⟩, rest) := by
  rw [readAheadTimestamp, if_pos rfl]

/-- The largest value as it is written, with a zero behind the point. -/
theorem readAheadTimestamp_max (n : Nat) (rest : Text) :
    readAheadTimestamp ',' (Snprintf.decimal n ++ '.' :: '0' :: ',' :: rest) true 0 0 1000000000 = some (⟨n, 0⟩, rest) := by
  rw [Snprintf.decimal_natCast, readAheadTimestamp_toDigits, readAheadTimestamp_point]
  exact (readAheadTimestamp_digit (d := 0) (by decide) _ _ _ _).trans (readAheadTimestamp_comma _ _ _ _)

/-- A time in thousandths of a second, as it is written. -/
def thousandths (n : Nat) : Text :=
  Nat.toDigits 10 (n / 1000) ++ ['.', Nat.digitChar (n / 100 % 10), Nat.digitChar (n / 10 % 10), Nat.digitChar (n % 10)]

theorem readAheadTimestamp_thousandths (n : Nat) (rest : Text) :
    readAheadTimestamp ',' (thousandths n ++ ',' :: rest) true 0 0 1000000000 = some (⟨n / 1000, n % 1000 * 1000000⟩, rest) := by
  have hten : ∀ m, m % 10 < 10 := fun m => Nat.mod_lt m (by decide)
  have hvalue : ((0 * 10 + n / 100 % 10) * 10 + n / 10 % 10) * 10 + n % 10 = n % 1000 := by omega
  rw [thousandths, List.append_assoc, readAheadTimestamp_toDigits]
  simp only [List.cons_append, List.nil_append]
  rw [readAheadTimestamp_point, readAheadTimestamp_digit (hten _), readAheadTimestamp_digit (hten _), readAheadTimestamp_digit (hten _),
    readAheadTimestamp_comma, hvalue]

/-- A time in nanoseconds. -/
def HdrTimespec.nanoseconds (t : HdrTimespec) : Nat := t.sec * 1000000000 + t.nsec

/-- A time of the next centuries, with its nanoseconds below a second. -/
def HdrTimespec.Proper (t : HdrTimespec) : Prop := t.sec < 2 ^ 33 ∧ t.nsec < 1000000000

/-- Times that differ by less than a millisecond. -/
def HdrTimespec.Near (t u : HdrTimespec) : Prop :=
  t.nanoseconds < u.nanoseconds + 1000000 ∧ u.nanoseconds < t.nanoseconds + 1000000

/-- The time as a `double` is off by less than a microsecond. -/
theorem hdrTimespecAsDouble_near {t : HdrTimespec} (ht : t.Proper) :
    ∃ q : ℚ, hdrTimespecAsDouble t = .num q ∧ 0 ≤ q ∧ |q - t.nanoseconds / 1000000000| ≤ 1 / 500000 := by
  have hsec : (t.sec : ℚ) ≤ 2 ^ 33 := by exact_mod_cast ht.1.le
  have hsec0 : (0 : ℚ) ≤ t.sec := Nat.cast_nonneg _
  have hnsec : (t.nsec : ℚ) ≤ 1000000000 := by exact_mod_cast ht.2.le
  have hfrac0 : (0 : ℚ) ≤ t.nsec / 1000000000 := by positivity
  have hfrac1 : (t.nsec : ℚ) / 1000000000 ≤ 1 := by rw [div_le_one (by norm_num)]; exact hnsec
  have h1 := abs_rounded_binary64_sub_le (q := t.nsec / 1000000000) (B := 1) (by rw [abs_of_nonneg hfrac0]; exact hfrac1)
  have hround0 := Format.rounded_nonneg (F := binary64) hfrac0
  have hround1 : binary64.rounded (t.nsec / 1000000000) ≤ 2 := by
    have := (abs_le.mp h1).2
    norm_num at this
    linarith
  have hsum0 : 0 ≤ t.sec + binary64.rounded (t.nsec / 1000000000) := by linarith
  have hsum : |t.sec + binary64.rounded (t.nsec / 1000000000)| ≤ 2 ^ 33 + 2 := by
    rw [abs_of_nonneg hsum0]
    linarith
  have h2 := abs_rounded_binary64_sub_le hsum
  refine ⟨binary64.rounded (t.sec + binary64.rounded (t.nsec / 1000000000)), ?_, Format.rounded_nonneg hsum0, ?_⟩
  · have hquot : binary64.unscale 1000000000 (.num t.nsec) = .num (binary64.rounded (t.nsec / 1000000000)) :=
      Format.ofRat_of_lt (by decide) (by rw [abs_of_nonneg hfrac0]; linarith)
    rw [hdrTimespecAsDouble, ofRat_binary64_natCast (by have := ht.1; omega), ofRat_binary64_natCast (by have := ht.2; omega), hquot]
    exact Format.ofRat_of_lt (by decide) (hsum.trans_lt (by norm_num))
  · have hnanos : (t.nanoseconds : ℚ) / 1000000000 = t.sec + t.nsec / 1000000000 := by
      rw [HdrTimespec.nanoseconds]
      push_cast
      ring
    rw [hnanos]
    rw [abs_le] at h1 h2 ⊢
    norm_num at h1 h2 ⊢
    constructor <;> linarith [h1.1, h1.2, h2.1, h2.2]

theorem near_of_abs_sub_lt {a b c : Nat} (h : |(a : ℚ) - b| < c) : a < b + c ∧ b < a + c := by
  obtain ⟨hlow, hhigh⟩ := abs_lt.mp h
  constructor
  · exact_mod_cast (by linarith : (a : ℚ) < b + c)
  · exact_mod_cast (by linarith : (b : ℚ) < a + c)

/-- The nearest thousandth of a time that is near. -/
theorem near_of_thousandths {t : HdrTimespec} {q : ℚ} {n : Nat} (hq : |q - t.nanoseconds / 1000000000| ≤ 1 / 500000)
    (hn : |(n : ℚ) - q * 1000| ≤ 1 / 2) : HdrTimespec.Near ⟨n / 1000, n % 1000 * 1000000⟩ t := by
  have hnanos : n / 1000 * 1000000000 + n % 1000 * 1000000 = n * 1000000 := by omega
  have hbound : |((n * 1000000 : Nat) : ℚ) - t.nanoseconds| < (1000000 : Nat) := by
    rw [abs_le] at hn hq
    rw [abs_lt]
    push_cast
    norm_num at hn hq
    constructor <;> linarith [hn.1, hn.2, hq.1, hq.2]
  rw [← hnanos] at hbound
  exact near_of_abs_sub_lt hbound

theorem divNearest_thousand {q : ℚ} (hq : 0 ≤ q) : |(divNearest (q.num.natAbs * 1000) q.den : ℚ) - q * 1000| ≤ 1 / 2 := by
  have hnear := divNearest_sub_le (a := q.num.natAbs * 1000) q.den_pos
  have hnum : ((q.num.natAbs : Nat) : Int) = q.num := Int.natAbs_of_nonneg (Rat.num_nonneg.mpr hq)
  have hquot : ((q.num.natAbs * 1000 : Nat) : ℚ) / q.den = q * 1000 := by
    rw [Nat.cast_mul, ← Int.cast_natCast q.num.natAbs, hnum, mul_div_right_comm, Rat.num_div_den]
    norm_num
  rw [hquot] at hnear
  exact hnear

/-- A time is written in thousandths of a second, and read back to the millisecond. -/
theorem fixedPoint_near {t : HdrTimespec} (ht : t.Proper) :
    ∃ n, fixedPoint (hdrTimespecAsDouble t) = thousandths n ∧ HdrTimespec.Near ⟨n / 1000, n % 1000 * 1000000⟩ t := by
  obtain ⟨q, heq, hq0, hq⟩ := hdrTimespecAsDouble_near ht
  exact ⟨_, by rw [heq, fixedPoint, thousandths], near_of_thousandths hq (divNearest_thousand hq0)⟩

/-! ## Lines -/

/-- The letters of a line are decoded to the bytes, with the zeros of the padding. -/
theorem hdrBase64Decode_encode {input : List UInt8} (hne : input ≠ []) {outputLen : Nat} {encoded : Text}
    (hencode : hdrBase64Encode input outputLen = some encoded) (hsize : input.length < 2 ^ 50) :
    hdrBase64Decode encoded (hdrBase64DecodedLen encoded.length) = some (input ++ padding input.length) ∧
      ∀ c ∈ encoded, c ≠ '\n' ∧ c ≠ '\r' := by
  have hpos := List.length_pos_iff.mpr hne
  unfold hdrBase64Encode at hencode
  split at hencode
  · cases hencode
  next hlen =>
  rw [hdrBase64EncodedLen_eq hsize, not_not, Option.some.injEq] at hlen
  obtain rfl := Option.some.inj hencode
  obtain ⟨hdecode, hlength, hletters⟩ := hdrBase64DecodeLoop_encode outputLen input 0 (by omega)
  have hfour : (hdrBase64EncodeLoop outputLen input 0).length &&& 3 = 0 := by
    rw [hlength]
    exact (Nat.and_two_pow_sub_one_eq_mod _ 2).trans (Nat.mul_mod_right 4 _)
  refine ⟨?_, hletters⟩
  unfold hdrBase64Decode hdrBase64DecodedLen
  rw [if_neg, hdecode]
  rw [hfour, hlength]
  omega

theorem takeWhile_line {encoded : Text} (hletters : ∀ c ∈ encoded, c ≠ '\n' ∧ c ≠ '\r') (rest : Text) :
    (encoded ++ '\n' :: rest).takeWhile (fun c => c ≠ '\r' ∧ c ≠ '\n') = encoded := by
  rw [List.takeWhile_append_of_pos]
  · simp
  · intro c hc
    have := hletters c hc
    simp [this.1, this.2]

/-- A line starts with a digit. -/
theorem hdrLogRead_thousandths (z : Zlib) (v0 v1 : List UInt8 → Except HdrError HdrFull) (n : Nat) (file : Text) :
    hdrLogRead z v0 v1 (thousandths n ++ file) = readLogFields z v0 v1 (thousandths n ++ file) := by
  obtain ⟨c, ds, hds⟩ := List.exists_cons_of_ne_nil (Nat.toDigits_ne_nil (b := 10) (n := n / 1000))
  have hc : c.isDigit = true := by
    refine Nat.isDigit_of_mem_toDigits (b := 10) (n := n / 1000) (by decide) (by decide) ?_
    rw [hds]
    exact List.mem_cons_self
  rw [thousandths, hds, List.cons_append, List.cons_append, hdrLogRead, if_neg (isDigit_ne hc (by decide)),
    if_pos (isDigit_bounds hc)]

/-- What an entry of the log keeps of a histogram and of its times. -/
structure ReadBack (h : HdrHistogram) (start finish : HdrTimespec) (entry : HdrLogEntry) : Prop where
  start : entry.startTimestamp.Near start
  finish : entry.interval.Near finish
  max : entry.max = ⟨hdrMax h, 0⟩
  config : entry.histogram.toHdrBucketConfig = h.toHdrBucketConfig
  counts : entry.histogram.counts = h.counts
  totalCount : entry.histogram.totalCount = h.totalCount
  percentiles : ∀ percentile, hdrValueAtPercentile entry.histogram.toHdrHistogram percentile = hdrValueAtPercentile h percentile
  min : hdrMin entry.histogram.toHdrHistogram = hdrMin h
  /-- Values that are all zero are found again as the values that are counted together with zero. -/
  maxAgain : h.unitMagnitude = 0 ∨ h.maxValue ≠ 0 → hdrMax entry.histogram.toHdrHistogram = hdrMax h

section

variable {h : HdrHistogram} {vs : List Nat}

theorem HdrHistogram.Holds.readBack (hh : h.Holds vs) (hsmall : ∀ v ∈ vs, v ≠ 2 ^ 63 - 1) {start finish t u : HdrTimespec}
    (hstart : t.Near start) (hfinish : u.Near finish) :
    ReadBack h start finish ⟨t, u, ⟨hdrMax h, 0⟩, (hdrResetInternalCounters h).full⟩ where
  start := hstart
  finish := hfinish
  max := rfl
  config := rfl
  counts := rfl
  totalCount := hh.reset_totalCount
  percentiles percentile := by
    change hdrValueAtPercentile (hdrResetInternalCounters h) percentile = _
    rw [hdrValueAtPercentile, hh.reset_totalCount]
    rfl
  min := hh.reset_min hsmall
  maxAgain hzero := hh.reset_max hzero

/-- A line that was written, and what is read back from it. -/
theorem HdrHistogram.Holds.read_write (hh : h.Holds vs) (hlength : vs.length < 2 ^ 63)
    (hcfg : hdrCalculateBucketConfig h.lowestTrackableValue h.highestTrackableValue h.significantFigures = some h.toHdrBucketConfig)
    (hhigh : h.highestTrackableValue < 2 ^ 63) (z : Zlib) (v0 v1 : List UInt8 → Except HdrError HdrFull) {start finish : HdrTimespec}
    (hstart : start.Proper) (hfinish : finish.Proper) {compressed : List UInt8}
    (hencode : hdrEncodeCompressed z h.full = .ok compressed) :
    ∃ line t u, hdrLogWrite z start finish h.full = .ok line ∧ t.Near start ∧ u.Near finish ∧ ∀ rest,
      hdrLogRead z v0 v1 (line ++ rest) = .ok (⟨t, u, ⟨hdrMax h, 0⟩, (hdrResetInternalCounters h).full⟩, rest) := by
  obtain ⟨n, hn, hnear⟩ := fixedPoint_near hstart
  obtain ⟨m, hm, hmear⟩ := fixedPoint_near hfinish
  obtain ⟨hne, hsize⟩ := hh.length_compressed hencode
  have hlen := hdrBase64EncodedLen_eq hsize
  have hencoded : hdrBase64Encode compressed (4 * ((compressed.length + 2) / 3)) =
      some (hdrBase64EncodeLoop (4 * ((compressed.length + 2) / 3)) compressed 0) := by
    rw [hdrBase64Encode, if_neg (not_not.mpr hlen)]
  obtain ⟨hdecode, hletters⟩ := hdrBase64Decode_encode hne hencoded hsize
  refine ⟨thousandths n ++ ',' :: (thousandths m ++ ',' :: (Snprintf.decimal (hdrMax h) ++ '.' :: '0' :: ',' ::
    (hdrBase64EncodeLoop (4 * ((compressed.length + 2) / 3)) compressed 0 ++ ['\n']))), _, _, ?_, hnear, hmear, ?_⟩
  · rw [hdrLogWrite, hencode]
    dsimp only
    rw [hlen]
    dsimp only
    rw [hencoded, hn, hm, show h.full.toHdrHistogram = h from rfl]
  · intro rest
    simp only [List.append_assoc, List.cons_append, List.nil_append]
    rw [hdrLogRead_thousandths, readLogFields, readAheadTimestamp_thousandths]
    dsimp only
    rw [readAheadTimestamp_thousandths]
    dsimp only
    rw [readAheadTimestamp_max]
    dsimp only
    rw [takeWhile_line hletters, hdecode]
    dsimp only
    rw [hh.decode_encode hlength hcfg hhigh z v0 v1 hencode]
    dsimp only
    rw [List.drop_left, List.tail_cons]

end

/-- Whatever values were recorded into a histogram of an accepted configuration: a line is written for it unless the compression fails,
and wherever this line stands in a log, it is read as an entry with the same counts, percentiles and times, and the log is read on
behind it. -/
theorem hdr_log_read_back (lowest highest figures : Nat) (hhigh : highest < 2 ^ 63) (h : HdrHistogram)
    (hinit : hdrInit lowest highest figures = some h) (values : List Nat) (hlen : values.length < 2 ^ 63)
    (hvalues : ∀ v ∈ values, v ≠ 2 ^ 63 - 1) (z : Zlib) (v0 v1 : List UInt8 → Except HdrError HdrFull) (start finish : HdrTimespec)
    (hstart : start.Proper) (hfinish : finish.Proper) :
    ((∃ bytes, z.compress bytes = none) ∧ hdrLogWrite z start finish (hdrRecordAll h values).full = .error .deflateFail) ∨
      ∃ line entry, hdrLogWrite z start finish (hdrRecordAll h values).full = .ok line ∧
        ReadBack (hdrRecordAll h values) start finish entry ∧ ∀ rest, hdrLogRead z v0 v1 (line ++ rest) = .ok (entry, rest) := by
  have hrecorded := (hdrInit_holds hhigh hinit).recordAll values
  rw [List.append_nil] at hrecorded
  have hconfig := hdrRecordAll_config h values
  have hlength : (values.filter fun v => h.Takes v).reverse.length < 2 ^ 63 := by
    rw [List.length_reverse]
    exact Nat.lt_of_le_of_lt (List.length_filter_le _ _) hlen
  have hsmall : ∀ v ∈ (values.filter fun v => h.Takes v).reverse, v ≠ 2 ^ 63 - 1 := by
    intro v hv
    exact hvalues v (List.mem_of_mem_filter (List.mem_reverse.mp hv))
  -- the configuration is the one that its own fields ask for
  have hcfg : hdrCalculateBucketConfig h.lowestTrackableValue h.highestTrackableValue h.significantFigures =
      some h.toHdrBucketConfig ∧ h.highestTrackableValue < 2 ^ 63 := by
    obtain ⟨cfg, hcalc, rfl⟩ := Option.map_eq_some_iff.mp hinit
    obtain ⟨hlow, hhighest, hfigures, -, -⟩ := hdrCalculateBucketConfig_args hcalc
    dsimp only
    rw [hlow, hhighest, hfigures]
    exact ⟨hcalc, hhigh⟩
  rw [← hconfig] at hcfg
  generalize hdrRecordAll h values = g at hrecorded hcfg
  cases hencode : hdrEncodeCompressed z g.full with
  | error e =>
    left
    obtain ⟨hnone, rfl⟩ := hdrEncodeCompressed_error hencode
    exact ⟨⟨_, hnone⟩, by rw [hdrLogWrite, hencode]⟩
  | ok compressed =>
    right
    obtain ⟨line, t, u, hline, ht, hu, hread⟩ :=
      hrecorded.read_write hlength hcfg.1 hcfg.2 z v0 v1 hstart hfinish hencode
    exact ⟨line, _, hline, hrecorded.readBack hsmall ht hu, hread⟩

/-- Bytes that are not compressed at all. -/
def Zlib.stored : Zlib where
  compress := some
  uncompress := some
  uncompress_compress := fun h => h.symm
  length_le := by
    intro bytes data h
    obtain rfl := Option.some.inj h
    unfold compressBound
    omega

/-- Three latencies of a second, written and read back. -/
theorem hdr_log_read_back_three : ∃ h line entry, hdrInit 1 1000000 3 = some h ∧
    hdrLogWrite Zlib.stored ⟨1700000000, 5⟩ ⟨1700000001, 7⟩ (hdrRecordAll h [250, 7000, 90]).full = .ok line ∧
    ReadBack (hdrRecordAll h [250, 7000, 90]) ⟨1700000000, 5⟩ ⟨1700000001, 7⟩ entry ∧
    ∀ rest, hdrLogRead Zlib.stored (fun _ => .error .einval) (fun _ => .error .einval) (line ++ rest) = .ok (entry, rest) := by
  have hinit := hdrInit_latency
  have h := hdr_log_read_back 1 1000000 3 (by decide) _ hinit [250, 7000, 90] (by decide) (by decide) Zlib.stored
    (fun _ => .error .einval) (fun _ => .error .einval) ⟨1700000000, 5⟩ ⟨1700000001, 7⟩ ⟨by decide, by decide⟩ ⟨by decide, by decide⟩
  obtain ⟨⟨bytes, hnone⟩, -⟩ | ⟨line, entry, hwrite, hback, hread⟩ := h
  · cases hnone
  · exact ⟨_, line, entry, hinit, hwrite, hback, hread⟩

end AerospikeBenchmark
