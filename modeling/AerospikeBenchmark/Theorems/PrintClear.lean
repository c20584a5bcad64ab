import AerospikeBenchmark.Lemmas.Buckets
import AerospikeBenchmark.Lib.Runs

/-!
# No latency sample is missed

Threads count into a histogram while `histogram_print_clear` takes the counts out, one atomic exchange at a time. Every increment is
in a count taken or still in its counter, and the total in the header of a line is the sum of the counts printed on it.
-/

namespace AerospikeBenchmark

open CText Runs

/-! ## The counts on a line -/

/-- The sum of the counts of printed pairs. -/
def sumCounts (entries : List (Nat × UInt32)) : Nat := (entries.map fun e => e.2.toNat).sum

@[simp] theorem sumCounts_append (es es' : List (Nat × UInt32)) : sumCounts (es ++ es') = sumCounts es + sumCounts es' := by
  simp [sumCounts]

/-- A count that is not printed is zero. -/
@[simp] theorem sumCounts_printCount (bound : Nat) (cnt : UInt32) : sumCounts (printCount bound cnt) = cnt.toNat := by
  unfold printCount
  split
  · simp [sumCounts]
  · next hzero =>
    rw [UInt32.lt_iff_toNat_lt] at hzero
    simp only [UInt32.toNat_zero, Nat.not_lt, Nat.le_zero] at hzero
    rw [hzero]
    rfl

/-- The sum of counts. -/
def sumOf (cnts : List UInt32) : Nat := (cnts.map UInt32.toNat).sum

@[simp] theorem sumOf_append (cs cs' : List UInt32) : sumOf (cs ++ cs') = sumOf cs + sumOf cs' := by
  simp [sumOf]

theorem sumOf_le (cnts : List UInt32) : sumOf cnts ≤ cnts.length * (2 ^ 32 - 1) := by
  induction cnts with
  | nil => exact Nat.zero_le _
  | cons cnt cnts ih =>
    have hlt := cnt.toNat_lt
    simp only [sumOf, List.map_cons, List.sum_cons, List.length_cons] at ih ⊢
    omega

/-- The loop over the buckets of a range prints the counts it reads, which lie within the array. -/
theorem printRange_sum {r : BucketRangeDesc} {cnts : List UInt32} {n j idx : Nat} {entries : List (Nat × UInt32)}
    (h : printRange r cnts n j idx = some entries) :
    sumCounts entries = sumOf ((cnts.drop idx).take n) ∧ (n = 0 ∨ idx + n ≤ cnts.length) := by
  induction n generalizing j idx entries with
  | zero =>
    obtain rfl := Option.some.inj h
    exact ⟨by simp [sumCounts, sumOf], .inl rfl⟩
  | succ n ih =>
    simp only [printRange, Option.bind_eq_bind, Option.bind_eq_some_iff, Option.pure_def, Option.some.injEq] at h
    obtain ⟨cnt, hcnt, rest, hrest, rfl⟩ := h
    obtain ⟨hlt, hget⟩ := List.getElem?_eq_some_iff.mp hcnt
    obtain ⟨hsum, hwithin⟩ := ih hrest
    refine ⟨?_, .inr (by omega)⟩
    rw [List.drop_eq_getElem_cons hlt, List.take_succ_cons, sumCounts_append, sumCounts_printCount, hsum, hget]
    rfl

/-- The loops over all ranges print the counts of their buckets. -/
theorem printRanges_sum {cnts : List UInt32} {bounds : List BucketRangeDesc} {idx : Nat} {entries : List (Nat × UInt32)}
    (h : printRanges cnts bounds idx = some entries) :
    sumCounts entries = sumOf ((cnts.drop idx).take (bounds.map BucketRangeDesc.nBuckets).sum) ∧
      ((bounds.map BucketRangeDesc.nBuckets).sum = 0 ∨ idx + (bounds.map BucketRangeDesc.nBuckets).sum ≤ cnts.length) := by
  induction bounds generalizing idx entries with
  | nil =>
    obtain rfl := Option.some.inj h
    exact ⟨by simp [sumCounts, sumOf], .inl rfl⟩
  | cons r bounds ih =>
    simp only [printRanges, Option.bind_eq_bind, Option.bind_eq_some_iff, Option.pure_def, Option.some.injEq] at h
    obtain ⟨first, hfirst, rest, hrest, rfl⟩ := h
    obtain ⟨hsum, hwithin⟩ := printRange_sum hfirst
    obtain ⟨hsum', hwithin'⟩ := ih hrest
    rw [List.map_cons, List.sum_cons]
    refine ⟨?_, by omega⟩
    rw [sumCounts_append, hsum, hsum', List.take_add, sumOf_append, List.drop_drop]

/-- The loops read within the array when it has a count for every bucket. -/
theorem printRange_isSome (r : BucketRangeDesc) {cnts : List UInt32} {n : Nat} (j idx : Nat) (h : idx + n ≤ cnts.length) :
    ∃ entries, printRange r cnts n j idx = some entries := by
  induction n generalizing j idx with
  | zero => exact ⟨[], rfl⟩
  | succ n ih =>
    obtain ⟨rest, hrest⟩ := ih (j + 1) (idx + 1) (by omega)
    rw [printRange, List.getElem?_eq_getElem (by omega), hrest]
    exact ⟨_, rfl⟩

theorem printRanges_isSome {cnts : List UInt32} {bounds : List BucketRangeDesc} (idx : Nat)
    (h : idx + (bounds.map BucketRangeDesc.nBuckets).sum ≤ cnts.length) : ∃ entries, printRanges cnts bounds idx = some entries := by
  induction bounds generalizing idx with
  | nil => exact ⟨[], rfl⟩
  | cons r bounds ih =>
    rw [List.map_cons, List.sum_cons] at h
    have hfits : idx + r.nBuckets ≤ cnts.length := by omega
    obtain ⟨first, hfirst⟩ := printRange_isSome r 0 idx hfits
    obtain ⟨rest, hrest⟩ := ih (idx + r.nBuckets) (by omega)
    rw [printRanges, hfirst, hrest]
    exact ⟨_, rfl⟩

/-! ## What a step does -/

/-- On the histogram, a counting step is `histogram_incr`. -/
theorem hist_clearStep_incr (st : ClearState) (elapsedUs : Nat) :
    (clearStep st (.incr elapsedUs)).map ClearState.hist = histogramIncr st.hist elapsedUs := by
  rw [clearStep, histogramIncr, Option.map_map]
  rfl

theorem clearStep_cases {st st' : ClearState} {e : ClearEvent} (h : clearStep st e = some st') :
    (∃ elapsedUs c, e = .incr elapsedUs ∧ histogramCell st.hist elapsedUs = some c ∧ st' = st.incr c) ∨
    (∃ periodDurationUs, e = .begin periodDurationUs ∧ st.pass = none ∧ st' = { st.swap .underflow with
      pass := some ⟨periodDurationUs, st.hist.counts .underflow, [], (st.hist.counts .underflow).toUInt64⟩ }) ∨
    (∃ p, e = .exchange ∧ st.pass = some p ∧ p.cnts.length < st.hist.nBuckets ∧ st' = { st.swap (.bucket p.cnts.length) with
      pass := some { p with
        cnts := p.cnts ++ [st.hist.counts (.bucket p.cnts.length)]
        totalCnt := p.totalCnt + (st.hist.counts (.bucket p.cnts.length)).toUInt64 } }) ∨
    (∃ p line, e = .exchange ∧ st.pass = some p ∧ st.hist.nBuckets ≤ p.cnts.length ∧
      printLine st.hist p.periodDurationUs (p.totalCnt + (st.hist.counts .overflow).toUInt64) p.underflowCnt
        (st.hist.counts .overflow) p.cnts = some line ∧
      st' = { st.swap .overflow with pass := none, lines := st.lines ++ [line] }) := by
  cases e with
  | incr elapsedUs =>
    obtain ⟨c, hc, rfl⟩ := Option.map_eq_some_iff.mp h
    exact .inl ⟨elapsedUs, c, rfl, hc, rfl⟩
  | begin periodDurationUs =>
    cases hpass : st.pass with
    | some p => simp [clearStep, hpass] at h
    | none =>
      simp only [clearStep, hpass, Option.some.injEq] at h
      exact .inr (.inl ⟨periodDurationUs, rfl, rfl, h.symm⟩)
  | exchange =>
    cases hpass : st.pass with
    | none => simp [clearStep, hpass] at h
    | some p =>
      simp only [clearStep, hpass] at h
      split at h
      · next hmore => exact .inr (.inr (.inl ⟨p, rfl, rfl, hmore, (Option.some.inj h).symm⟩))
      · next hlast =>
        obtain ⟨line, hline, rfl⟩ := Option.map_eq_some_iff.mp h
        exact .inr (.inr (.inr ⟨p, line, rfl, rfl, Nat.not_lt.mp hlast, hline, rfl⟩))

/-! ## The invariant -/

/-- A histogram laid out as `h`, whatever its counts. -/
def LaidOutAs (h h' : Histogram) : Prop := ∃ counts, h' = { h with counts := counts }

/-- What holds while threads count into a histogram and it is cleared. -/
structure ClearInv (h : Histogram) (st : ClearState) : Prop where
  layout : LaidOutAs h st.hist
  since : ∀ c, (st.hist.counts c).toNat = st.since c
  taken : ∀ c, st.taken c + st.since c = st.increments c
  -- the total so far is that of the counts so far
  pass : ∀ p, st.pass = some p → p.cnts.length ≤ h.nBuckets ∧ p.totalCnt.toNat = p.underflowCnt.toNat + sumOf p.cnts
  lines : ∀ line ∈ st.lines, line.totalCnt.toNat = sumCounts line.entries

theorem LaidOutAs.set {h h' : Histogram} (hlayout : LaidOutAs h h') (c : Cell) (cnt : UInt32) : LaidOutAs h (h'.set c cnt) := by
  obtain ⟨counts, rfl⟩ := hlayout
  exact ⟨Function.update counts c cnt, rfl⟩

/-- A total of at most `2 ^ 32 + 1` counts fits 64 bits. -/
theorem toNat_add_count {total : UInt64} {n : Nat} (htotal : total.toNat ≤ n * (2 ^ 32 - 1)) (hn : n ≤ 2 ^ 32) (cnt : UInt32) :
    (total + cnt.toUInt64).toNat = total.toNat + cnt.toNat := by
  have hlt := cnt.toNat_lt
  have hle : n * (2 ^ 32 - 1) ≤ 2 ^ 32 * (2 ^ 32 - 1) := Nat.mul_le_mul_right _ hn
  rw [UInt64.toNat_add, UInt32.toNat_toUInt64, Nat.mod_eq_of_lt (by omega)]

namespace ClearInv

variable {h : Histogram} {st : ClearState}

theorem init (hzero : ∀ c, h.counts c = 0) : ClearInv h (ClearState.init h) where
  layout := ⟨h.counts, rfl⟩
  since c := by
    rw [ClearState.init, hzero c]
    rfl
  taken _ := rfl
  pass _ hpass := by cases hpass
  lines _ hline := absurd hline List.not_mem_nil

theorem incr (hinv : ClearInv h st) {c : Cell} (hfit : st.since c + 1 < 2 ^ 32) : ClearInv h (st.incr c) where
  layout := hinv.layout.set c _
  since d := by
    by_cases hd : d = c
    · subst hd
      simp only [ClearState.incr, Histogram.set, Function.update_self]
      rw [UInt32.toNat_add, hinv.since]
      exact Nat.mod_eq_of_lt hfit
    · simp only [ClearState.incr, Histogram.set, Function.update_of_ne hd]
      exact hinv.since d
  taken d := by
    have htaken := hinv.taken d
    by_cases hd : d = c
    · subst hd
      simp only [ClearState.incr, Function.update_self]
      omega
    · simp only [ClearState.incr, Function.update_of_ne hd]
      exact htaken
  pass := hinv.pass
  lines := hinv.lines

/-- An exchange, with what the print does besides. -/
theorem swap (hinv : ClearInv h st) (c : Cell) {pass : Option ClearPass} {lines : List HistogramLine}
    (hpass : ∀ p, pass = some p → p.cnts.length ≤ h.nBuckets ∧ p.totalCnt.toNat = p.underflowCnt.toNat + sumOf p.cnts)
    (hlines : ∀ line ∈ lines, line.totalCnt.toNat = sumCounts line.entries) :
    ClearInv h { st.swap c with pass := pass, lines := lines } where
  layout := hinv.layout.set c 0
  since d := by
    by_cases hd : d = c
    · subst hd
      simp only [ClearState.swap, Histogram.set, Function.update_self]
      rfl
    · simp only [ClearState.swap, Histogram.set, Function.update_of_ne hd]
      exact hinv.since d
  taken d := by
    have htaken := hinv.taken d
    have hsince := hinv.since d
    by_cases hd : d = c
    · subst hd
      simp only [ClearState.swap, Function.update_self]
      omega
    · simp only [ClearState.swap, Function.update_of_ne hd]
      exact htaken
  pass := hpass
  lines := hlines

/-- The total of a pass has room for another count. -/
theorem totalCnt_le (hinv : ClearInv h st) {p : ClearPass} (hpass : st.pass = some p) :
    p.totalCnt.toNat ≤ (p.cnts.length + 1) * (2 ^ 32 - 1) := by
  obtain ⟨-, htotal⟩ := hinv.pass p hpass
  have hlt := p.underflowCnt.toNat_lt
  have hle := sumOf_le p.cnts
  omega

/-- The line printed at the end of a pass. -/
theorem line (hinv : ClearInv h st) (hbuckets : h.nBuckets = (h.bounds.map BucketRangeDesc.nBuckets).sum % 2 ^ 32) {p : ClearPass}
    (hpass : st.pass = some p) (hlast : st.hist.nBuckets ≤ p.cnts.length) {overflowCnt : UInt32} {line : HistogramLine}
    (hline : printLine st.hist p.periodDurationUs (p.totalCnt + overflowCnt.toUInt64) p.underflowCnt overflowCnt p.cnts = some line) :
    line.totalCnt.toNat = sumCounts line.entries := by
  obtain ⟨counts, hhist⟩ := hinv.layout
  obtain ⟨hlen, htotal⟩ := hinv.pass p hpass
  rw [hhist] at hlast hline
  obtain ⟨entries, hentries, rfl⟩ := Option.map_eq_some_iff.mp hline
  obtain ⟨hsum, hwithin⟩ := printRanges_sum hentries
  have hmod := Nat.mod_lt (h.bounds.map BucketRangeDesc.nBuckets).sum (show 0 < 2 ^ 32 by decide)
  have hle := Nat.mod_le (h.bounds.map BucketRangeDesc.nBuckets).sum (2 ^ 32)
  dsimp only at hlast hsum hwithin
  -- the counts are as many as the buckets of the ranges
  have hall : (p.cnts.drop 0).take (h.bounds.map BucketRangeDesc.nBuckets).sum = p.cnts := by
    rw [List.drop_zero, List.take_of_length_le (by omega)]
  have hadd := toNat_add_count (hinv.totalCnt_le hpass) (by omega) overflowCnt
  rw [hall] at hsum
  dsimp only
  rw [hadd, htotal, sumCounts_append, sumCounts_append, sumCounts_printCount, sumCounts_printCount, hsum]

end ClearInv

/-- An increment finds fewer than `2 ^ 32 - 1` samples in its counter since the last exchange of it. -/
def SampleFits (st : ClearState) : ClearEvent → Prop
  | .incr elapsedUs => ∀ c, histogramCell st.hist elapsedUs = some c → st.since c + 1 < 2 ^ 32
  | .begin _ | .exchange => True

theorem clearInv_step {h : Histogram} (hbuckets : h.nBuckets = (h.bounds.map BucketRangeDesc.nBuckets).sum % 2 ^ 32) (st : ClearState)
    (e : ClearEvent) (st' : ClearState) (hinv : ClearInv h st) (hfits : SampleFits st e) (hstep : clearStep st e = some st') :
    ClearInv h st' := by
  have hmod := Nat.mod_lt (h.bounds.map BucketRangeDesc.nBuckets).sum (show 0 < 2 ^ 32 by decide)
  obtain ⟨elapsedUs, c, rfl, hc, rfl⟩ | ⟨periodDurationUs, rfl, hpass, rfl⟩ | ⟨p, rfl, hpass, hmore, rfl⟩ |
    ⟨p, line, rfl, hpass, hlast, hline, rfl⟩ := clearStep_cases hstep
  · exact hinv.incr (hfits c hc)
  · refine hinv.swap .underflow ?_ hinv.lines
    rintro p ⟨⟩
    exact ⟨Nat.zero_le _, by simp [sumOf]⟩
  · refine hinv.swap (.bucket p.cnts.length) ?_ hinv.lines
    rintro q ⟨⟩
    obtain ⟨counts, hhist⟩ := hinv.layout
    obtain ⟨hlen, htotal⟩ := hinv.pass p hpass
    rw [hhist] at hmore
    dsimp only at hmore ⊢
    rw [List.length_append, List.length_singleton, toNat_add_count (hinv.totalCnt_le hpass) (by omega), htotal, sumOf_append]
    exact ⟨hmore, by simp [sumOf, Nat.add_assoc]⟩
  · refine hinv.swap .overflow (fun q hq => absurd hq (by simp)) fun l hl => ?_
    rcases List.mem_append.mp hl with hl | hl
    · exact hinv.lines l hl
    · obtain rfl := List.mem_singleton.mp hl
      exact hinv.line hbuckets hpass hlast hline

/-! ## Samples -/

/-- No sample is missed: what has been taken from a counter and what is in it are its increments, and the total on a printed line is
the sum of its counts. -/
structure SamplesKept (st : ClearState) : Prop where
  counted : ∀ c, st.taken c + (st.hist.counts c).toNat = st.increments c
  totals : ∀ line ∈ st.lines, line.totalCnt.toNat = sumCounts line.entries

/-- The code has a next step: an increment finds its counter, and a print-clear can begin or go on. -/
structure Proceeds (st : ClearState) : Prop where
  incr : ∀ elapsedUs, (clearStep st (.incr elapsedUs)).isSome
  printClear : if st.pass.isSome then (clearStep st .exchange).isSome else ∀ d, (clearStep st (.begin d)).isSome

/-- With fewer than `2 ^ 31` buckets the code always has a next step. -/
theorem ClearInv.proceeds {lowb : Nat} {ranges : List RangeSpec} {h : Histogram} (hinit : histogramInit lowb ranges = some h)
    (hsmall : totalBuckets lowb ranges < 2 ^ 31) {name : Option Text} {st : ClearState}
    (hinv : ClearInv { h with name := name } st) : Proceeds st := by
  have hbuckets := nBuckets_eq_sum hinit hsmall
  obtain ⟨counts, hhist⟩ := hinv.layout
  refine ⟨fun elapsedUs => ?_, ?_⟩
  · -- the counter of a delay depends on the layout alone
    obtain ⟨c, hc⟩ := histogramCell_isSome hinit hsmall elapsedUs
    have hsame : histogramCell st.hist elapsedUs = histogramCell h elapsedUs := by
      rw [hhist]
      rfl
    rw [clearStep, hsame, hc]
    rfl
  · cases hpass : st.pass with
    | none => exact fun d => by simp [clearStep, hpass]
    | some p =>
      by_cases hmore : p.cnts.length < st.hist.nBuckets
      · simp [clearStep, hpass, hmore]
      · have hfits : 0 + (st.hist.bounds.map BucketRangeDesc.nBuckets).sum ≤ p.cnts.length := by
          rw [hhist] at hmore ⊢
          dsimp only at hmore ⊢
          omega
        obtain ⟨entries, hentries⟩ := printRanges_isSome 0 hfits
        simp [clearStep, hpass, hmore, printLine, hentries]

/-- For every initialised histogram, named or not, and every interleaving of increments with the exchanges of print-clears, as long
as no counter receives `2 ^ 32` samples between two exchanges of it, no sample is missed in any state reached. If the histogram has
fewer than `2 ^ 31` buckets, which is what its 32-bit indices can address, the code has a next step in each of these states. -/
theorem no_sample_missed (lowb : Nat) (ranges : List RangeSpec) (h : Histogram) (hinit : histogramInit lowb ranges = some h)
    (name : Option Text) (events : List ClearEvent)
    (hfits : Along clearStep SampleFits (ClearState.init { h with name := name }) events) :
    Throughout clearStep SamplesKept (ClearState.init { h with name := name }) events ∧
      (totalBuckets lowb ranges < 2 ^ 31 → Throughout clearStep Proceeds (ClearState.init { h with name := name }) events) := by
  obtain ⟨hloop, -, hzero⟩ := histogramInit_eq hinit
  have hbuckets : h.nBuckets = (h.bounds.map BucketRangeDesc.nBuckets).sum % 2 ^ 32 := by
    rw [histogramInitLoop_total hloop (by decide), Nat.zero_add]
  have hall : Throughout clearStep (ClearInv { h with name := name }) (ClearState.init { h with name := name }) events :=
    throughout_of_along (clearInv_step hbuckets) (ClearInv.init fun c => congrFun hzero c) hfits
  refine ⟨hall.imp fun st hinv => ⟨fun c => ?_, hinv.lines⟩, fun hsmall => hall.imp fun st hinv => hinv.proceeds hinit hsmall⟩
  rw [hinv.since, hinv.taken]

/-- Two buckets of 50 us from 100 us on. -/
def twoBuckets : Histogram := ⟨fun _ => 0, [⟨100, 50, 0, 2⟩], none, 100, 200, 2⟩

/-- A sample in the first bucket, and one below the range while the buckets are being exchanged. -/
def lateSample : List ClearEvent := [.incr 120, .begin 1, .incr 10, .exchange, .exchange, .exchange]

/-- The late sample is not on the line and stays in the histogram. -/
theorem no_sample_missed_late :
    Throughout clearStep SamplesKept (ClearState.init twoBuckets) lateSample ∧
    (run clearStep (ClearState.init twoBuckets) lateSample).map (fun st => (st.lines, st.hist.counts .underflow)) =
      some ([⟨none, 1, 1, [(100, 1)]⟩], 1) := by
  refine ⟨(no_sample_missed 100 [⟨200, 50⟩] twoBuckets rfl none lateSample ?_).1, by decide +kernel⟩
  refine .cons ?_ rfl <| .cons trivial rfl <| .cons ?_ rfl <| .cons trivial rfl <| .cons trivial rfl <| .cons trivial rfl trivial
  · exact fun c _ => (by decide : 0 + 1 < 2 ^ 32)
  · rintro c hc
    obtain rfl : .underflow = c := Option.some.inj hc
    exact (by decide : 0 + 1 < 2 ^ 32)

end AerospikeBenchmark
