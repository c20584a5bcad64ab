import AerospikeBenchmark.Latency.OutputWorker
import AerospikeBenchmark.Lib.Runs

/-!
# Stage headers in the histogram output

The header of a stage is printed while `first_log_of_stage` is set, and the flag is cleared at the first tick of the stage, whether
anything is printed then or not. So a stage has its header exactly if its first tick prints.
-/

namespace AerospikeBenchmark

open CText Runs

/-! ## What is claimed of the output -/

/-- The stage in which a line is printed. -/
def OutLine.stageIdx : OutLine → Nat
  | .header i _ => i
  | .histogram i _ _ => i

/-- The header line of stage `i`. -/
def OutLine.isHeader (i : Nat) : OutLine → Bool
  | .header j _ => j = i
  | .histogram _ _ _ => false

/-- A histogram line of stage `i`. -/
def OutLine.isHistogram (i : Nat) : OutLine → Bool
  | .header _ _ => false
  | .histogram j _ _ => j = i

/-- Stage `i` has its header where it belongs: the first of its histogram lines is right behind a header line of it, there is no other
header line of it, and there is none without histogram lines. -/
structure Headed (out : List OutLine) (i : Nat) : Prop where
  first : (∃ l ∈ out, l.isHistogram i) → ∃ pre h l post, out = pre ++ h :: l :: post ∧ h.isHeader i ∧ l.isHistogram i ∧
    ∀ l' ∈ pre, ¬ l'.isHistogram i
  one : (∃ l ∈ out, l.isHistogram i) → out.countP (·.isHeader i) = 1
  none : (¬ ∃ l ∈ out, l.isHistogram i) → out.countP (·.isHeader i) = 0

/-! ## The ticks of a stage -/

/-- The ticks of each stage, one list after the other; `cur` are the ticks of the current stage so far. -/
def stageTicksFrom : (cur : List Tick) → List Tick → List (List Tick)
  | cur, [] => if cur = [] then [] else [cur]
  | cur, t :: ts => if t.interrupted then (cur ++ [t]) :: stageTicksFrom [] ts else stageTicksFrom (cur ++ [t]) ts

/-- The ticks of each stage. -/
def stageTicks : List Tick → List (List Tick) := stageTicksFrom []

/-- The `k`-th tick of a stage prints. -/
def OutputSetup.Prints (o : OutputSetup) (k : Nat) (t : Tick) : Prop :=
  t.counts.anyRecords = true ∧ (t.interrupted = true ∨ k % 2 ^ 64 % o.period = 0)

/-- The first tick of a stage prints. -/
def OutputSetup.FirstPrints (o : OutputSetup) (ts : List Tick) : Prop := ∃ t, ts[0]? = some t ∧ o.Prints 1 t

/-- Some tick of a stage prints, and there are histograms to print. -/
def OutputSetup.PrintsHistograms (o : OutputSetup) (ts : List Tick) : Prop :=
  o.classes ≠ [] ∧ ∃ k t, ts[k]? = some t ∧ o.Prints (k + 1) t

theorem printsHistograms_append {o : OutputSetup} {ts : List Tick} {t : Tick} :
    o.PrintsHistograms (ts ++ [t]) ↔ o.PrintsHistograms ts ∨ o.classes ≠ [] ∧ o.Prints (ts.length + 1) t := by
  simp only [OutputSetup.PrintsHistograms, ← and_or_left, and_congr_right_iff]
  intro _
  constructor
  · rintro ⟨k, u, hu, hprints⟩
    rcases Nat.lt_trichotomy k ts.length with hk | rfl | hk
    · rw [List.getElem?_append_left hk] at hu
      exact .inl ⟨k, u, hu, hprints⟩
    · rw [List.getElem?_concat_length] at hu
      cases hu
      exact .inr hprints
    · rw [List.getElem?_eq_none (by simpa using hk)] at hu
      cases hu
  · rintro (⟨k, u, hu, hprints⟩ | hprints)
    · refine ⟨k, u, ?_, hprints⟩
      rw [List.getElem?_append_left (List.getElem?_eq_some_iff.mp hu).1, hu]
    · exact ⟨ts.length, t, List.getElem?_concat_length, hprints⟩

theorem firstPrints_append {o : OutputSetup} {ts : List Tick} (hne : ts ≠ []) (t : Tick) :
    o.FirstPrints (ts ++ [t]) ↔ o.FirstPrints ts := by
  unfold OutputSetup.FirstPrints
  rw [List.getElem?_append_left (List.length_pos_iff.mpr hne)]

/-! ## The lines of a stage -/

/-- The lines printed at the ticks `ts` of stage `i`. -/
inductive StageLines (o : OutputSetup) (i : Nat) (ts : List Tick) (lines : List OutLine) : Prop where
  | headed (hs : List OutLine) (heq : lines = .header i (o.desc i) :: hs) (hfirst : o.FirstPrints ts)
      (hhist : ∀ l ∈ hs, l.isHistogram i = true) (hne : hs ≠ [] ↔ o.PrintsHistograms ts)
  | bare (hfirst : ¬ o.FirstPrints ts) (hhist : ∀ l ∈ lines, l.isHistogram i = true) (hne : lines ≠ [] ↔ o.PrintsHistograms ts)

variable {o : OutputSetup} {s s' : OutputState} {t : Tick}

theorem stageIdx_of_isHistogram {i : Nat} {l : OutLine} (h : l.isHistogram i = true) : l.stageIdx = i := by
  cases l with
  | header j d => cases h
  | histogram j c us => simpa [OutLine.isHistogram, OutLine.stageIdx] using h

theorem isHistogram_eq_false {i : Nat} {l : OutLine} (h : l.stageIdx ≠ i) : l.isHistogram i = false := by
  cases l with
  | header j d => rfl
  | histogram j c us => simpa [OutLine.isHistogram, OutLine.stageIdx] using h

theorem isHeader_eq_false {i : Nat} {l : OutLine} (h : l.stageIdx ≠ i) : l.isHeader i = false := by
  cases l with
  | header j d => simpa [OutLine.isHeader, OutLine.stageIdx] using h
  | histogram j c us => rfl

theorem isHeader_of_isHistogram {i : Nat} {l : OutLine} (h : l.isHistogram i = true) : l.isHeader i = false := by
  cases l with
  | header j d => cases h
  | histogram j c us => rfl

theorem StageLines.stageIdx {i : Nat} {ts : List Tick} {lines : List OutLine} (h : StageLines o i ts lines) :
    ∀ l ∈ lines, l.stageIdx = i := by
  cases h with
  | headed hs heq _ hhist _ =>
    subst heq
    intro l hl
    rcases List.mem_cons.mp hl with rfl | hl
    · rfl
    · exact stageIdx_of_isHistogram (hhist l hl)
  | bare _ hhist _ => exact fun l hl => stageIdx_of_isHistogram (hhist l hl)

theorem countP_isHeader_eq_zero {i : Nat} {ls : List OutLine} (h : ∀ l ∈ ls, l.isHeader i = false) : ls.countP (·.isHeader i) = 0 :=
  List.countP_eq_zero.mpr fun l hl => by simp [h l hl]

section

variable {i : Nat} {before after : List OutLine} (hbefore : ∀ l ∈ before, l.stageIdx ≠ i) (hafter : ∀ l ∈ after, l.stageIdx ≠ i)

include hbefore hafter

/-- The headers of a stage are among its lines. -/
theorem countP_isHeader_around (lines : List OutLine) :
    (before ++ lines ++ after).countP (·.isHeader i) = lines.countP (·.isHeader i) := by
  have hzero := countP_isHeader_eq_zero fun l hl => isHeader_eq_false (hbefore l hl)
  have hzero' := countP_isHeader_eq_zero fun l hl => isHeader_eq_false (hafter l hl)
  rw [List.countP_append, List.countP_append, hzero, hzero', Nat.zero_add, Nat.add_zero]

/-- The histograms of a stage are among its lines. -/
theorem exists_isHistogram_around (lines : List OutLine) :
    (∃ l ∈ before ++ lines ++ after, l.isHistogram i) ↔ ∃ l ∈ lines, l.isHistogram i := by
  constructor
  · rintro ⟨l, hl, hhist⟩
    rcases List.mem_append.mp hl with hl | hl
    · rcases List.mem_append.mp hl with hl | hl
      · exact absurd (stageIdx_of_isHistogram hhist) (hbefore l hl)
      · exact ⟨l, hl, hhist⟩
    · exact absurd (stageIdx_of_isHistogram hhist) (hafter l hl)
  · rintro ⟨l, hl, hhist⟩
    exact ⟨l, by simp [hl], hhist⟩

/-- The stage has its header where it belongs exactly if its first tick prints when any does. -/
theorem headed_iff {ts : List Tick} {lines : List OutLine} (hlines : StageLines o i ts lines) :
    Headed (before ++ lines ++ after) i ↔ (o.FirstPrints ts ↔ o.PrintsHistograms ts) := by
  have hcount := countP_isHeader_around hbefore hafter lines
  have hsome := exists_isHistogram_around hbefore hafter lines
  cases hlines with
  | headed hs heq hfirst hhist hne =>
    subst heq
    have hone : (OutLine.header i (o.desc i) :: hs).countP (·.isHeader i) = 1 := by
      rw [List.countP_cons, countP_isHeader_eq_zero fun l hl => isHeader_of_isHistogram (hhist l hl)]
      simp [OutLine.isHeader]
    rw [iff_true_left hfirst, ← hne]
    constructor
    · rintro h rfl
      have hzero := h.none (by rw [hsome]; simp [OutLine.isHistogram])
      omega
    · intro hcons
      obtain ⟨l, ls, rfl⟩ := List.exists_cons_of_ne_nil hcons
      have hl : l.isHistogram i = true := hhist l List.mem_cons_self
      refine ⟨fun _ => ⟨before, .header i (o.desc i), l, ls ++ after, by simp, by simp [OutLine.isHeader], hl, ?_⟩,
        fun _ => hcount.trans hone, fun hno => absurd (hsome.mpr ⟨l, by simp, hl⟩) hno⟩
      intro l' hl'
      simp [isHistogram_eq_false (hbefore l' hl')]
  | bare hfirst hhist hne =>
    have hzero : lines.countP (·.isHeader i) = 0 := countP_isHeader_eq_zero fun l hl => isHeader_of_isHistogram (hhist l hl)
    have hexists : (∃ l ∈ lines, l.isHistogram i) ↔ lines ≠ [] := by
      constructor
      · rintro ⟨l, hl, -⟩
        exact List.ne_nil_of_mem hl
      · intro hcons
        obtain ⟨l, hl⟩ := List.exists_mem_of_ne_nil lines hcons
        exact ⟨l, hl, hhist l hl⟩
    rw [iff_false_left hfirst, ← hne, ← hexists, ← hsome]
    constructor
    · intro h hprinted
      have := h.one hprinted
      omega
    · intro hno
      exact ⟨fun h => absurd h hno, fun h => absurd h hno, fun _ => hcount.trans hzero⟩

end

/-! ## One tick -/

/-- What a tick does to the state, besides printing. -/
inductive TickEffect (o : OutputSetup) (s s' : OutputState) (t : Tick) : Prop where
  | stay (hstatus : t.interrupted = false) (hgen : s'.genCount = s.genCount + 1) (hfirst : s'.firstLogOfStage = false)
      (hstage : s'.stageIdx = s.stageIdx)
  | next (hstatus : t.interrupted = true) (hgen : s'.genCount = 0) (hfirst : s'.firstLogOfStage = true)
      (hstage : s'.stageIdx = s.stageIdx + 1)
  | finish (hstatus : t.interrupted = true) (hfinished : s'.finished = true)

theorem outputTick_cases (h : outputTick o s t = some s') : s'.output = s.output ++ tickLines o s t ∧ TickEffect o s s' t := by
  unfold outputTick at h
  split at h
  · cases h
  dsimp only at h
  split at h
  · next hstatus =>
    split at h
    · cases h
      exact ⟨rfl, .finish hstatus rfl⟩
    · cases h
      exact ⟨rfl, .next hstatus rfl rfl rfl⟩
  · next hstatus =>
    cases h
    exact ⟨rfl, .stay (Bool.of_not_eq_true hstatus) rfl rfl rfl⟩

/-- The state at a tick of a stage: the generation counts the ticks of the stage before, and the flag tells whether there are none. -/
structure AtTick (s : OutputState) (cur : List Tick) : Prop where
  genCount : s.genCount.toNat = cur.length % 2 ^ 64
  firstLog : s.firstLogOfStage = true ↔ cur = []

theorem timeToPrint_iff {cur : List Tick} (hs : AtTick s cur) :
    (o.timeToPrint (s.genCount + 1) t && t.counts.anyRecords) = true ↔ o.Prints (cur.length + 1) t := by
  have hgen : (s.genCount + 1).toNat = (cur.length + 1) % 2 ^ 64 := by
    rw [UInt64.toNat_add, hs.genCount]
    simp
  simp only [OutputSetup.timeToPrint, OutputSetup.Prints, hgen, Bool.and_eq_true, Bool.or_eq_true, beq_iff_eq]
  exact and_comm

theorem tickLines_of_not_prints {cur : List Tick} (hs : AtTick s cur) (h : ¬ o.Prints (cur.length + 1) t) : tickLines o s t = [] := by
  unfold tickLines
  rw [if_neg (mt (timeToPrint_iff hs).mp h)]

theorem tickLines_of_prints {cur : List Tick} (hs : AtTick s cur) (h : o.Prints (cur.length + 1) t) :
    tickLines o s t = printHistograms o s t := by
  unfold tickLines
  rw [if_pos ((timeToPrint_iff hs).mpr h)]

/-- A tick that prints nothing. -/
theorem StageLines.skip {i : Nat} {cur : List Tick} {lines : List OutLine} (h : StageLines o i cur lines)
    (hprints : ¬ o.Prints (cur.length + 1) t) : StageLines o i (cur ++ [t]) lines := by
  have hhist : o.PrintsHistograms (cur ++ [t]) ↔ o.PrintsHistograms cur := by
    simp [printsHistograms_append, hprints]
  have hfirst : o.FirstPrints (cur ++ [t]) ↔ o.FirstPrints cur := by
    by_cases hcur : cur = []
    · subst hcur
      simpa [OutputSetup.FirstPrints] using hprints
    · exact firstPrints_append hcur t
  cases h with
  | headed hs heq hf hh hne => exact .headed hs heq (hfirst.mpr hf) hh (hne.trans hhist.symm)
  | bare hf hh hne => exact .bare (mt hfirst.mp hf) hh (hne.trans hhist.symm)

/-- Nothing has been printed before the first tick. -/
theorem StageLines.eq_nil {i : Nat} {lines : List OutLine} (h : StageLines o i [] lines) : lines = [] := by
  cases h with
  | headed hs heq hf hh hne => simp [OutputSetup.FirstPrints] at hf
  | bare hf hh hne => simpa [OutputSetup.PrintsHistograms] using hne

theorem stageLines_nil (o : OutputSetup) (i : Nat) : StageLines o i [] [] :=
  .bare (by simp [OutputSetup.FirstPrints]) nofun (by simp [OutputSetup.PrintsHistograms])

/-- A tick that prints histograms without a header. -/
theorem StageLines.print {i : Nat} {cur : List Tick} {lines more : List OutLine} (h : StageLines o i cur lines) (hcur : cur ≠ [])
    (hprints : o.Prints (cur.length + 1) t) (hmore : ∀ l ∈ more, l.isHistogram i = true) (hne : more ≠ [] ↔ o.classes ≠ []) :
    StageLines o i (cur ++ [t]) (lines ++ more) := by
  have happend {hs : List OutLine} (hhist : ∀ l ∈ hs, l.isHistogram i = true) : ∀ l ∈ hs ++ more, l.isHistogram i = true := by
    intro l hl
    exact (List.mem_append.mp hl).elim (hhist l) (hmore l)
  have hhist {hs : List OutLine} (hhs : hs ≠ [] ↔ o.PrintsHistograms cur) : hs ++ more ≠ [] ↔ o.PrintsHistograms (cur ++ [t]) := by
    rw [printsHistograms_append, ← hhs, ← hne, and_iff_left hprints, Ne, List.append_eq_nil_iff, Classical.not_and_iff_not_or_not]
  have hfirst := firstPrints_append (o := o) hcur t
  cases h with
  | headed hs heq hf hh hhs =>
    subst heq
    exact .headed (hs ++ more) rfl (hfirst.mpr hf) (happend hh) (hhist hhs)
  | bare hf hh hhs => exact .bare (mt hfirst.mp hf) (happend hh) (hhist hhs)

/-- One more tick of a stage. -/
theorem stageLines_tick {cur : List Tick} {lines : List OutLine} (hs : AtTick s cur) (h : StageLines o s.stageIdx cur lines) :
    StageLines o s.stageIdx (cur ++ [t]) (lines ++ tickLines o s t) := by
  by_cases hprints : o.Prints (cur.length + 1) t
  · rw [tickLines_of_prints hs hprints, printHistograms]
    have hmore : ∀ l ∈ o.classes.map (OutLine.histogram s.stageIdx · (t.time - s.prevTimeHist)), l.isHistogram s.stageIdx = true := by
      intro l hl
      obtain ⟨c, -, rfl⟩ := List.mem_map.mp hl
      simp [OutLine.isHistogram]
    by_cases hcur : cur = []
    · subst hcur
      obtain rfl := h.eq_nil
      rw [if_pos (hs.firstLog.mpr rfl)]
      refine .headed _ rfl ⟨t, rfl, hprints⟩ hmore ?_
      rw [printsHistograms_append, and_iff_left hprints]
      simp [OutputSetup.PrintsHistograms]
    · rw [if_neg (mt hs.firstLog.mp hcur), List.nil_append]
      exact h.print hcur hprints hmore (by simp)
  · rw [tickLines_of_not_prints hs hprints, List.append_nil]
    exact h.skip hprints

/-! ## A run -/

theorem stageTicksFrom_ne_nil {cur : List Tick} (hcur : cur ≠ []) (ticks : List Tick) : stageTicksFrom cur ticks ≠ [] := by
  induction ticks generalizing cur with
  | nil => simp [stageTicksFrom, hcur]
  | cons t ticks ih =>
    unfold stageTicksFrom
    split
    · exact List.cons_ne_nil _ _
    · exact ih (by simp)

/-- The output has gone on from `out` to `out'` with the lines of the stages from `i` on, whose ticks are given. The ticks and the
lines of stage `i` may have begun before. -/
structure Continues (o : OutputSetup) (i : Nat) (tss : List (List Tick)) (out out' : List OutLine) : Prop where
  added : ∃ more, out' = out ++ more ∧ ∀ l ∈ more, i ≤ l.stageIdx ∧ l.stageIdx < i + tss.length
  stages : ∀ j ts, tss[j]? = some ts → ∃ before lines after, out' = before ++ lines ++ after ∧ StageLines o (i + j) ts lines ∧
    (∀ l ∈ before, l.stageIdx ≠ i + j) ∧ ∀ l ∈ after, l.stageIdx ≠ i + j

section

variable {i : Nat} {ts : List Tick} {tss : List (List Tick)} {before lines ls out out₁ out' : List OutLine}

/-- The lines of the last stage. -/
theorem continues_last (hadded : out' = out ++ ls) (hls : ∀ l ∈ ls, l.stageIdx = i) (hout : out' = before ++ lines)
    (hbefore : ∀ l ∈ before, l.stageIdx < i) (hlines : StageLines o i ts lines) : Continues o i [ts] out out' := by
  refine ⟨⟨ls, hadded, fun l hl => by simp [hls l hl]⟩, fun j ts' hts => ?_⟩
  obtain ⟨rfl, rfl⟩ : j = 0 ∧ ts = ts' := by simpa [List.getElem?_singleton] using hts
  exact ⟨before, lines, [], by rw [hout, List.append_nil], hlines, fun l hl => (hbefore l hl).ne, nofun⟩

/-- Lines of the current stage before those of the rest of the run. -/
theorem Continues.stay (h : Continues o i tss out₁ out') (hadded : out₁ = out ++ ls) (hls : ∀ l ∈ ls, l.stageIdx = i)
    (htss : tss ≠ []) : Continues o i tss out out' := by
  obtain ⟨⟨more, hmore, hrange⟩, hstages⟩ := h
  refine ⟨⟨ls ++ more, by rw [hmore, hadded, List.append_assoc], fun l hl => ?_⟩, hstages⟩
  rcases List.mem_append.mp hl with hl | hl
  · have := List.length_pos_iff.mpr htss
    have := hls l hl
    omega
  · exact hrange l hl

/-- The last lines of a stage before the lines of the stages after it. -/
theorem Continues.next (h : Continues o (i + 1) tss out₁ out') (hadded : out₁ = out ++ ls) (hls : ∀ l ∈ ls, l.stageIdx = i)
    (hout : out₁ = before ++ lines) (hbefore : ∀ l ∈ before, l.stageIdx < i) (hlines : StageLines o i ts lines) :
    Continues o i (ts :: tss) out out' := by
  obtain ⟨⟨more, hmore, hrange⟩, hstages⟩ := h
  refine ⟨⟨ls ++ more, by rw [hmore, hadded, List.append_assoc], fun l hl => ?_⟩, fun j ts' hts => ?_⟩
  · rw [List.length_cons]
    rcases List.mem_append.mp hl with hl | hl
    · have := hls l hl
      omega
    · have := hrange l hl
      omega
  · cases j with
    | zero =>
      cases hts
      refine ⟨before, lines, more, by rw [hmore, hout], hlines, fun l hl => (hbefore l hl).ne, fun l hl => ?_⟩
      have := hrange l hl
      omega
    | succ j =>
      rw [show i + (j + 1) = i + 1 + j by omega]
      exact hstages j ts' hts

end

/-- A run goes on with the lines of the stages: `cur` are the ticks and `lines` the lines of the current one before the run. -/
theorem run_continues {ticks cur : List Tick} {before lines : List OutLine} (hs : AtTick s cur) (hout : s.output = before ++ lines)
    (hbefore : ∀ l ∈ before, l.stageIdx < s.stageIdx) (hlines : StageLines o s.stageIdx cur lines)
    (h : run (outputTick o) s ticks = some s') : Continues o s.stageIdx (stageTicksFrom cur ticks) s.output s'.output := by
  induction ticks generalizing s cur before lines with
  | nil =>
    obtain rfl : s = s' := Option.some.inj h
    unfold stageTicksFrom
    split
    · exact ⟨⟨[], by simp, nofun⟩, fun j ts hts => by cases hts⟩
    · exact continues_last (List.append_nil _).symm nofun hout hbefore hlines
  | cons t ticks ih =>
    obtain ⟨u, hu, hrun⟩ := run_cons h
    obtain ⟨houtput, heffect⟩ := outputTick_cases hu
    have hlines' := stageLines_tick (t := t) hs hlines
    have hout' : u.output = before ++ (lines ++ tickLines o s t) := by rw [houtput, hout, List.append_assoc]
    have htick : ∀ l ∈ tickLines o s t, l.stageIdx = s.stageIdx := fun l hl => hlines'.stageIdx l (List.mem_append_right _ hl)
    cases heffect with
    | stay hstatus hgen hfirst hstage =>
      rw [stageTicksFrom, if_neg (by simp [hstatus])]
      have hat : AtTick u (cur ++ [t]) := by
        refine ⟨?_, by simp [hfirst]⟩
        rw [hgen, UInt64.toNat_add, hs.genCount]
        simp
      have hrest := ih hat hout' (hstage ▸ hbefore) (hstage ▸ hlines') hrun
      rw [hstage] at hrest
      exact hrest.stay houtput htick (stageTicksFrom_ne_nil (by simp) ticks)
    | next hstatus hgen hfirst hstage =>
      rw [stageTicksFrom, if_pos hstatus]
      have hat : AtTick u [] := ⟨by simp [hgen], by simp [hfirst]⟩
      have hused : ∀ l ∈ u.output, l.stageIdx < u.stageIdx := by
        intro l hl
        rw [hstage, Nat.lt_succ_iff]
        rw [hout'] at hl
        rcases List.mem_append.mp hl with hl | hl
        · exact (hbefore l hl).le
        · exact (hlines'.stageIdx l hl).le
      have hrest := ih hat (List.append_nil _).symm hused (stageLines_nil o u.stageIdx) hrun
      rw [hstage] at hrest
      exact hrest.next houtput htick hout' hbefore hlines'
    | finish hstatus hfinished =>
      -- no tick follows
      cases ticks with
      | cons t' ticks =>
        obtain ⟨v, hv, -⟩ := run_cons hrun
        simp [outputTick, hfinished] at hv
      | nil =>
        obtain rfl : u = s' := Option.some.inj hrun
        have htss : stageTicksFrom cur [t] = [cur ++ [t]] := by simp [stageTicksFrom, hstatus]
        rw [htss]
        exact continues_last houtput htick hout' hbefore hlines'

/-- Stage headers. In the output of every run a stage has its header where it belongs exactly if, in case it has ticks at all, its
first tick prints just if it prints histograms at some tick. -/
theorem stage_headed_iff (o : OutputSetup) (startTime : UInt64) (ticks : List Tick) (s : OutputState)
    (h : run (outputTick o) (.start startTime) ticks = some s) (i : Nat) :
    Headed s.output i ↔ ∀ ts, (stageTicks ticks)[i]? = some ts → (o.FirstPrints ts ↔ o.PrintsHistograms ts) := by
  have hstart : AtTick (.start startTime) [] := ⟨rfl, by simp [OutputState.start]⟩
  have hempty : (OutputState.start startTime).output = [] ++ [] := rfl
  obtain ⟨⟨more, hmore, hadded⟩, hstages⟩ := run_continues hstart hempty (List.forall_mem_nil _) (stageLines_nil o _) h
  simp only [OutputState.start, Nat.zero_add, List.nil_append] at hmore hadded hstages
  cases hts : (stageTicks ticks)[i]? with
  | none =>
    have hnone : ∀ l ∈ s.output, l.stageIdx ≠ i := by
      intro l hl
      have hlt := (hadded l (hmore ▸ hl)).2
      have hle := List.getElem?_eq_none_iff.mp hts
      exact (Nat.lt_of_lt_of_le hlt hle).ne
    have hheaded := headed_iff hnone (List.forall_mem_nil _) (stageLines_nil o i)
    rw [List.append_nil, List.append_nil] at hheaded
    simp [hheaded, OutputSetup.FirstPrints, OutputSetup.PrintsHistograms]
  | some ts =>
    obtain ⟨before, lines, after, hout, hlines, hbefore, hafter⟩ := hstages i ts hts
    rw [hout, headed_iff hbefore hafter hlines]
    simp

/-- One stage of writes, printed every second. -/
def everySecond : OutputSetup := ⟨⟨false, true, false⟩, 1, fun _ => none, 1, by decide⟩

/-- A tick at which one write is counted. -/
def writeTick (interrupted : Bool) (time : UInt64) : Tick := ⟨interrupted, { writeCount := 1 }, time, time⟩

theorem stage_headed_iff_two_ticks :
    Headed [.header 0 none, .histogram 0 .write 1000000, .histogram 0 .write 1000000] 0 :=
  (stage_headed_iff everySecond 0 [writeTick false 1000000, writeTick true 2000000]
    ⟨1, 1000000, false, 0, true, [.header 0 none, .histogram 0 .write 1000000, .histogram 0 .write 1000000]⟩ (by decide +kernel) 0).mpr
    fun _ hts => by
      cases hts
      exact iff_of_true ⟨_, rfl, by decide, .inr (by decide)⟩ ⟨by decide, 0, _, rfl, by decide, .inr (by decide)⟩

/-- With a period of two seconds the first tick does not print, and the histograms have no header. -/
theorem histograms_without_header :
    (run (outputTick { everySecond with period := 2, period_pos := by decide }) (.start 0)
      [writeTick false 1000000, writeTick true 2000000]).map OutputState.output = some [.histogram 0 .write 2000000] ∧
      ¬ Headed [.histogram 0 .write 2000000] 0 := by
  refine ⟨by decide +kernel, fun h => ?_⟩
  have hone := h.one ⟨_, List.mem_cons_self, rfl⟩
  exact absurd hone (by decide)

end AerospikeBenchmark
