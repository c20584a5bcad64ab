import AerospikeBenchmark.Lemmas.Accepted
import AerospikeBenchmark.Theorems.HistogramUses
import AerospikeBenchmark.Transaction.Reads

/-!
# Reads and the share of reads on all bins

Writes compare a die with `write_all_pct`. Reads roll no die: they ask for the bins of `read_bins` whenever the stage has them, and
for all bins otherwise. So `read_all_pct` is honoured only by stages for which the two rules never differ.
-/

namespace AerospikeBenchmark

open CText Words

/-- What a read should ask for when its die shows `die`. -/
def rolledRequest (cast : FpNum → Nat) (s : Stage) (die : Nat) : BinsRequest :=
  if die < pctToFp cast s.workload.readAllPct then .allBins else s.requestedBins

/-- The reads of a stage honour `read_all_pct`: whatever the die shows, every record is read as it says; with 100 all records are
read with all bins, with 0 none is, and in between some are. -/
structure HonoursReadAllPct (cast : FpNum → Nat) (s : Stage) : Prop where
  roll : ∀ ws call src, s.read (some ws) = .ok (call, src) → ∀ die < 2 ^ 24, ∀ b ∈ call.requests, b = rolledRequest cast s die
  hundred : s.workload.readAllPct.eq (.num 100) = true →
    ∀ ws call src, s.read (some ws) = .ok (call, src) → ∀ b ∈ call.requests, b = .allBins
  zero : s.workload.readAllPct.eq (.num 0) = true →
    ∀ ws call src, s.read (some ws) = .ok (call, src) → .allBins ∉ call.requests
  between : (FpNum.num 0).lt s.workload.readAllPct = true → s.workload.readAllPct.lt (.num 100) = true →
    ∃ ws call src, (∀ w ∈ ws, w < 2 ^ 64) ∧ s.read (some ws) = .ok (call, src) ∧ .allBins ∈ call.requests

/-- All requests of the reads of a stage are those of its selection, and there are some. -/
theorem forall_requests_iff (s : Stage) (P : BinsRequest → Prop) :
    (∀ ws call src, s.read (some ws) = .ok (call, src) → ∀ b ∈ call.requests, P b) ↔ P s.requestedBins := by
  constructor
  · intro h
    obtain ⟨ws, call, src, -, hread⟩ := exists_read s
    obtain ⟨hne, hsame⟩ := requests_read hread
    obtain ⟨b, hb⟩ := List.exists_mem_of_ne_nil _ hne
    exact hsame b hb ▸ h ws call src hread b hb
  · intro h ws call src hread b hb
    exact (requests_read hread).2 b hb ▸ h

/-- A stage that asks for a selection of bins honours the share exactly when it is nothing. -/
theorem honoursReadAllPct_of_bins (cast : FpNum → Nat) {s : Stage} {names : List Text} (hbins : s.readBins = some names) :
    HonoursReadAllPct cast s ↔ pctToFp cast s.workload.readAllPct = 0 ∧
      ¬ ((FpNum.num 0).lt s.workload.readAllPct = true ∧ s.workload.readAllPct.lt (.num 100) = true) := by
  have hreq : s.requestedBins = .bins names := by simp [Stage.requestedBins, hbins]
  constructor
  · intro h
    refine ⟨?_, ?_⟩
    · by_contra hpos
      have hroll := (forall_requests_iff s fun b => b = rolledRequest cast s 0).mp fun ws call src hread =>
        h.roll ws call src hread 0 (by decide)
      rw [rolledRequest, if_pos (Nat.pos_of_ne_zero hpos), hreq] at hroll
      cases hroll
    · intro ⟨hlow, hhigh⟩
      obtain ⟨ws, call, src, -, hread, hall⟩ := h.between hlow hhigh
      have hsame := (requests_read hread).2 _ hall
      rw [hreq] at hsame
      cases hsame
  · intro ⟨hzero, hbetween⟩
    refine ⟨?_, ?_, ?_, ?_⟩
    · intro ws call src hread die _ b hb
      rw [rolledRequest, hzero, if_neg (Nat.not_lt_zero die)]
      exact (requests_read hread).2 b hb
    · intro hhundred
      rw [FpNum.eq_of_eq hhundred, pctToFp_hundred] at hzero
      cases hzero
    · intro _ ws call src hread hall
      have hsame := (requests_read hread).2 _ hall
      rw [hreq] at hsame
      cases hsame
    · intro hlow hhigh
      exact absurd ⟨hlow, hhigh⟩ hbetween

/-- A stage that always asks for all bins honours a share that is not below 100. -/
theorem honoursReadAllPct_of_all (cast : FpNum → Nat) {s : Stage} (hnone : s.readBins = none)
    (hpct : s.workload.readAllPct.lt (.num 100) = false) : HonoursReadAllPct cast s := by
  have hreq : s.requestedBins = .allBins := by simp [Stage.requestedBins, hnone]
  refine ⟨?_, ?_, ?_, ?_⟩
  · intro ws call src hread die _ b hb
    rw [(requests_read hread).2 b hb, rolledRequest, hreq]
    split <;> rfl
  · intro _ ws call src hread b hb
    rw [(requests_read hread).2 b hb, hreq]
  · intro hzero
    rw [FpNum.eq_of_eq hzero] at hpct
    cases hpct
  · intro _ hhigh
    rw [hpct] at hhigh
    cases hhigh

/-- The reads of an accepted stage with reads honour `read_all_pct` exactly when the stage has no selection of bins for its reads, or
when the share is 0 in fixed point and not between 0 and 100. -/
theorem read_all_pct_honoured_iff (R : AsRandom) (cast : FpNum → Nat) (args : StageArgs) (mem : Nat → Stage)
    (defs : List StageDef) (stages : List Stage) (haccept : stagesSetDefaultsAndParse R args mem defs = .ok stages) (s : Stage)
    (hs : s ∈ stages) (hreads : s.workload.containsReads = true) :
    HonoursReadAllPct cast s ↔ s.readBins = none ∨ (pctToFp cast s.workload.readAllPct = 0 ∧
      ¬ ((FpNum.num 0).lt s.workload.readAllPct = true ∧ s.workload.readAllPct.lt (.num 100) = true)) := by
  cases hbins : s.readBins with
  | none => exact ⟨fun _ => .inl rfl, fun _ => honoursReadAllPct_of_all cast hbins (readAllPct_of_accepted haccept hs hreads hbins)⟩
  | some names => simpa using honoursReadAllPct_of_bins cast hbins

/-- Random reads and writes with the default percentages. -/
theorem read_all_pct_honoured_default : HonoursReadAllPct (fun _ => 0) readsAndWrites :=
  (read_all_pct_honoured_iff .littleEndian (fun _ => 0) .defaults (fun _ => readsAndWrites) [StageDef.ofWorkload ['R', 'U']]
    [readsAndWrites] (by decide +kernel) readsAndWrites (List.mem_singleton_self _) (by decide)).mpr (.inl rfl)

/-- Random reads and writes, half of the reads on all bins. -/
def halfReadAll : Stage :=
  { Stage.ofWorkload ⟨.ru, .num 50, .nan, .num 50, .num 100⟩ 1 1000001 with
    readBins := some [['t', 'e', 's', 't', 'b', 'i', 'n']] }

/-- The stage is accepted, and no stream of words makes one of its reads ask for all bins. -/
theorem half_read_all_never_reads_all :
    stagesSetDefaultsAndParse .littleEndian .defaults (fun _ => readsAndWrites)
      [StageDef.ofWorkload ['R', 'U', ',', '5', '0', ',', '5', '0']] = .ok [halfReadAll] ∧
    halfReadAll.workload.containsReads = true ∧ (FpNum.num 0).lt halfReadAll.workload.readAllPct = true ∧
    halfReadAll.workload.readAllPct.lt (.num 100) = true ∧
    (∀ ws call src, halfReadAll.read (some ws) = .ok (call, src) → .allBins ∉ call.requests) ∧
    halfReadAll.read (some [2 ^ 64 - 1]) = .ok (.single 551616 (.bins [['t', 'e', 's', 't', 'b', 'i', 'n']]), some []) := by
  refine ⟨by decide +kernel, by decide, by decide, by decide, ?_, by decide +kernel⟩
  intro ws call src hread hall
  cases (requests_read hread).2 _ hall

end AerospikeBenchmark
