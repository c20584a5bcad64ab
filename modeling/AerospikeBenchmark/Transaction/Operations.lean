import AerospikeBenchmark.Transaction.Accounting

/-!
# The operations of a stage

Which operation a round of a stage performs, and how the synchronous routines account for it. The linear workloads always do the
same; the random ones compare a die of 24 bits with the percentages in fixed point.
-/

namespace AerospikeBenchmark

open CText

/-- The kinds of operation. -/
inductive OpKind where
  | read
  | write
  | delete
  | udf
deriving DecidableEq, Repr

/-- The class under which an operation is accounted. -/
def OpKind.opClass : OpKind → OpClass
  | .read => .read
  | .write | .delete => .write
  | .udf => .udf

/-! ## The die -/

/-- `_pct_to_fp`. The conversion of a number that does not fit, such as a NaN, is undefined: it gives whatever `cast` says. -/
def pctToFp (cast : FpNum → Nat) (pct : FpNum) : Nat :=
  ((binary32.unscale 100 (binary32.scale (2 ^ 24) pct)).toUnsigned 32).getD (cast pct % 2 ^ 32)

/-- `_random_fp`, from the word drawn. -/
def randomFp (word : Nat) : Nat := word % 2 ^ 24

/-- The operation that a round of `do_sync_workload` or `do_async_workload` performs when the die shows `die`. -/
def Workload.choose (cast : FpNum → Nat) (w : Workload) (die : Nat) : OpKind :=
  let readPct := pctToFp cast w.readPct
  let writePct := (readPct + pctToFp cast w.writePct) % 2 ^ 32
  match w.type with
  | .i => .write
  | .ru | .rr => if die < readPct then .read else .write
  | .d => .delete
  | .ruf => if die < readPct then .read else if die < writePct then .write else .udf
  | .rud => if die < readPct then .read else if die < writePct then .write else .delete

/-! ## Synchronous operations -/

/-- `random_read`, from the status of its call on. -/
def randomRead (s : Stage) : AsStatus → Nat → CData → CData := if s.batchReadSize ≤ 1 then readRecordSync else batchReadRecordSync

/-- `random_write` and the body of `linear_writes`. -/
def randomWrite (s : Stage) : AsStatus → Nat → CData → CData :=
  if s.batchWriteSize ≤ 1 then writeRecordSync else batchWriteRecordSync

/-- `random_delete` and the body of `linear_deletes`: nil bins are written. -/
def randomDelete (s : Stage) : AsStatus → Nat → CData → CData :=
  if s.batchDeleteSize ≤ 1 then writeRecordSync else batchWriteRecordSync

/-- `random_udf`. -/
def randomUdf : AsStatus → Nat → CData → CData := applyUdfSync

/-- The accounting of a synchronous operation of a stage. -/
def syncOperation (s : Stage) : OpKind → AsStatus → Nat → CData → CData
  | .read => randomRead s
  | .write => randomWrite s
  | .delete => randomDelete s
  | .udf => randomUdf

/-! ## The operations a workload can choose -/

theorem randomFp_lt (word : Nat) : randomFp word < 2 ^ 24 := Nat.mod_lt _ (by decide)

theorem pctToFp_zero (cast : FpNum → Nat) : pctToFp cast (.num 0) = 0 := by
  have h : (binary32.unscale 100 (binary32.scale (2 ^ 24) (.num 0))).toUnsigned 32 = some 0 := by decide +kernel
  unfold pctToFp
  rw [h, Option.getD_some]

theorem pctToFp_hundred (cast : FpNum → Nat) : pctToFp cast (.num 100) = 2 ^ 24 := by
  have h : (binary32.unscale 100 (binary32.scale (2 ^ 24) (.num 100))).toUnsigned 32 = some (2 ^ 24) := by decide +kernel
  unfold pctToFp
  rw [h, Option.getD_some]

theorem pctToFp_lt (cast : FpNum → Nat) (pct : FpNum) : pctToFp cast pct < 2 ^ 32 := by
  unfold pctToFp
  cases h : (binary32.unscale 100 (binary32.scale (2 ^ 24) pct)).toUnsigned 32 with
  | none => exact Nat.mod_lt _ (by decide)
  | some n => exact FpNum.toUnsigned_lt h

/-- When each operation is chosen. -/
def Workload.Chosen (cast : FpNum → Nat) (w : Workload) (die : Nat) : OpKind → Prop
  | .read => w.type.isInfinite = true ∧ die < pctToFp cast w.readPct
  | .write => w.type = .i ∨ ((w.type = .ru ∨ w.type = .rr) ∧ pctToFp cast w.readPct ≤ die) ∨
      ((w.type = .ruf ∨ w.type = .rud) ∧ pctToFp cast w.readPct ≤ die ∧
        die < (pctToFp cast w.readPct + pctToFp cast w.writePct) % 2 ^ 32)
  | .delete => w.type = .d ∨ w.type = .rud
  | .udf => w.type = .ruf

theorem Workload.chosen_choose (cast : FpNum → Nat) (w : Workload) (die : Nat) : w.Chosen cast die (w.choose cast die) := by
  unfold choose
  rcases Nat.lt_or_ge die (pctToFp cast w.readPct) with hread | hread
  · cases ht : w.type with
    | i | d => exact .inl ht
    | ru | rr | ruf | rud => simp only [hread, if_true, Chosen, ht, WorkloadType.isInfinite, and_self]
  · cases ht : w.type with
    | i | d => exact .inl ht
    | ru | rr =>
      simp only [Nat.not_lt.mpr hread, if_false]
      exact .inr (.inl ⟨by simp [ht], hread⟩)
    | ruf | rud =>
      simp only [Nat.not_lt.mpr hread, if_false]
      split
      · next hwrite => exact .inr (.inr ⟨by simp [ht], hread, hwrite⟩)
      · simp [Chosen, ht]

/-- Reads are only chosen by a workload that contains reads. -/
theorem Workload.containsReads_of_choose {cast : FpNum → Nat} {w : Workload} {die : Nat} (h : w.choose cast die = .read) :
    w.containsReads = true := by
  have hc := w.chosen_choose cast die
  rw [h] at hc
  obtain ⟨hinf, hdie⟩ := hc
  have hne : w.readPct.eq (.num 0) = false := by
    by_contra heq
    rw [FpNum.eq_of_eq (Bool.of_not_eq_false heq), pctToFp_zero] at hdie
    omega
  simp [containsReads, hinf, hne]

/-- Writes are only chosen by a workload that contains writes: a share of reads of 100 leaves none, and neither does a share of
writes of 0. -/
theorem Workload.containsWrites_of_choose {cast : FpNum → Nat} {w : Workload} {die : Nat} (hlt : die < 2 ^ 24)
    (h : w.choose cast die = .write) : w.containsWrites = true := by
  have hc := w.chosen_choose cast die
  rw [h] at hc
  have hread : pctToFp cast w.readPct ≤ die → w.readPct.eq (.num 100) = false := by
    intro hle
    by_contra heq
    rw [FpNum.eq_of_eq (Bool.of_not_eq_false heq), pctToFp_hundred] at hle
    omega
  have hwrite : pctToFp cast w.readPct ≤ die → die < (pctToFp cast w.readPct + pctToFp cast w.writePct) % 2 ^ 32 →
      w.writePct.eq (.num 0) = false := by
    intro hle hsum
    by_contra heq
    rw [FpNum.eq_of_eq (Bool.of_not_eq_false heq), pctToFp_zero, Nat.add_zero, Nat.mod_eq_of_lt (pctToFp_lt cast _)] at hsum
    omega
  rcases hc with ht | ⟨ht | ht, hle⟩ | ⟨ht | ht, hle, hsum⟩
  · simp [containsWrites, ht]
  · simp [containsWrites, ht, hread hle]
  · simp [containsWrites, ht, hread hle]
  · simp [containsWrites, ht, hwrite hle hsum]
  · simp [containsWrites, ht, hwrite hle hsum]

theorem Workload.containsUdfs_of_choose {cast : FpNum → Nat} {w : Workload} {die : Nat} (h : w.choose cast die = .udf) :
    w.containsUdfs = true := by
  have hc := w.chosen_choose cast die
  rw [h] at hc
  simp [containsUdfs, show w.type = .ruf from hc]

/-- Deletes are only chosen by the two workloads with deletes, and the linear one counts as one with writes. -/
theorem Workload.deletes_of_choose {cast : FpNum → Nat} {w : Workload} {die : Nat} (h : w.choose cast die = .delete) :
    w.containsWrites = true ∨ w.type = .rud := by
  have hc := w.chosen_choose cast die
  rw [h] at hc
  rcases hc with ht | ht
  · simp [containsWrites, ht]
  · exact .inr ht

end AerospikeBenchmark
