import AerospikeBenchmark.Transaction.Accounting

/-!
# Synchronous and asynchronous accounting

The two modes classify every result alike but for one status: a record that is not found is a miss of a read and a success of a UDF
call in the synchronous routines, and an error of either in the listener. So the counters of the two modes differ by the numbers
of such results.
-/

namespace AerospikeBenchmark

/-- A result of an operation of class `c` on a record that was not found. -/
def OpResult.isNotFound (c : OpClass) (r : OpResult) : Bool := r.op = c && r.status = .errRecordNotFound

/-- The counters with `m` read errors counted as misses and `u` UDF errors counted as successes. -/
def Counters.reclassify (n : Counters) (m u : UInt64) : Counters :=
  { n with
    readMissCount := n.readMissCount + m
    readErrorCount := n.readErrorCount - m
    udfCount := n.udfCount + u
    udfErrorCount := n.udfErrorCount - u }

@[simp] theorem reclassify_zero (n : Counters) : n.reclassify 0 0 = n := by simp [Counters.reclassify]

theorem reclassify_eq_iff (n : Counters) (m u : UInt64) : n.reclassify m u = n ↔ m = 0 ∧ u = 0 := by
  constructor
  · intro h
    have hm : n.readMissCount + m = n.readMissCount := congrArg Counters.readMissCount h
    have hu : n.udfCount + u = n.udfCount := congrArg Counters.udfCount h
    simpa using And.intro hm hu
  · intro h
    rw [h.1, h.2, reclassify_zero]

/-- The number a truth value adds to a count. -/
def oneIf (b : Bool) : UInt64 := if b then 1 else 0

/-- One result keeps the two modes apart by the results not found. -/
theorem accountSync_step {s a : CData} {m u : UInt64} (h : s.counters = a.counters.reclassify m u) (r : OpResult) :
    (accountSync s r).counters = (accountAsync a r).counters.reclassify (oneIf (r.isNotFound .read) + m)
      (oneIf (r.isNotFound .udf) + u) := by
  obtain ⟨op, status, dt⟩ := r
  cases op <;> cases status <;>
    simp [accountSync, accountAsync, readRecordSync, writeRecordSync, applyUdfSync, asyncListener, AsStatus.err, recordClass,
      recordRead, recordWrite, recordUdf, record, countTimeout, countError, CData.count, Counters.reclassify, OpResult.isNotFound,
      oneIf, h] <;>
    grind

/-- A whole sequence keeps the two modes apart by the results not found. -/
theorem accountSync_run (rs : List OpResult) (s a : CData) (m u : UInt64) (h : s.counters = a.counters.reclassify m u) :
    (rs.foldl accountSync s).counters = (rs.foldl accountAsync a).counters.reclassify
      (UInt64.ofNat (rs.countP (OpResult.isNotFound .read)) + m) (UInt64.ofNat (rs.countP (OpResult.isNotFound .udf)) + u) := by
  induction rs generalizing s a m u with
  | nil => simpa using h
  | cons r rs ih =>
    have hcount (c : OpClass) (k : UInt64) : UInt64.ofNat (rs.countP (OpResult.isNotFound c)) + (oneIf (r.isNotFound c) + k) =
        UInt64.ofNat ((r :: rs).countP (OpResult.isNotFound c)) + k := by
      rw [List.countP_cons, UInt64.ofNat_add, ← UInt64.add_assoc]
      cases r.isNotFound c <;> rfl
    rw [List.foldl_cons, List.foldl_cons, ih _ _ _ _ (accountSync_step h r), hcount, hcount]

theorem ofNat_eq_zero_iff (n : Nat) : UInt64.ofNat n = 0 ↔ 2 ^ 64 ∣ n := by
  rw [← UInt64.toNat_inj, Nat.dvd_iff_mod_eq_zero]
  rfl

/-- The synchronous routines and the listener reach the same ten counters from the same state on the same results exactly when the
reads and the UDF calls on records not found, each class by itself, are a multiple of what a counter can hold; for sequences
shorter than that: when there are none. -/
theorem accounting_modes_agree_iff (cd : CData) (rs : List OpResult) :
    (rs.foldl accountSync cd).counters = (rs.foldl accountAsync cd).counters ↔
      2 ^ 64 ∣ rs.countP (OpResult.isNotFound .read) ∧ 2 ^ 64 ∣ rs.countP (OpResult.isNotFound .udf) := by
  rw [accountSync_run rs cd cd 0 0 (reclassify_zero _).symm, reclassify_eq_iff, UInt64.add_zero, UInt64.add_zero,
    ofNat_eq_zero_iff, ofNat_eq_zero_iff]

/-- A read of a record that does not exist is a miss in one mode and an error in the other; a UDF call on one is a success and an
error. -/
theorem not_found_differs :
    (accountSync CData.cleared ⟨.read, .errRecordNotFound, 0⟩).counters = { readMissCount := 1 } ∧
    (accountAsync CData.cleared ⟨.read, .errRecordNotFound, 0⟩).counters = { readErrorCount := 1 } ∧
    (accountSync CData.cleared ⟨.udf, .errRecordNotFound, 0⟩).counters = { udfCount := 1 } ∧
    (accountAsync CData.cleared ⟨.udf, .errRecordNotFound, 0⟩).counters = { udfErrorCount := 1 } := by
  decide

end AerospikeBenchmark
