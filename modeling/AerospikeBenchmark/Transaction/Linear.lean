import AerospikeBenchmark.Workload.Basic

/-!
# The linear routines

`linear_writes` and `linear_deletes` and their asynchronous variants: each goes through a range of keys once, one key or one batch
of consecutive keys at a time. What matters here are the keys operated on, in 64-bit arithmetic.
-/

namespace AerospikeBenchmark

/-- `_calculate_subrange`: the start and the end of the range of keys of thread `tIdx`. -/
def calculateSubrange (keyStart keyEnd tIdx nThreads : Nat) : Nat × Nat :=
  let nKeys := (keyEnd + 2 ^ 64 - keyStart) % 2 ^ 64
  ((keyStart + nKeys * tIdx % 2 ^ 64 / nThreads) % 2 ^ 64,
    (keyStart + nKeys * ((tIdx + 1) % 2 ^ 32) % 2 ^ 64 / nThreads) % 2 ^ 64)

/-- The keys of `_gen_batch_writes_sequential_keys` and `_gen_batch_deletes_sequential_keys`. -/
def sequentialKeys : (batchSize key : Nat) → List Nat
  | 0, _ => []
  | n + 1, key => key :: sequentialKeys n ((key + 1) % 2 ^ 64)

/-- The body of a linear loop: the keys it operates on, and the next value of `key_val`. -/
def linearBody (batchSize key : Nat) : List Nat × Nat :=
  if batchSize ≤ 1 then ([key], (key + 1) % 2 ^ 64) else (sequentialKeys batchSize key, (key + batchSize) % 2 ^ 64)

/-- `while (tdata->do_work && key_val < end_key)`: all keys operated on, in order. `doWork i` is what the `i`-th read of `do_work`
returns; no value when the fuel runs out and the loop is still running. -/
def linearLoop (doWork : Nat → Bool) (batchSize endKey : Nat) : (fuel i key : Nat) → Option (List Nat)
  | 0, _, _ => none
  | fuel + 1, i, key =>
    if doWork i = true ∧ key < endKey then
      (linearLoop doWork batchSize endKey fuel (i + 1) (linearBody batchSize key).2).map ((linearBody batchSize key).1 ++ ·)
    else some []

/-- A synchronous linear routine of worker `tIdx` with the batch size of its kind. -/
def linearSync (batchSize : Nat) (doWork : Nat → Bool) (s : Stage) (tIdx nThreads fuel : Nat) : Option (List Nat) :=
  let r := calculateSubrange s.keyStart s.keyEnd tIdx nThreads
  linearLoop doWork batchSize r.2 fuel 0 r.1

/-- `linear_writes`. -/
def linearWrites (doWork : Nat → Bool) (s : Stage) : (tIdx nThreads fuel : Nat) → Option (List Nat) :=
  linearSync s.batchWriteSize doWork s

/-- `linear_deletes`. -/
def linearDeletes (doWork : Nat → Bool) (s : Stage) : (tIdx nThreads fuel : Nat) → Option (List Nat) :=
  linearSync s.batchDeleteSize doWork s

/-- An asynchronous linear routine with the batch size of its kind. -/
def linearAsync (batchSize : Nat) (doWork : Nat → Bool) (s : Stage) (fuel : Nat) : Option (List Nat) :=
  linearLoop doWork batchSize s.keyEnd fuel 0 s.keyStart

/-- `linear_writes_async`. -/
def linearWritesAsync (doWork : Nat → Bool) (s : Stage) : (fuel : Nat) → Option (List Nat) :=
  linearAsync s.batchWriteSize doWork s

/-- `linear_deletes_async`. -/
def linearDeletesAsync (doWork : Nat → Bool) (s : Stage) : (fuel : Nat) → Option (List Nat) :=
  linearAsync s.batchDeleteSize doWork s

/-- The batch size of the linear routine that a stage runs. -/
def Stage.linearBatchSize (s : Stage) : Nat := if s.workload.type = .d then s.batchDeleteSize else s.batchWriteSize

/-- The linear cases of `do_sync_workload`: an insert stage writes, a bin-delete stage deletes, the others are not linear. -/
def doSyncLinear (doWork : Nat → Bool) (s : Stage) (tIdx nThreads fuel : Nat) : Option (List Nat) :=
  match s.workload.type with
  | .i => linearWrites doWork s tIdx nThreads fuel
  | .d => linearDeletes doWork s tIdx nThreads fuel
  | .ru | .rr | .ruf | .rud => none

/-- The linear cases of `do_async_workload` on its one issuing thread. -/
def doAsyncLinear (doWork : Nat → Bool) (s : Stage) (fuel : Nat) : Option (List Nat) :=
  match s.workload.type with
  | .i => linearWritesAsync doWork s fuel
  | .d => linearDeletesAsync doWork s fuel
  | .ru | .rr | .ruf | .rud => none

/-! ## The loop without wrap-around -/

theorem sequentialKeys_eq {n key : Nat} (h : key + n ≤ 2 ^ 64) : sequentialKeys n key = List.range' key n := by
  induction n generalizing key with
  | zero => rfl
  | succ n ih =>
    rw [sequentialKeys, List.range'_succ]
    rcases Nat.eq_zero_or_pos n with rfl | hn
    · rfl
    · rw [Nat.mod_eq_of_lt (by omega), ih (by omega)]

/-- One round of the loop operates on the next `b` keys and advances by `b`. -/
theorem linearBody_eq {b key : Nat} (hb : 1 ≤ b) (h : key + b < 2 ^ 64) : linearBody b key = (List.range' key b, key + b) := by
  unfold linearBody
  split
  · obtain rfl : b = 1 := by omega
    rw [Nat.mod_eq_of_lt h]
    rfl
  · rw [sequentialKeys_eq h.le, Nat.mod_eq_of_lt h]

/-- The number of batches of `b` keys that `n` keys need. -/
def batches (n b : Nat) : Nat := (n + b - 1) / b

theorem batches_zero {b : Nat} (hb : 1 ≤ b) : batches 0 b = 0 := Nat.div_eq_of_lt (by omega)

theorem batches_step {n b : Nat} (hb : 1 ≤ b) (hn : 0 < n) : batches n b = batches (n - b) b + 1 := by
  unfold batches
  rcases Nat.lt_or_ge n b with h | h
  · have h1 : (n + b - 1) / b = 1 := Nat.div_eq_of_lt_le (by omega) (by omega)
    have h0 : (n - b + b - 1) / b = 0 := Nat.div_eq_of_lt (by omega)
    omega
  · have hsplit : n + b - 1 = (n - b + b - 1) + b := by omega
    rw [hsplit, Nat.add_div_right _ (by omega)]

/-- The keys of all batches reach past the range, by less than a batch. -/
theorem le_mul_batches {n b : Nat} (hb : 1 ≤ b) : n ≤ b * batches n b := by
  have h := Nat.div_add_mod (n + b - 1) b
  have hlt := Nat.mod_lt (n + b - 1) (by omega : b > 0)
  unfold batches
  omega

/-- While `do_work` stays true, the loop ends having operated on all batches of its range. -/
theorem linearLoop_eq {b endKey : Nat} (hb : 1 ≤ b) (hend : endKey + b ≤ 2 ^ 64) (fuel i key : Nat)
    (hfuel : batches (endKey - key) b < fuel) :
    linearLoop (fun _ => true) b endKey fuel i key = some (List.range' key (b * batches (endKey - key) b)) := by
  induction fuel generalizing i key with
  | zero => omega
  | succ fuel ih =>
    unfold linearLoop
    by_cases hkey : key < endKey
    · have hbody : linearBody b key = (List.range' key b, key + b) := linearBody_eq hb (by omega)
      have hstep := batches_step hb (Nat.sub_pos_of_lt hkey)
      have hrest : endKey - key - b = endKey - (key + b) := by omega
      rw [hrest] at hstep
      have hloop := ih (i + 1) (key + b) (by omega)
      rw [if_pos ⟨rfl, hkey⟩, hbody, hloop, hstep, Option.map_some, Nat.mul_add, Nat.mul_one, Nat.add_comm (b * _),
        List.range'_append_1]
    · have hzero : endKey - key = 0 := by omega
      rw [if_neg (fun h => hkey h.2), hzero, batches_zero hb]
      rfl

end AerospikeBenchmark
