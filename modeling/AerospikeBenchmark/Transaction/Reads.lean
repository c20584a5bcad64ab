import AerospikeBenchmark.ObjectSpec.Gen
import AerospikeBenchmark.Transaction.Operations

/-!
# The requests of reads

What `random_read` and `random_read_async` ask the server for: random keys, and for each key all bins or a selection of bins. The
calls of the synchronous and the asynchronous routine ask for the same.
-/

namespace AerospikeBenchmark

open CText Words

/-- The bins that a read asks for. -/
inductive BinsRequest where
  | allBins
  | bins (names : List Text)
deriving DecidableEq, Repr

/-- A read call: `aerospike_key_get` or `aerospike_key_select` on a key, or `aerospike_batch_read` on records. -/
inductive ReadCall where
  | single (key : Nat) (bins : BinsRequest)
  | batch (records : List (Nat × BinsRequest))
deriving DecidableEq, Repr

/-- What a call asks for, record by record. -/
def ReadCall.requests : ReadCall → List BinsRequest
  | .single _ bins => [bins]
  | .batch records => records.map Prod.snd

/-- The choice that each read routine makes on `stage->read_bins`. -/
def Stage.requestedBins (s : Stage) : BinsRequest :=
  match s.readBins with
  | some names => .bins names
  | none => .allBins

/-- `stage_gen_random_key`. -/
def stageGenRandomKey (s : Stage) : Gen Nat := do
  let r ← genRandRange64 ((s.keyEnd + 2 ^ 64 - s.keyStart) % 2 ^ 64)
  pure ((r + s.keyStart) % 2 ^ 64)

/-- The call of a read: of one record (`_read_record_sync`, `_read_record_async`), or of a batch. -/
def readCall (s : Stage) : Gen ReadCall :=
  if s.batchReadSize ≤ 1 then do
    let key ← stageGenRandomKey s
    pure (.single key s.requestedBins)
  else do
    let keys ← repeatGen (stageGenRandomKey s) s.batchReadSize
    pure (.batch (keys.map fun key => (key, s.requestedBins)))

/-- `random_read`, up to the call. -/
def randomReadCall (s : Stage) : Gen ReadCall := readCall s

/-- `random_read_async`, up to the call. -/
def randomReadAsyncCall (s : Stage) : Gen ReadCall := readCall s

/-- The read of a round of a stage. -/
def Stage.read (s : Stage) : Gen ReadCall := if s.async then randomReadAsyncCall s else randomReadCall s

theorem Stage.read_eq (s : Stage) : s.read = readCall s := by
  unfold read
  split <;> rfl

/-- Every record of a read asks for the same bins, and there is one. -/
theorem requests_read {s : Stage} {src src' : Source} {call : ReadCall} (h : s.read src = .ok (call, src')) :
    call.requests ≠ [] ∧ ∀ b ∈ call.requests, b = s.requestedBins := by
  rw [Stage.read_eq, readCall] at h
  split at h
  · obtain ⟨key, t, -, hcall⟩ := bind_ok.mp h
    obtain ⟨rfl, -⟩ := pure_ok.mp hcall
    simp [ReadCall.requests]
  · next hbatch =>
    obtain ⟨keys, t, hkeys, hcall⟩ := bind_ok.mp h
    obtain ⟨rfl, -⟩ := pure_ok.mp hcall
    have hlen := (repeatGen_spec (P := fun _ => True) (fun _ _ _ _ => trivial) _ _ _ _ hkeys).1
    have hne : keys ≠ [] := by
      intro hnil
      rw [hnil, List.length_nil] at hlen
      omega
    refine ⟨by simpa [ReadCall.requests] using hne, ?_⟩
    intro b hb
    simp only [ReadCall.requests, List.map_map, List.mem_map, Function.comp_apply] at hb
    obtain ⟨-, -, rfl⟩ := hb
    rfl

/-- On some stream of words a read is made. -/
theorem exists_read (s : Stage) : ∃ ws call src', (∀ w ∈ ws, w < 2 ^ 64) ∧ s.read (some ws) = .ok (call, src') := by
  have hkey (i : Nat) : Finishes (stageGenRandomKey s) (fun _ => 2 ^ 64 - 1) i := by
    refine Finishes.bind ((returnsFirst_genRandRange64 _).finishes ⟨0, isSome_reduceFrom.mpr ?_⟩) fun a j => finishes_pure _ j
    -- the largest word is above every bound
    exact Nat.le_trans (Nat.mod_le _ _) (Nat.le_sub_one_of_lt (Nat.mod_lt _ (by decide)))
  have hread : Finishes s.read (fun _ => 2 ^ 64 - 1) 0 := by
    rw [Stage.read_eq, readCall]
    split
    · exact (hkey 0).bind fun a j => finishes_pure _ j
    · exact (finishes_repeatGen hkey _ 0).bind fun a j => finishes_pure _ j
  obtain ⟨call, m, hm⟩ := hread
  refine ⟨_, call, _, ?_, hm 0⟩
  intro w hw
  obtain ⟨-, -, rfl⟩ := List.mem_map.mp hw
  exact Nat.sub_lt (by decide) (by decide)

end AerospikeBenchmark
