import AerospikeBenchmark.Latency.Sinks

/-!
# What accounting an operation does

The synchronous routines and the listener either record an operation under a class or increment a counter; which of the two is
decided by the status of the call.
-/

namespace AerospikeBenchmark

open CText

/-- What accounting adds to the uses of histograms: those of recording under a class, or none. -/
structure Accounts (c : OpClass) (dtUs : Nat) (recorded : Bool) (cd cd' : CData) : Prop where
  setup : cd'.setup = cd.setup
  uses : cd'.uses = cd.uses ++ if recorded then cd.setup.uses c dtUs else []

theorem accounts_record (c : OpClass) (incr : Counters → Counters) (dtUs : Nat) (cd : CData) :
    Accounts c dtUs true cd (record c incr dtUs cd) := ⟨rfl, rfl⟩

/-- What leaves the uses alone records nothing. -/
theorem accounts_silent {c : OpClass} {dtUs : Nat} {cd cd' : CData} (hsetup : cd'.setup = cd.setup) (huses : cd'.uses = cd.uses) :
    Accounts c dtUs false cd cd' := ⟨hsetup, huses.trans (List.append_nil _).symm⟩

theorem accounts_countTimeout (c : OpClass) (dtUs : Nat) (cd : CData) : Accounts c dtUs false cd (countTimeout c cd) := by
  cases c <;> exact accounts_silent rfl rfl

theorem accounts_countError (c : OpClass) (dtUs : Nat) (cd : CData) : Accounts c dtUs false cd (countError c cd) := by
  cases c <;> exact accounts_silent rfl rfl

theorem accounts_writeRecordSync (status : AsStatus) (dtUs : Nat) (cd : CData) :
    Accounts .write dtUs (OpResult.succeeded false ⟨.write, status, dtUs⟩) cd (writeRecordSync status dtUs cd) := by
  cases status with
  | ok => exact accounts_record _ _ dtUs cd
  | errTimeout => exact accounts_countTimeout .write dtUs cd
  | errRecordNotFound | errNoMoreConnections => exact accounts_countError .write dtUs cd
  | other code => exact accounts_countError .write dtUs cd

/-- A synchronous operation is recorded, under its class, when it succeeds. -/
theorem accounts_syncOperation (s : Stage) (k : OpKind) (status : AsStatus) (dtUs : Nat) (cd : CData) :
    Accounts k.opClass dtUs (OpResult.succeeded false ⟨k.opClass, status, dtUs⟩) cd (syncOperation s k status dtUs cd) := by
  cases k with
  | read =>
    simp only [syncOperation, randomRead]
    split
    · cases status with
      | ok => exact accounts_record _ _ dtUs cd
      | errRecordNotFound => exact accounts_silent rfl rfl
      | errTimeout => exact accounts_countTimeout .read dtUs cd
      | errNoMoreConnections => exact accounts_countError .read dtUs cd
      | other code => exact accounts_countError .read dtUs cd
    · cases status with
      | ok => exact accounts_record _ _ dtUs cd
      | errTimeout => exact accounts_countTimeout .read dtUs cd
      | errRecordNotFound | errNoMoreConnections => exact accounts_countError .read dtUs cd
      | other code => exact accounts_countError .read dtUs cd
  | write =>
    simp only [syncOperation, randomWrite]
    split <;> exact accounts_writeRecordSync status dtUs cd
  | delete =>
    simp only [syncOperation, randomDelete]
    split <;> exact accounts_writeRecordSync status dtUs cd
  | udf =>
    cases status with
    | ok | errRecordNotFound => exact accounts_record _ _ dtUs cd
    | errTimeout => exact accounts_countTimeout .udf dtUs cd
    | errNoMoreConnections => exact accounts_countError .udf dtUs cd
    | other code => exact accounts_countError .udf dtUs cd

/-- The listener records under the class of the tag when there is no error. -/
theorem accounts_asyncListener (op : Option OpTag) (err : Option AsStatus) (dtUs : Nat) (cd : CData) :
    Accounts (tagClass op) dtUs err.isNone cd (asyncListener op err dtUs cd) := by
  unfold asyncListener
  split
  · generalize tagClass op = c
    cases c <;> exact accounts_record _ _ dtUs cd
  · exact accounts_countTimeout _ dtUs cd
  · exact accounts_countError _ dtUs cd

end AerospikeBenchmark
