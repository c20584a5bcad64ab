import Mathlib.Logic.Function.Basic
import Mathlib.Tactic

/-!
# The barrier for macOS

`osx_pthread_barrier.c`: a barrier made of two atomic counters, a lock and a condition variable. The threads that call
`pthread_barrier_wait` are interleaved; every atomic access, every locking and unlocking, the wait and the broadcast is one step.
-/

namespace AerospikeBenchmark

namespace OsxBarrier

/-- `BARRIER_IN_THRESHOLD`. -/
def barrierInThreshold : Nat := (2147483647 * 2 + 1) / 2

/-- `PTHREAD_BARRIER_SERIAL_THREAD`. -/
def serialThread : Int := -1

/-- What `pthread_barrier_init` fails with. -/
inductive Errno where
  | EINVAL
deriving DecidableEq, Repr

/-- Where a thread is in `pthread_barrier_wait`, with its local `round`: what it is about to do. -/
inductive Pc where
  /-- It is between two calls. -/
  | out
  /-- It has entered the call, and loads `current_round`. -/
  | entered
  /-- It adds 1 to `in`. -/
  | loaded (round : Nat)
  /-- It locks, having found `i < count`. -/
  | locking (round : Nat)
  /-- With the lock, it loads `current_round`. -/
  | checking (round : Nat)
  /-- With the lock, it calls `pthread_cond_wait`, having found `cur_round == round`. -/
  | waiting (round : Nat)
  /-- It is blocked in `pthread_cond_wait`. -/
  | asleep (round : Nat)
  /-- It has been woken, and takes the lock again. -/
  | woken (round : Nat)
  /-- With the lock, it unlocks and returns 0. -/
  | leaving
  /-- It stores 0 in `in`, having found `i == count`. -/
  | resetting (round : Nat)
  /-- It stores `round + 1` in `current_round`. -/
  | publishing (round : Nat)
  /-- It locks before the broadcast. -/
  | serialLocking
  /-- With the lock, it broadcasts. -/
  | broadcasting
  /-- With the lock, it unlocks and returns `PTHREAD_BARRIER_SERIAL_THREAD`. -/
  | serialLeaving
deriving DecidableEq, Repr

/-- `pthread_barrier_t` and the threads `ι` that use it, each with the values its calls have returned. -/
structure State (ι : Type) where
  count : Nat
  inCount : Nat
  currentRound : Nat
  lock : Option ι
  pc : ι → Pc
  returns : ι → List Int

/-- `pthread_barrier_init`, before any thread has called `pthread_barrier_wait`. -/
def pthreadBarrierInit (ι : Type) (count : Nat) : Except Errno (State ι) :=
  if count = 0 ∨ barrierInThreshold < count then .error .EINVAL
  else .ok ⟨count, 0, 0, none, fun _ => .out, fun _ => []⟩

variable {ι : Type} [DecidableEq ι]

namespace State

/-- A thread goes on to `p`. -/
def goto (s : State ι) (t : ι) (p : Pc) : State ι := { s with pc := Function.update s.pc t p }

/-- `pthread_mutex_lock`; the thread is blocked while the lock is held. -/
def acquire (s : State ι) (t : ι) (p : Pc) : Option (State ι) :=
  match s.lock with
  | none => some { s.goto t p with lock := some t }
  | some _ => none

/-- `pthread_mutex_unlock`, after which the call returns `v`. -/
def leave (s : State ι) (t : ι) (v : Int) : State ι :=
  { s.goto t .out with lock := none, returns := Function.update s.returns t (s.returns t ++ [v]) }

omit [DecidableEq ι] in
/-- The calls a thread has entered: those that have returned, and the one it is in. -/
def calls (s : State ι) (t : ι) : Nat := (s.returns t).length + if s.pc t = .out then 0 else 1

end State

/-- `pthread_cond_broadcast`, for one thread. -/
def wake : Pc → Pc
  | .asleep round => .woken round
  | p => p

/-- The next step of a thread; none when it is blocked at the lock. A thread that is asleep can only be woken for no reason. -/
def waitStep (s : State ι) (t : ι) : Option (State ι) :=
  match s.pc t with
  | .out => some (s.goto t .entered)
  | .entered => some (s.goto t (.loaded s.currentRound))
  | .loaded round =>
    let i := (s.inCount + 1) % 2 ^ 32
    some { s.goto t (if i < s.count then .locking round else .resetting round) with inCount := i }
  | .locking round => s.acquire t (.checking round)
  | .checking round => some (s.goto t (if s.currentRound = round then .waiting round else .leaving))
  | .waiting round => some { s.goto t (.asleep round) with lock := none }
  | .asleep round => some (s.goto t (.woken round))
  | .woken round => s.acquire t (.checking round)
  | .leaving => some (s.leave t 0)
  | .resetting round => some { s.goto t (.publishing round) with inCount := 0 }
  | .publishing round => some { s.goto t .serialLocking with currentRound := (round + 1) % 2 ^ 32 }
  | .serialLocking => s.acquire t .broadcasting
  | .broadcasting => some { s with pc := Function.update (fun u => wake (s.pc u)) t .serialLeaving }
  | .serialLeaving => some (s.leave t serialThread)

/-- A thread that cannot go on by itself: it sleeps, or waits for the lock. -/
def Blocked (s : State ι) (t : ι) : Prop := (∃ round, s.pc t = .asleep round) ∨ waitStep s t = none

end OsxBarrier

end AerospikeBenchmark
