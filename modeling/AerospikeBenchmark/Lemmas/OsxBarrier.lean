import AerospikeBenchmark.Coordinator.OsxBarrier
import AerospikeBenchmark.Lib.Barrier

/-!
# The macOS barrier is a cyclic barrier

`Counted` relates the state of the barrier for macOS to a cyclic barrier in rounds. A thread arrives when it has counted itself, the
last one when it publishes the next round, and leaves when its call returns; all other steps are invisible. `current_round` is the
number of rounds that are over, up to its wrap, and `in` the number of threads that have arrived, except while the last one resets it.
-/

namespace AerospikeBenchmark

namespace OsxBarrier

variable {ι : Type} {s s' : State ι} {b : Barrier} {t : ι}

/-! ## Steps -/

section Steps

variable [DecidableEq ι]

/-- What a step of `t` can be. -/
inductive WaitStep (s : State ι) (t : ι) : State ι → Prop where
  | call : s.pc t = .out → WaitStep s t (s.goto t .entered)
  | load : s.pc t = .entered → WaitStep s t (s.goto t (.loaded s.currentRound))
  | count {round : Nat} : s.pc t = .loaded round → (s.inCount + 1) % 2 ^ 32 < s.count →
      WaitStep s t { s.goto t (.locking round) with inCount := (s.inCount + 1) % 2 ^ 32 }
  | countLast {round : Nat} : s.pc t = .loaded round → ¬ (s.inCount + 1) % 2 ^ 32 < s.count →
      WaitStep s t { s.goto t (.resetting round) with inCount := (s.inCount + 1) % 2 ^ 32 }
  | lock {round : Nat} : s.pc t = .locking round ∨ s.pc t = .woken round → s.lock = none →
      WaitStep s t { s.goto t (.checking round) with lock := some t }
  | stay {round : Nat} : s.pc t = .checking round → s.currentRound = round → WaitStep s t (s.goto t (.waiting round))
  | go {round : Nat} : s.pc t = .checking round → s.currentRound ≠ round → WaitStep s t (s.goto t .leaving)
  | sleep {round : Nat} : s.pc t = .waiting round → WaitStep s t { s.goto t (.asleep round) with lock := none }
  | wakeUp {round : Nat} : s.pc t = .asleep round → WaitStep s t (s.goto t (.woken round))
  | leave : s.pc t = .leaving → WaitStep s t (s.leave t 0)
  | reset {round : Nat} : s.pc t = .resetting round → WaitStep s t { s.goto t (.publishing round) with inCount := 0 }
  | publish {round : Nat} : s.pc t = .publishing round →
      WaitStep s t { s.goto t .serialLocking with currentRound := (round + 1) % 2 ^ 32 }
  | serialLock : s.pc t = .serialLocking → s.lock = none → WaitStep s t { s.goto t .broadcasting with lock := some t }
  | broadcast : s.pc t = .broadcasting →
      WaitStep s t { s with pc := Function.update (fun u => wake (s.pc u)) t .serialLeaving }
  | serialLeave : s.pc t = .serialLeaving → WaitStep s t (s.leave t serialThread)

theorem acquire_eq_some {p : Pc} (h : s.acquire t p = some s') : s.lock = none ∧ s' = { s.goto t p with lock := some t } := by
  unfold State.acquire at h
  split at h
  · next hfree => exact ⟨hfree, (Option.some.inj h).symm⟩
  · cases h

theorem waitStep_cases (h : waitStep s t = some s') : WaitStep s t s' := by
  unfold waitStep at h
  split at h
  · next hpc => exact Option.some.inj h ▸ .call hpc
  · next hpc => exact Option.some.inj h ▸ .load hpc
  · next hpc =>
    rw [← Option.some.inj h]
    split
    · next hlt => exact .count hpc hlt
    · next hge => exact .countLast hpc hge
  · next hpc =>
    obtain ⟨hfree, rfl⟩ := acquire_eq_some h
    exact .lock (Or.inl hpc) hfree
  · next hpc =>
    rw [← Option.some.inj h]
    split
    · next heq => exact .stay hpc heq
    · next hne => exact .go hpc hne
  · next hpc => exact Option.some.inj h ▸ .sleep hpc
  · next hpc => exact Option.some.inj h ▸ .wakeUp hpc
  · next hpc =>
    obtain ⟨hfree, rfl⟩ := acquire_eq_some h
    exact .lock (Or.inr hpc) hfree
  · next hpc => exact Option.some.inj h ▸ .leave hpc
  · next hpc => exact Option.some.inj h ▸ .reset hpc
  · next hpc => exact Option.some.inj h ▸ .publish hpc
  · next hpc =>
    obtain ⟨hfree, rfl⟩ := acquire_eq_some h
    exact .serialLock hpc hfree
  · next hpc => exact Option.some.inj h ▸ .broadcast hpc
  · next hpc => exact Option.some.inj h ▸ .serialLeave hpc

end Steps

/-! ## The abstract barrier -/

/-- Whether a thread has arrived and not left. -/
def Pc.arrived : Pc → Bool
  | .locking _ | .checking _ | .waiting _ | .asleep _ | .woken _ | .leaving | .serialLocking | .broadcasting | .serialLeaving => true
  | .out | .entered | .loaded _ | .resetting _ | .publishing _ => false

/-- What `in` is while the last thread to arrive has not published the next round. -/
def Pc.lastCount (count : Nat) : Pc → Option Nat
  | .resetting _ => some count
  | .publishing _ => some 0
  | _ => none

/-- What a thread that has passed `passed` rounds, when `ended` rounds are over, knows of them. -/
def Pc.RoundOk (passed ended : Nat) : Pc → Prop
  | .loaded round | .resetting round | .publishing round => round = ended % 2 ^ 32
  | .locking round | .checking round | .waiting round | .asleep round | .woken round => round = passed % 2 ^ 32
  | .leaving | .serialLocking | .broadcasting | .serialLeaving => ended = passed + 1
  | .out | .entered => True

/-- The rounds a thread has passed. -/
def State.passed (s : State ι) (t : ι) : Nat := (s.returns t).length

/-- The round a thread waits for. -/
def State.waitingFor (s : State ι) (t : ι) : Option Nat := if (s.pc t).arrived then some (s.passed t) else none

theorem waitingFor_of_arrived (h : (s.pc t).arrived = true) : s.waitingFor t = some (s.passed t) := by
  simp [State.waitingFor, h]

theorem waitingFor_of_not_arrived (h : (s.pc t).arrived = false) : s.waitingFor t = none := by
  simp [State.waitingFor, h]

theorem arrived_of_waitingFor {r : Nat} (h : s.waitingFor t = some r) : (s.pc t).arrived = true ∧ s.passed t = r := by
  unfold State.waitingFor at h
  split at h
  · next harr => exact ⟨harr, Option.some.inj h⟩
  · cases h

theorem lastCount_of_arrived {p : Pc} (h : p.arrived = true) (n : Nat) : p.lastCount n = none := by
  cases p <;> first | rfl | cases h

theorem arrived_of_lastCount {p : Pc} {count n : Nat} (h : p.lastCount count = some n) : p.arrived = false := by
  cases p <;> first | rfl | cases h

theorem passed_congr (h : s'.returns = s.returns) : s'.passed = s.passed := by
  funext u
  simp [State.passed, h]

theorem waitingFor_congr (hreturns : s'.returns = s.returns) (hpc : ∀ u, (s'.pc u).arrived = (s.pc u).arrived) :
    s'.waitingFor = s.waitingFor := by
  funext u
  simp [State.waitingFor, passed_congr hreturns, hpc u]

/-- A thread arrives. -/
theorem waitingFor_arrive [DecidableEq ι] {p : Pc} (hreturns : s'.returns = s.returns) (hpc : s'.pc = Function.update s.pc t p)
    (hp : p.arrived = true) : s'.waitingFor = Function.update s.waitingFor t (some (s.passed t)) := by
  funext u
  by_cases hu : u = t
  · subst hu
    simp [State.waitingFor, passed_congr hreturns, hpc, hp]
  · simp [State.waitingFor, passed_congr hreturns, hpc, hu]

/-- The barrier for macOS and the cyclic barrier `b` are at the same point. -/
structure Counted [Fintype ι] (s : State ι) (b : Barrier) : Prop where
  synced : b.Synced s.waitingFor s.passed
  count_eq : s.count = b.count
  count_lt : b.count < 2 ^ 32
  arrived_lt : b.arrived < b.count
  round_eq : s.currentRound = b.round % 2 ^ 32
  rounds : ∀ u, (s.pc u).RoundOk (s.passed u) b.round
  last : ∀ u n, (s.pc u).lastCount b.count = some n → b.arrived + 1 = b.count ∧ s.inCount = n
  quiet : (∀ u, (s.pc u).lastCount b.count = none) → s.inCount = b.arrived

/-- The cyclic barrier after a step of `t`. -/
def nextBarrier (s : State ι) (b : Barrier) (t : ι) : Barrier :=
  match s.pc t with
  | .loaded _ => if (s.inCount + 1) % 2 ^ 32 < s.count then b.arrive else b
  | .publishing _ => b.arrive
  | _ => b

namespace Counted

section

variable [Fintype ι]

/-- A thread that has not arrived has passed the rounds that are over. -/
theorem passed_eq (h : Counted s b) (ht : (s.pc t).arrived = false) : s.passed t = b.round :=
  h.synced.free t (waitingFor_of_not_arrived ht)

/-- A thread that has arrived waits for the current round or has just seen it end. -/
theorem round_of_arrived (h : Counted s b) (ht : (s.pc t).arrived = true) : b.round = s.passed t ∨ b.round = s.passed t + 1 :=
  (h.synced.held t _ (waitingFor_of_arrived ht)).2

theorem synced_congr (h : Counted s b) (hreturns : s'.returns = s.returns) (hpc : ∀ u, (s'.pc u).arrived = (s.pc u).arrived) :
    b.Synced s'.waitingFor s'.passed := by
  rw [waitingFor_congr hreturns hpc, passed_congr hreturns]
  exact h.synced

/-- A step that is invisible: no thread arrives or leaves, and the counters are as before. -/
theorem of_same (h : Counted s b) (hcount : s'.count = s.count) (hin : s'.inCount = s.inCount)
    (hround : s'.currentRound = s.currentRound) (hreturns : s'.returns = s.returns)
    (hpc : ∀ u, (s'.pc u).arrived = (s.pc u).arrived ∧ ∀ n, (s'.pc u).lastCount n = (s.pc u).lastCount n)
    (hrounds : ∀ u, (s'.pc u).RoundOk (s.passed u) b.round) : Counted s' b := by
  refine ⟨h.synced_congr hreturns fun u => (hpc u).1, hcount.trans h.count_eq, h.count_lt, h.arrived_lt,
    hround.trans h.round_eq, ?_, ?_, ?_⟩
  · rw [passed_congr hreturns]
    exact hrounds
  · intro u n hu
    rw [(hpc u).2] at hu
    rw [hin]
    exact h.last u n hu
  · intro hquiet
    rw [hin]
    exact h.quiet fun u => (hpc u).2 _ ▸ hquiet u

end

variable [Fintype ι] [DecidableEq ι]

theorem synced_arrive (h : Counted s b) (ht : (s.pc t).arrived = false) {p : Pc} (hp : p.arrived = true)
    (hreturns : s'.returns = s.returns) (hpc : s'.pc = Function.update s.pc t p) : b.arrive.Synced s'.waitingFor s'.passed := by
  rw [waitingFor_arrive hreturns hpc hp, passed_congr hreturns, h.passed_eq ht]
  exact h.synced.arrive (waitingFor_of_not_arrived ht)

/-- While the last thread is at work all the others wait for the current round. -/
theorem others_arrived (h : Counted s b) (ht : (s.pc t).arrived = false) (hlast : b.arrived + 1 = b.count) {u : ι} (hu : u ≠ t) :
    (s.pc u).arrived = true ∧ s.passed u = b.round := by
  refine arrived_of_waitingFor (h.synced.others_waiting (p := t) ?_ hlast hu)
  rw [waitingFor_of_not_arrived ht]
  simp

/-- One thread goes on to a place that is the same to the others. -/
theorem goto (h : Counted s b) {p q : Pc} {l : Option ι} (hs' : s' = { s.goto t p with lock := l }) (ht : s.pc t = q)
    (hround : p.RoundOk (s.passed t) b.round) (harr : p.arrived = q.arrived) (hlast : ∀ n, p.lastCount n = q.lastCount n) :
    Counted s' b := by
  subst hs' ht
  refine h.of_same rfl rfl rfl rfl ?_ ?_
  · exact (Function.forall_update_iff s.pc fun u q => q.arrived = (s.pc u).arrived ∧ ∀ n, q.lastCount n = (s.pc u).lastCount n).mpr
      ⟨⟨harr, hlast⟩, fun _ _ => ⟨rfl, fun _ => rfl⟩⟩
  · exact (Function.forall_update_iff s.pc fun u q => q.RoundOk (s.passed u) b.round).mpr ⟨hround, fun u _ => h.rounds u⟩

/-- `in` counts the threads that have arrived when one is about to count itself. -/
theorem inCount_of_loaded (h : Counted s b) {round : Nat} (ht : s.pc t = .loaded round) : s.inCount = b.arrived := by
  refine h.quiet fun u => ?_
  by_contra hne
  obtain ⟨n, hn⟩ := Option.ne_none_iff_exists'.mp hne
  have hu : t ≠ u := by
    rintro rfl
    rw [ht] at hn
    cases hn
  have harr := (h.others_arrived (arrived_of_lastCount hn) (h.last u n hn).1 hu).1
  rw [ht] at harr
  cases harr

/-- No addition to `in` wraps. -/
theorem inCount_succ (h : Counted s b) {round : Nat} (ht : s.pc t = .loaded round) : (s.inCount + 1) % 2 ^ 32 = b.arrived + 1 := by
  have hlt := h.arrived_lt
  have hcount := h.count_lt
  rw [h.inCount_of_loaded ht]
  exact Nat.mod_eq_of_lt (by omega)

/-- A thread that is not the last one counts itself. -/
theorem count (h : Counted s b) {round : Nat} (ht : s.pc t = .loaded round) (hlt : (s.inCount + 1) % 2 ^ 32 < s.count) :
    Counted { s.goto t (.locking round) with inCount := (s.inCount + 1) % 2 ^ 32 } b.arrive := by
  have hnot : (s.pc t).arrived = false := by rw [ht]; rfl
  have hpassed := h.passed_eq hnot
  have hquiet : ∀ u, (s.pc u).lastCount b.count = none := by
    intro u
    by_contra hne
    obtain ⟨n, hn⟩ := Option.ne_none_iff_exists'.mp hne
    have hfull := (h.last u n hn).1
    rw [h.inCount_succ ht, h.count_eq] at hlt
    omega
  rw [h.inCount_succ ht] at hlt ⊢
  rw [h.count_eq] at hlt
  have harrive : b.arrive = ⟨b.count, b.arrived + 1, b.round⟩ := by simp [Barrier.arrive, hlt.ne]
  refine ⟨h.synced_arrive (p := .locking round) hnot rfl rfl rfl, ?_, ?_, ?_, ?_, ?_, ?_, ?_⟩
  all_goals rw [harrive]
  · exact h.count_eq
  · exact h.count_lt
  · exact hlt
  · exact h.round_eq
  · refine (Function.forall_update_iff s.pc fun u q => q.RoundOk (s.passed u) b.round).mpr ⟨?_, fun u _ => h.rounds u⟩
    have hround := h.rounds t
    rw [ht] at hround
    rw [hpassed]
    exact hround
  · intro u n hn
    have hnone : (Function.update s.pc t (Pc.locking round) u).lastCount b.count = none :=
      (Function.forall_update_iff s.pc fun _ q => q.lastCount b.count = none).mpr ⟨rfl, fun u _ => hquiet u⟩ u
    cases hnone.symm.trans hn
  · exact fun _ => rfl

/-- The last thread at work: all the others have arrived in the current round. -/
theorem lastAt (h : Counted s b) (hnot : (s.pc t).arrived = false) (hfull : b.arrived + 1 = b.count) {p : Pc} {n : Nat}
    (hp : p.lastCount b.count = some n) (hround : p.RoundOk (s.passed t) b.round) : Counted { s.goto t p with inCount := n } b := by
  have harr : ∀ u, (Function.update s.pc t p u).arrived = (s.pc u).arrived :=
    (Function.forall_update_iff s.pc fun u q => q.arrived = (s.pc u).arrived).mpr
      ⟨(arrived_of_lastCount hp).trans hnot.symm, fun _ _ => rfl⟩
  refine ⟨h.synced_congr rfl harr, h.count_eq, h.count_lt, h.arrived_lt, h.round_eq, ?_, ?_, ?_⟩
  · exact (Function.forall_update_iff s.pc fun u q => q.RoundOk (s.passed u) b.round).mpr ⟨hround, fun u _ => h.rounds u⟩
  · refine (Function.forall_update_iff s.pc fun u q => ∀ m, q.lastCount b.count = some m → b.arrived + 1 = b.count ∧ n = m).mpr
      ⟨?_, ?_⟩
    · intro m hm
      exact ⟨hfull, Option.some.inj (hp.symm.trans hm)⟩
    · intro u hu m hm
      rw [lastCount_of_arrived (h.others_arrived hnot hfull hu).1] at hm
      cases hm
  · intro hquiet
    have hnone := hquiet t
    simp only [State.goto, Function.update_self, hp] at hnone
    cases hnone

/-- The last thread counts itself. -/
theorem countLast (h : Counted s b) {round : Nat} (ht : s.pc t = .loaded round) (hge : ¬ (s.inCount + 1) % 2 ^ 32 < s.count) :
    Counted { s.goto t (.resetting round) with inCount := (s.inCount + 1) % 2 ^ 32 } b := by
  have hnot : (s.pc t).arrived = false := by rw [ht]; rfl
  have hround := h.rounds t
  rw [ht] at hround
  have hlt := h.arrived_lt
  rw [h.inCount_succ ht, h.count_eq] at hge
  have hfull : b.arrived + 1 = b.count := by omega
  rw [h.inCount_succ ht, hfull]
  exact h.lastAt hnot hfull (p := .resetting round) rfl hround

/-- The last thread resets `in`. -/
theorem reset (h : Counted s b) {round : Nat} (ht : s.pc t = .resetting round) :
    Counted { s.goto t (.publishing round) with inCount := 0 } b := by
  have hround := h.rounds t
  rw [ht] at hround
  have hfull := (h.last t b.count (by rw [ht]; rfl)).1
  exact h.lastAt (by rw [ht]; rfl) hfull (p := .publishing round) rfl hround

/-- The last thread publishes the next round. -/
theorem publish (h : Counted s b) {round : Nat} (ht : s.pc t = .publishing round) :
    Counted { s.goto t .serialLocking with currentRound := (round + 1) % 2 ^ 32 } b.arrive := by
  have hnot : (s.pc t).arrived = false := by rw [ht]; rfl
  have hpassed := h.passed_eq hnot
  obtain ⟨hfull, hin⟩ := h.last t 0 (by rw [ht]; rfl)
  have hround := h.rounds t
  rw [ht] at hround
  have harrive : b.arrive = ⟨b.count, 0, b.round + 1⟩ := by simp [Barrier.arrive, hfull]
  refine ⟨h.synced_arrive (p := .serialLocking) hnot rfl rfl rfl, ?_, ?_, ?_, ?_, ?_, ?_, ?_⟩
  all_goals rw [harrive]
  · exact h.count_eq
  · exact h.count_lt
  · exact Nat.zero_lt_of_lt h.arrived_lt
  · change (round + 1) % 2 ^ 32 = (b.round + 1) % 2 ^ 32
    rw [hround, Nat.mod_add_mod]
  · refine (Function.forall_update_iff s.pc fun u q => q.RoundOk (s.passed u) (b.round + 1)).mpr ⟨?_, ?_⟩
    · rw [hpassed]
      rfl
    · -- the others still wait for the round that ends now
      intro u hu
      obtain ⟨harr, hround⟩ := h.others_arrived hnot hfull hu
      have hok := h.rounds u
      rw [hround] at hok ⊢
      generalize s.pc u = q at harr hok
      cases q <;> first | exact hok | (simp only [Pc.RoundOk] at hok; omega) | cases harr
  · intro u n hn
    have hnone : (Function.update s.pc t Pc.serialLocking u).lastCount b.count = none :=
      (Function.forall_update_iff s.pc fun _ q => q.lastCount b.count = none).mpr
        ⟨rfl, fun u hu => lastCount_of_arrived (h.others_arrived hnot hfull hu).1 _⟩ u
    cases hnone.symm.trans hn
  · exact fun _ => hin

/-- A thread whose round is over returns. -/
theorem leave (h : Counted s b) (harr : (s.pc t).arrived = true) (hover : b.round = s.passed t + 1) (v : Int) :
    Counted (s.leave t v) b := by
  have hpassed : (s.leave t v).passed = Function.update s.passed t (s.passed t + 1) := by
    funext u
    by_cases hu : u = t
    · subst hu
      simp [State.leave, State.passed]
    · simp [State.leave, State.passed, hu]
  have hwaiting : (s.leave t v).waitingFor = Function.update s.waitingFor t none := by
    funext u
    by_cases hu : u = t
    · subst hu
      simp [State.leave, State.goto, State.waitingFor, Pc.arrived]
    · have hpc : (s.leave t v).pc u = s.pc u := Function.update_of_ne hu _ _
      simp [State.waitingFor, hpassed, hpc, hu]
  have hlast : ∀ u, ((s.leave t v).pc u).lastCount b.count = (s.pc u).lastCount b.count :=
    (Function.forall_update_iff s.pc fun u q => q.lastCount b.count = (s.pc u).lastCount b.count).mpr
      ⟨(lastCount_of_arrived harr _).symm, fun _ _ => rfl⟩
  refine ⟨?_, h.count_eq, h.count_lt, h.arrived_lt, h.round_eq, ?_, ?_, ?_⟩
  · rw [hwaiting, hpassed]
    exact h.synced.leave (waitingFor_of_arrived harr) (by omega)
  · rw [hpassed]
    intro u
    by_cases hu : u = t
    · subst hu
      simp [State.leave, State.goto, Pc.RoundOk]
    · simpa [State.leave, State.goto, hu] using h.rounds u
  · intro u n hn
    rw [hlast] at hn
    exact h.last u n hn
  · intro hquiet
    exact h.quiet fun u => hlast u ▸ hquiet u

/-- Broadcasting is invisible. -/
theorem broadcast (h : Counted s b) (ht : s.pc t = .broadcasting) :
    Counted { s with pc := Function.update (fun u => wake (s.pc u)) t .serialLeaving } b := by
  have hround := h.rounds t
  rw [ht] at hround
  refine h.of_same rfl rfl rfl rfl ?_ ?_
  · refine (Function.forall_update_iff (fun u => wake (s.pc u)) fun u q =>
      q.arrived = (s.pc u).arrived ∧ ∀ n, q.lastCount n = (s.pc u).lastCount n).mpr ⟨by rw [ht]; exact ⟨rfl, fun _ => rfl⟩, ?_⟩
    intro u _
    cases s.pc u <;> exact ⟨rfl, fun _ => rfl⟩
  · refine (Function.forall_update_iff (fun u => wake (s.pc u)) fun u q => q.RoundOk (s.passed u) b.round).mpr ⟨hround, ?_⟩
    intro u _
    have hu := h.rounds u
    cases hq : s.pc u <;> rw [hq] at hu <;> exact hu

/-- Every step of the barrier for macOS is a step of the cyclic barrier, or invisible. -/
theorem step (h : Counted s b) (hs : WaitStep s t s') : Counted s' (nextBarrier s b t) := by
  have hround := h.rounds t
  cases hs with
  | call hpc =>
    simp only [nextBarrier, hpc]
    exact h.goto rfl hpc trivial rfl fun _ => rfl
  | load hpc =>
    simp only [nextBarrier, hpc]
    exact h.goto rfl hpc h.round_eq rfl fun _ => rfl
  | count hpc hlt =>
    simp only [nextBarrier, hpc, if_pos hlt]
    exact h.count hpc hlt
  | countLast hpc hge =>
    simp only [nextBarrier, hpc, if_neg hge]
    exact h.countLast hpc hge
  | lock hpc hfree =>
    rcases hpc with hpc | hpc <;>
    · rw [hpc] at hround
      simp only [nextBarrier, hpc]
      exact h.goto rfl hpc hround rfl fun _ => rfl
  | stay hpc heq =>
    rw [hpc] at hround
    simp only [nextBarrier, hpc]
    exact h.goto rfl hpc hround rfl fun _ => rfl
  | go hpc hne =>
    -- the round that `current_round` is compared with is the one that the thread waits for
    rw [hpc] at hround
    simp only [nextBarrier, hpc]
    refine h.goto rfl hpc ?_ rfl fun _ => rfl
    refine (h.round_of_arrived (by rw [hpc]; rfl)).resolve_left fun heq => hne ?_
    rw [h.round_eq, heq]
    exact hround.symm
  | sleep hpc =>
    rw [hpc] at hround
    simp only [nextBarrier, hpc]
    exact h.goto rfl hpc hround rfl fun _ => rfl
  | wakeUp hpc =>
    rw [hpc] at hround
    simp only [nextBarrier, hpc]
    exact h.goto rfl hpc hround rfl fun _ => rfl
  | leave hpc =>
    rw [hpc] at hround
    simp only [nextBarrier, hpc]
    exact h.leave (by rw [hpc]; rfl) hround 0
  | reset hpc =>
    simp only [nextBarrier, hpc]
    exact h.reset hpc
  | publish hpc =>
    simp only [nextBarrier, hpc]
    exact h.publish hpc
  | serialLock hpc hfree =>
    rw [hpc] at hround
    simp only [nextBarrier, hpc]
    exact h.goto rfl hpc hround rfl fun _ => rfl
  | broadcast hpc =>
    simp only [nextBarrier, hpc]
    exact h.broadcast hpc
  | serialLeave hpc =>
    rw [hpc] at hround
    simp only [nextBarrier, hpc]
    exact h.leave (by rw [hpc]; rfl) hround serialThread

end Counted

end OsxBarrier

end AerospikeBenchmark
