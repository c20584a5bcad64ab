import AerospikeBenchmark.Lemmas.OsxBarrier
import AerospikeBenchmark.Lib.Runs

/-!
# The macOS barrier separates rounds

From the agreement with a cyclic barrier: no call returns before all threads have entered theirs. Three more invariants say who holds
the lock, that a thread asleep in a round that is over has the broadcast still to come, and which thread of each round is told that it
is the serial one.
-/

namespace AerospikeBenchmark

namespace OsxBarrier

variable {ι : Type} [DecidableEq ι] {s s' : State ι} {b : Barrier} {t : ι}

/-! ## The lock -/

/-- Whether a thread has the lock. -/
def Pc.holdsLock : Pc → Bool
  | .checking _ | .waiting _ | .leaving | .broadcasting | .serialLeaving => true
  | _ => false

/-- The lock is held by the thread that has it. -/
def Locked (s : State ι) : Prop := ∀ u, s.lock = some u ↔ (s.pc u).holdsLock = true

theorem Locked.keep (h : Locked s) {p q : Pc} (hpc : s'.pc = Function.update s.pc t p) (hlock : s'.lock = s.lock)
    (ht : s.pc t = q) (hp : p.holdsLock = q.holdsLock) : Locked s' := by
  intro u
  rw [hpc, hlock, h u]
  by_cases hu : u = t
  · subst hu
    rw [Function.update_self, ht, hp]
  · rw [Function.update_of_ne hu]

theorem Locked.take (h : Locked s) {p : Pc} (hpc : s'.pc = Function.update s.pc t p) (hlock : s'.lock = some t)
    (hfree : s.lock = none) (hp : p.holdsLock = true) : Locked s' := by
  intro u
  rw [hpc, hlock]
  by_cases hu : u = t
  · subst hu
    simp [hp]
  · rw [Function.update_of_ne hu, ← h u, hfree]
    simp [Ne.symm hu]

theorem Locked.release (h : Locked s) {p : Pc} (hpc : s'.pc = Function.update s.pc t p) (hlock : s'.lock = none)
    (ht : (s.pc t).holdsLock = true) (hp : p.holdsLock = false) : Locked s' := by
  intro u
  rw [hpc, hlock]
  by_cases hu : u = t
  · subst hu
    simp [hp]
  · rw [Function.update_of_ne hu, ← h u, (h t).mpr ht]
    simp [Ne.symm hu]

theorem Locked.step (h : Locked s) (hs : WaitStep s t s') : Locked s' := by
  cases hs with
  | call hpc | load hpc | count hpc | countLast hpc | stay hpc | go hpc | wakeUp hpc | reset hpc | publish hpc =>
    exact h.keep rfl rfl hpc rfl
  | lock _ hfree | serialLock _ hfree => exact h.take rfl rfl hfree rfl
  | sleep hpc | leave hpc | serialLeave hpc => exact h.release rfl rfl (by rw [hpc]; rfl) rfl
  | broadcast hpc =>
    intro u
    rw [h u]
    by_cases hu : u = t
    · subst hu
      simp [hpc, Pc.holdsLock]
    · simp only [Function.update_of_ne hu]
      cases s.pc u <;> rfl

/-! ## The broadcast -/

/-- Whether a thread sleeps, or is about to. -/
def Pc.sleeps : Pc → Bool
  | .waiting _ | .asleep _ => true
  | _ => false

/-- Whether a thread has the broadcast before it. -/
def Pc.beforeBroadcast : Pc → Bool
  | .serialLocking | .broadcasting => true
  | _ => false

/-- A thread that sleeps in a round that is over will be woken. -/
def Pending (s : State ι) (b : Barrier) : Prop :=
  ∀ u, (s.pc u).sleeps = true → b.round = s.passed u + 1 → ∃ v, (s.pc v).beforeBroadcast = true

/-- One thread goes on; it does not fall asleep in a round that is over, and the broadcast is not made. -/
theorem Pending.goto (h : Pending s b) {b' : Barrier} {p q : Pc} (hpc : s'.pc = Function.update s.pc t p) (ht : s.pc t = q)
    (hround : b'.round = b.round) (hpassed : ∀ u, u ≠ t → s'.passed u = s.passed u)
    (hsleep : p.sleeps = true → b'.round = s'.passed t + 1 → q.sleeps = true ∧ s'.passed t = s.passed t)
    (hcast : q.beforeBroadcast = true → p.beforeBroadcast = true) : Pending s' b' := by
  intro u hu hover
  obtain ⟨v, hv⟩ : ∃ v, (s.pc v).beforeBroadcast = true := by
    by_cases hut : u = t
    · subst hut
      rw [hpc, Function.update_self] at hu
      obtain ⟨hq, hsame⟩ := hsleep hu hover
      exact h u (ht ▸ hq) (by omega)
    · rw [hpc, Function.update_of_ne hut] at hu
      exact h u hu (by rw [← hpassed u hut, ← hround]; exact hover)
  refine ⟨v, ?_⟩
  rw [hpc]
  by_cases hvt : v = t
  · subst hvt
    rw [Function.update_self]
    exact hcast (ht ▸ hv)
  · rwa [Function.update_of_ne hvt]

theorem arrive_round (hne : b.arrived + 1 ≠ b.count) : b.arrive.round = b.round := by
  simp [Barrier.arrive, hne]

theorem passed_leave (v : Int) {u : ι} (hu : u ≠ t) : (s.leave t v).passed u = s.passed u := by
  simp [State.leave, State.passed, hu]

/-- A thread that neither goes to sleep nor was to broadcast. -/
theorem Pending.move (h : Pending s b) {b' : Barrier} {p q : Pc} (hpc : s'.pc = Function.update s.pc t p) (ht : s.pc t = q)
    (hround : b'.round = b.round) (hpassed : ∀ u, u ≠ t → s'.passed u = s.passed u) (hp : p.sleeps = false)
    (hq : q.beforeBroadcast = false) : Pending s' b' :=
  h.goto hpc ht hround hpassed (by simp [hp]) (by simp [hq])

theorem Pending.step [Fintype ι] (h : Pending s b) (hc : Counted s b) (hl : Locked s) (hs : WaitStep s t s') :
    Pending s' (nextBarrier s b t) := by
  have hsame : ∀ u, u ≠ t → s.passed u = s.passed u := fun _ _ => rfl
  cases hs with
  | call hpc | load hpc | go hpc | reset hpc =>
    simp only [nextBarrier, hpc]
    exact h.move rfl hpc rfl hsame rfl rfl
  | count hpc hlt =>
    simp only [nextBarrier, hpc, if_pos hlt]
    rw [hc.inCount_succ hpc, hc.count_eq] at hlt
    exact h.move rfl hpc (arrive_round hlt.ne) hsame rfl rfl
  | countLast hpc hge =>
    simp only [nextBarrier, hpc, if_neg hge]
    exact h.move rfl hpc rfl hsame rfl rfl
  | lock hpc hfree =>
    rcases hpc with hpc | hpc <;>
    · simp only [nextBarrier, hpc]
      exact h.move rfl hpc rfl hsame rfl rfl
  | @stay round hpc heq =>
    simp only [nextBarrier, hpc]
    refine h.goto rfl hpc rfl hsame ?_ (by simp [Pc.beforeBroadcast])
    -- it has just seen that the round is not over
    intro _ hover
    change b.round = s.passed t + 1 at hover
    have hround := hc.rounds t
    rw [hpc] at hround
    have hcur := hc.round_eq
    rw [heq, hround, hover] at hcur
    omega
  | sleep hpc =>
    simp only [nextBarrier, hpc]
    exact h.goto rfl hpc rfl hsame (fun _ _ => ⟨rfl, rfl⟩) (by simp [Pc.beforeBroadcast])
  | wakeUp hpc =>
    simp only [nextBarrier, hpc]
    exact h.move rfl hpc rfl hsame rfl rfl
  | leave hpc =>
    simp only [nextBarrier, hpc]
    exact h.move rfl hpc rfl (fun _ hu => passed_leave 0 hu) rfl rfl
  | publish hpc =>
    intro _ _ _
    exact ⟨t, by simp [State.goto, Pc.beforeBroadcast]⟩
  | serialLock hpc =>
    simp only [nextBarrier, hpc]
    exact h.goto rfl hpc rfl hsame (by simp [Pc.sleeps]) fun _ => rfl
  | broadcast hpc =>
    -- who is about to sleep has the lock, and all who sleep are woken
    intro u hu _
    by_cases hut : u = t
    · subst hut
      simp [Pc.sleeps] at hu
    · simp only [Function.update_of_ne hut] at hu
      have hheld : s.lock = some t := (hl t).mpr (by rw [hpc]; rfl)
      have hnot : ¬ s.lock = some u := by simp [hheld, Ne.symm hut]
      rw [hl u] at hnot
      generalize s.pc u = q at hu hnot
      cases q <;> first | exact absurd rfl hnot | cases hu
  | serialLeave hpc =>
    simp only [nextBarrier, hpc]
    exact h.move rfl hpc rfl (fun _ hu => passed_leave _ hu) rfl rfl

/-! ## The serial thread -/

/-- Whether a thread is the one that has published the next round. -/
def Pc.isSerial : Pc → Bool
  | .serialLocking | .broadcasting | .serialLeaving => true
  | _ => false

/-- In every round that is over one thread is the serial one: it returns with, or has returned, what the others do not. -/
structure Chosen (s : State ι) (b : Barrier) (serial : Nat → ι) : Prop where
  ended : ∀ u r, r < s.passed u → (s.returns u)[r]? = some (if serial r = u then serialThread else 0)
  chosen : ∀ u, (s.pc u).arrived = true → b.round = s.passed u + 1 → ((s.pc u).isSerial = true ↔ serial (s.passed u) = u)

/-- The serial threads after a step of `t`. -/
def nextSerial (s : State ι) (b : Barrier) (serial : Nat → ι) (t : ι) : Nat → ι :=
  match s.pc t with
  | .publishing _ => Function.update serial b.round t
  | _ => serial

namespace Chosen

variable {serial : Nat → ι}

theorem of_same (h : Chosen s b serial) (hreturns : s'.returns = s.returns)
    (hpc : ∀ u, (s'.pc u).arrived = (s.pc u).arrived ∧ (s'.pc u).isSerial = (s.pc u).isSerial) : Chosen s' b serial := by
  refine ⟨?_, ?_⟩
  · intro u r hr
    rw [passed_congr hreturns] at hr
    rw [hreturns]
    exact h.ended u r hr
  · intro u harr hover
    rw [passed_congr hreturns] at hover ⊢
    rw [(hpc u).1] at harr
    rw [(hpc u).2]
    exact h.chosen u harr hover

theorem goto (h : Chosen s b serial) {p q : Pc} (hreturns : s'.returns = s.returns) (hpc : s'.pc = Function.update s.pc t p)
    (ht : s.pc t = q) (harr : p.arrived = q.arrived) (hserial : p.isSerial = q.isSerial) : Chosen s' b serial := by
  refine h.of_same hreturns ?_
  rw [hpc]
  subst ht
  exact (Function.forall_update_iff s.pc fun u p => p.arrived = (s.pc u).arrived ∧ p.isSerial = (s.pc u).isSerial).mpr
    ⟨⟨harr, hserial⟩, fun _ _ => ⟨rfl, rfl⟩⟩

/-- A thread that arrives in a round that is not over. -/
theorem count [Fintype ι] (h : Chosen s b serial) (hc : Counted s b) {round n : Nat} (ht : s.pc t = .loaded round)
    (hround : b.arrive.round = b.round) : Chosen { s.goto t (.locking round) with inCount := n } b.arrive serial := by
  refine ⟨h.ended, ?_⟩
  intro u harr hover
  rw [hround] at hover
  by_cases hu : u = t
  · subst hu
    have hpassed := hc.passed_eq (t := u) (by rw [ht]; rfl)
    change b.round = s.passed u + 1 at hover
    omega
  · simp only [State.goto, Function.update_of_ne hu] at harr ⊢
    exact h.chosen u harr hover

/-- The last thread becomes the serial one. -/
theorem publish [Fintype ι] (h : Chosen s b serial) (hc : Counted s b) {round n : Nat} (ht : s.pc t = .publishing round) :
    Chosen { s.goto t .serialLocking with currentRound := n } b.arrive (Function.update serial b.round t) := by
  have hnot : (s.pc t).arrived = false := by rw [ht]; rfl
  have hfull := (hc.last t 0 (by rw [ht]; rfl)).1
  have hpassed := hc.passed_eq hnot
  refine ⟨?_, ?_⟩
  · intro u r hr
    have hle := (hc.synced.passed_le u).1
    change r < s.passed u at hr
    rw [Function.update_of_ne (by omega)]
    exact h.ended u r hr
  · intro u _ _
    change ((Function.update s.pc t Pc.serialLocking u).isSerial = true ↔ Function.update serial b.round t (s.passed u) = u)
    by_cases hu : u = t
    · subst hu
      rw [hpassed, Function.update_self, Function.update_self]
      simp [Pc.isSerial]
    · obtain ⟨-, hround⟩ := hc.others_arrived hnot hfull hu
      have hok := hc.rounds u
      rw [hround] at hok
      have hserial : (s.pc u).isSerial = false := by
        generalize s.pc u = q at hok
        cases q <;> first | rfl | (simp [Pc.RoundOk] at hok)
      rw [Function.update_of_ne hu, hserial, hround, Function.update_self]
      simp [Ne.symm hu]

/-- A call returns what its thread is in the round. -/
theorem leave (h : Chosen s b serial) (harr : (s.pc t).arrived = true) (hover : b.round = s.passed t + 1) {v : Int}
    (hv : v = if (s.pc t).isSerial then serialThread else 0) : Chosen (s.leave t v) b serial := by
  refine ⟨?_, ?_⟩
  · intro u r hr
    by_cases hu : u = t
    · subst hu
      have hlist : (s.leave u v).returns u = s.returns u ++ [v] := Function.update_self ..
      simp only [State.passed, hlist, List.length_append, List.length_singleton] at hr
      rw [hlist]
      by_cases hlast : r < s.passed u
      · rw [List.getElem?_append_left hlast]
        exact h.ended u r hlast
      · obtain rfl : r = (s.returns u).length := by
          simp only [State.passed] at hlast
          omega
        have hchosen := h.chosen u harr hover
        simp only [State.passed] at hchosen
        rw [List.getElem?_concat_length, hv]
        simp only [hchosen]
    · rw [passed_leave v hu] at hr
      have hlist : (s.leave t v).returns u = s.returns u := Function.update_of_ne hu _ _
      rw [hlist]
      exact h.ended u r hr
  · intro u hu hover'
    by_cases hut : u = t
    · subst hut
      simp [State.leave, State.goto, Pc.arrived] at hu
    · have hpc : (s.leave t v).pc u = s.pc u := Function.update_of_ne hut _ _
      rw [passed_leave v hut] at hover' ⊢
      rw [hpc] at hu ⊢
      exact h.chosen u hu hover'

theorem step [Fintype ι] (h : Chosen s b serial) (hc : Counted s b) (hs : WaitStep s t s') :
    Chosen s' (nextBarrier s b t) (nextSerial s b serial t) := by
  have hround := hc.rounds t
  cases hs with
  | call hpc | load hpc | stay hpc | go hpc | sleep hpc | wakeUp hpc | reset hpc | serialLock hpc =>
    simp only [nextBarrier, nextSerial, hpc]
    exact h.goto rfl rfl hpc rfl rfl
  | count hpc hlt =>
    simp only [nextBarrier, nextSerial, hpc, if_pos hlt]
    rw [hc.inCount_succ hpc, hc.count_eq] at hlt
    exact h.count hc hpc (arrive_round hlt.ne)
  | countLast hpc hge =>
    simp only [nextBarrier, nextSerial, hpc, if_neg hge]
    exact h.goto rfl rfl hpc rfl rfl
  | lock hpc hfree =>
    rcases hpc with hpc | hpc <;>
    · simp only [nextBarrier, nextSerial, hpc]
      exact h.goto rfl rfl hpc rfl rfl
  | leave hpc =>
    rw [hpc] at hround
    simp only [nextBarrier, nextSerial, hpc]
    exact h.leave (by rw [hpc]; rfl) hround (by rw [hpc]; rfl)
  | publish hpc =>
    simp only [nextBarrier, nextSerial, hpc]
    exact h.publish hc hpc
  | broadcast hpc =>
    simp only [nextBarrier, nextSerial, hpc]
    refine h.of_same rfl ?_
    refine (Function.forall_update_iff (fun u => wake (s.pc u)) fun u p =>
      p.arrived = (s.pc u).arrived ∧ p.isSerial = (s.pc u).isSerial).mpr ⟨by rw [hpc]; exact ⟨rfl, rfl⟩, ?_⟩
    intro u _
    cases s.pc u <;> exact ⟨rfl, rfl⟩
  | serialLeave hpc =>
    rw [hpc] at hround
    simp only [nextBarrier, nextSerial, hpc]
    exact h.leave (by rw [hpc]; rfl) hround (by rw [hpc]; rfl)

end Chosen

/-! ## Runs -/

/-- The barrier agrees with some cyclic barrier, whose rounds have their serial threads. -/
def Sound [Fintype ι] (s : State ι) : Prop := ∃ b serial, Counted s b ∧ Locked s ∧ Pending s b ∧ Chosen s b serial

theorem Sound.step [Fintype ι] (h : Sound s) (hs : waitStep s t = some s') : Sound s' := by
  obtain ⟨b, serial, hcounted, hlocked, hpending, hchosen⟩ := h
  have hcases := waitStep_cases hs
  exact ⟨nextBarrier s b t, nextSerial s b serial t, hcounted.step hcases, hlocked.step hcases,
    hpending.step hcounted hlocked hcases, hchosen.step hcounted hcases⟩

/-- Which numbers of threads are accepted, and the state they start in. -/
theorem init_eq_ok {ι : Type} {count : Nat} {s : State ι} (h : pthreadBarrierInit ι count = .ok s) :
    1 ≤ count ∧ count < 2 ^ 32 ∧ s = ⟨count, 0, 0, none, fun _ => .out, fun _ => []⟩ := by
  unfold pthreadBarrierInit barrierInThreshold at h
  split at h
  · cases h
  · next hnot => exact ⟨by omega, by omega, (Except.ok.inj h).symm⟩

theorem sound_init {count : Nat} {s : State (Fin count)} (h : pthreadBarrierInit (Fin count) count = .ok s) : Sound s := by
  obtain ⟨hpos, hlt, rfl⟩ := init_eq_ok h
  refine ⟨⟨count, 0, 0⟩, fun _ => ⟨0, hpos⟩, ⟨⟨?_, ?_, ?_, ?_⟩, rfl, hlt, hpos, rfl, ?_, ?_, ?_⟩, ?_, ?_, ⟨?_, ?_⟩⟩
  · exact (Fintype.card_fin count).symm
  · exact fun _ _ => rfl
  · intro p r hp
    cases hp
  · simp [State.waitingFor, Pc.arrived]
  · exact fun _ => trivial
  · intro u n hn
    cases hn
  · exact fun _ => rfl
  · intro u
    simp [Pc.holdsLock]
  · intro u hu
    cases hu
  · intro u r hr
    cases hr
  · intro u hu
    cases hu

/-- A thread is blocked only if it sleeps or somebody has the lock. -/
theorem asleep_of_blocked (h : Blocked s t) (hfree : s.lock = none) : ∃ round, s.pc t = .asleep round := by
  rcases h with h | h
  · exact h
  · unfold waitStep State.acquire at h
    rw [hfree] at h
    split at h <;> cases h

theorem not_blocked_of_holdsLock (h : (s.pc t).holdsLock = true) : ¬ Blocked s t := by
  rintro (⟨round, hpc⟩ | hnone)
  · rw [hpc] at h
    cases h
  · unfold waitStep at hnone
    cases hpc : s.pc t <;> rw [hpc] at h hnone <;> first | cases hnone | cases h

/-- Some thread is not blocked. -/
theorem Sound.exists_not_blocked [Fintype ι] (h : Sound s) : ∃ t, ¬ Blocked s t := by
  obtain ⟨b, serial, hcounted, hlocked, hpending, -⟩ := h
  by_contra hall
  push Not at hall
  have hfree : s.lock = none := by
    by_contra hheld
    obtain ⟨t, ht⟩ := Option.ne_none_iff_exists'.mp hheld
    exact not_blocked_of_holdsLock ((hlocked t).mp ht) (hall t)
  -- all sleep, and in the current round, since nobody is about to broadcast: but then the last one has arrived
  have hasleep : ∀ t, s.waitingFor t = some b.round := by
    intro t
    obtain ⟨round, hpc⟩ := asleep_of_blocked (hall t) hfree
    have harr : (s.pc t).arrived = true := by rw [hpc]; rfl
    rw [waitingFor_of_arrived harr]
    refine congrArg some ((hcounted.round_of_arrived harr).resolve_right fun hover => ?_).symm
    obtain ⟨v, hv⟩ := hpending t (by rw [hpc]; rfl) hover
    obtain ⟨round', hpc'⟩ := asleep_of_blocked (hall v) hfree
    rw [hpc'] at hv
    cases hv
  have hfull : b.arrived = b.count := by
    rw [hcounted.synced.arrived_eq, hcounted.synced.count_eq]
    simp [hasleep]
  exact hcounted.arrived_lt.ne hfull

theorem Sound.inCount_le [Fintype ι] (h : Sound s) : s.inCount ≤ s.count := by
  obtain ⟨b, serial, hcounted, -, -, -⟩ := h
  rw [hcounted.count_eq]
  by_cases hquiet : ∀ u, (s.pc u).lastCount b.count = none
  · rw [hcounted.quiet hquiet]
    exact hcounted.arrived_lt.le
  · push Not at hquiet
    obtain ⟨u, hu⟩ := hquiet
    obtain ⟨n, hn⟩ := Option.ne_none_iff_exists'.mp hu
    rw [(hcounted.last u n hn).2]
    generalize s.pc u = q at hn
    cases q <;> cases hn <;> omega

/-- A thread that has returned from a call finds that all have entered theirs. -/
theorem Sound.calls_of_returned [Fintype ι] (h : Sound s) {r : Nat} (hr : r < (s.returns t).length) (u : ι) : r < s.calls u := by
  obtain ⟨b, serial, hcounted, -, -, -⟩ := h
  have hle : s.passed t ≤ b.round := (hcounted.synced.passed_le t).1
  have hcalls : b.round ≤ s.calls u := by
    cases harr : (s.pc u).arrived with
    | false =>
      have hpassed : (s.returns u).length = b.round := hcounted.passed_eq harr
      simp only [State.calls]
      omega
    | true =>
      have hin : s.pc u ≠ .out := by
        intro hout
        rw [hout] at harr
        cases harr
      have hround : b.round ≤ (s.returns u).length + 1 := (hcounted.synced.passed_le u).2
      simp only [State.calls, if_neg hin]
      exact hround
  simp only [State.passed] at hle
  omega

/-- What the calls of a round have returned: one and the same thread was the serial one. -/
theorem Sound.serial [Fintype ι] (h : Sound s) (r : Nat) :
    ∃ t, ∀ u, r < (s.returns u).length → (s.returns u)[r]? = some (if t = u then serialThread else 0) := by
  obtain ⟨b, serial, -, -, -, hchosen⟩ := h
  exact ⟨serial r, fun u hu => hchosen.ended u r hu⟩

/-- A thread asleep in a round from which another has returned is about to be woken. -/
theorem Sound.broadcast_pending [Fintype ι] (h : Sound s) {round : Nat} (hpc : s.pc t = .asleep round) {u : ι}
    (hu : (s.returns t).length < (s.returns u).length) : ∃ v, s.pc v = .serialLocking ∨ s.pc v = .broadcasting := by
  obtain ⟨b, serial, hcounted, -, hpending, -⟩ := h
  have hle : (s.returns u).length ≤ b.round := (hcounted.synced.passed_le u).1
  have hover : b.round ≤ (s.returns t).length + 1 := (hcounted.synced.passed_le t).2
  obtain ⟨v, hv⟩ := hpending t (by rw [hpc]; rfl) (by simp only [State.passed]; omega)
  refine ⟨v, ?_⟩
  generalize s.pc v = q at hv
  cases q <;> first | exact Or.inl rfl | exact Or.inr rfl | cases hv

/-- For every number of threads that is accepted, in every interleaving: no call returns before all threads have entered theirs of the
same round; in a round that all have returned from exactly one was told to be the serial thread, and before that at most one; `in` is
at most `count`; and never are all threads blocked, nor does one sleep on while others have left its round unless a broadcast is yet to
come. -/
theorem barrier_separates_rounds (count : Nat) (s₀ s : State (Fin count)) (hinit : pthreadBarrierInit (Fin count) count = .ok s₀)
    (ts : List (Fin count)) (hrun : Runs.run waitStep s₀ ts = some s) :
    (∀ t r, r < (s.returns t).length → ∀ u, r < s.calls u) ∧
    (∀ r, (∀ t, r < (s.returns t).length) → ∃! t, (s.returns t)[r]? = some serialThread) ∧
    (∀ (r : Nat) t u, (s.returns t)[r]? = some serialThread → (s.returns u)[r]? = some serialThread → t = u) ∧
    s.inCount ≤ s.count ∧
    (∃ t, ¬ Blocked s t) ∧
    (∀ t u round, s.pc t = .asleep round → (s.returns t).length < (s.returns u).length →
      ∃ v, s.pc v = .serialLocking ∨ s.pc v = .broadcasting) := by
  have hsound : Sound s := (Runs.throughout_of_step (fun _ _ _ h hs => h.step hs) (sound_init hinit)).last hrun
  have hserial : ∀ r : Nat, ∃ t, ∀ u, (s.returns u)[r]? = some serialThread → t = u := by
    intro r
    obtain ⟨t, ht⟩ := hsound.serial r
    refine ⟨t, fun u hu => ?_⟩
    have hreturned := ht u (List.getElem?_eq_some_iff.mp hu).1
    rw [hu] at hreturned
    by_contra hne
    rw [if_neg hne] at hreturned
    exact absurd hreturned (by decide)
  refine ⟨fun t r hr u => hsound.calls_of_returned hr u, ?_, ?_, hsound.inCount_le, hsound.exists_not_blocked, ?_⟩
  · intro r hall
    obtain ⟨t, ht⟩ := hsound.serial r
    obtain ⟨t', ht'⟩ := hserial r
    have hmine := ht t (hall t)
    rw [if_pos rfl] at hmine
    exact ⟨t, hmine, fun u hu => (ht' u hu).symm.trans (ht' t hmine)⟩
  · intro r t u ht hu
    obtain ⟨v, hv⟩ := hserial r
    exact (hv t ht).symm.trans (hv u hu)
  · exact fun t u round hpc hu => hsound.broadcast_pending hpc hu

/-- Two threads in one round: the first goes to sleep, the second wakes it. -/
def twoThreads : List (Fin 2) := List.replicate 6 0 ++ List.replicate 8 1 ++ List.replicate 3 0

theorem barrier_separates_rounds_two : ∃ s₀ s : State (Fin 2),
    pthreadBarrierInit (Fin 2) 2 = .ok s₀ ∧ Runs.run waitStep s₀ twoThreads = some s ∧ (∀ t, 0 < (s.returns t).length) ∧
    (∀ t, 0 < s.calls t) ∧ (∃! t, (s.returns t)[0]? = some serialThread) ∧ s.inCount ≤ s.count ∧ ∃ t, ¬ Blocked s t := by
  let s₀ : State (Fin 2) := ⟨2, 0, 0, none, fun _ => .out, fun _ => []⟩
  let s : State (Fin 2) := (Runs.run waitStep s₀ twoThreads).get (by decide +kernel)
  have hrun : Runs.run waitStep s₀ twoThreads = some s := (Option.some_get _).symm
  have hreturned : ∀ t, 0 < (s.returns t).length := by decide +kernel
  obtain ⟨hcalls, hserial, -, hin, hblocked, -⟩ := barrier_separates_rounds 2 s₀ s rfl twoThreads hrun
  exact ⟨s₀, s, rfl, hrun, hreturned, hcalls 0 0 (hreturned 0), hserial 0 hreturned, hin, hblocked⟩

end OsxBarrier

end AerospikeBenchmark
