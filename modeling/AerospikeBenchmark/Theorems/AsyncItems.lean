import AerospikeBenchmark.Theorems.Queue
import AerospikeBenchmark.Transaction.AsyncItems

/-!
# Async items are conserved

Each item of an asynchronous stage is in one place: in the queue, with the issuing thread, or in flight. So the queue never holds more
items than it was initialised for, which is what its own correctness rests on, and the last loop of `do_async_workload` takes every
item back before the memory is freed.
-/

namespace AerospikeBenchmark

open CText Runs

variable {α : Type} {n : Nat}

/-! ## What a step does -/

/-- The steps of a stage, each with the state it leads to. -/
inductive ItemMove (s : Stage) (st : ItemPool n) : ItemPool n → Prop where
  | fill (i : Fin n) (hphase : st.phase = .fill i) :
      ItemMove s st { st with queue := st.queue.reserve i, phase := .filling i }
  | giveBack (key : Nat) (item : Fin n) (hphase : st.phase = .failed key item) :
      ItemMove s st { st with queue := st.queue.reserve item, phase := .returning key item }
  | store (i : Nat) (p : Push (Fin n)) (hp : st.queue.pending[i]? = some p) (hown : st.phase.pushing = some p.item) :
      ItemMove s st { st with queue := st.queue.store i p, phase := st.phase.stored s }
  | test (key : Nat) (doWork : Bool) (hphase : st.phase = .test key) :
      ItemMove s st { st with phase := if s.goesOn doWork key then .popWait key else .drain [] }
  | load (hpops : st.phase.pops = true) (hidle : st.queue.popping = false) : ItemMove s st { st with queue := st.queue.load }
  | exchange (hpops : st.phase.pops = true) (hmid : st.queue.popping = true) : ItemMove s st { st with
      queue := st.queue.exchange
      phase := st.phase.popReturn (st.queue.queue.items (st.queue.queue.index st.queue.queue.head)) }
  | callOk (key : Nat) (item : Fin n) (call : AsyncCall) (hphase : st.phase = .issue key item) :
      ItemMove s st { st with phase := .test (s.nextKey key), inFlight := st.inFlight ++ [(call, item)] }
  | callFailed (key : Nat) (item : Fin n) (hphase : st.phase = .issue key item) :
      ItemMove s st { st with phase := .failed key item }
  | listener (i : Nat) (op : AsyncCall × Fin n) (hop : st.inFlight[i]? = some op) :
      ItemMove s st { st with queue := st.queue.reserve op.2, inFlight := st.inFlight.eraseIdx i }
  | listenerStore (i : Nat) (p : Push (Fin n)) (hp : st.queue.pending[i]? = some p) :
      ItemMove s st { st with queue := st.queue.store i p }
  | free (popped : List (Fin n)) (hphase : st.phase = .drain popped) (hall : n ≤ popped.length) :
      ItemMove s st { st with phase := .freed popped }

theorem itemMove_of_step {cast : FpNum → Nat} {s : Stage} {st st' : ItemPool n} {e : ItemEvent} (h : itemStep cast s st e = some st') :
    ItemMove s st st' := by
  cases e with
  | push =>
    simp only [itemStep, ItemPool.push] at h
    cases hphase : st.phase with
    | fill i =>
      rw [hphase] at h
      exact Option.some.inj h ▸ .fill i hphase
    | failed key item =>
      rw [hphase] at h
      exact Option.some.inj h ▸ .giveBack key item hphase
    | _ =>
      rw [hphase] at h
      cases h
  | store i =>
    simp only [itemStep, ItemPool.store] at h
    cases hp : st.queue.pending[i]? with
    | none => simp [hp] at h
    | some p =>
      simp only [hp] at h
      split at h
      · next hown => exact Option.some.inj h ▸ .store i p hp hown
      · cases h
  | test doWork =>
    simp only [itemStep] at h
    cases hphase : st.phase with
    | test key =>
      rw [hphase] at h
      exact Option.some.inj h ▸ .test key doWork hphase
    | _ =>
      rw [hphase] at h
      cases h
  | load =>
    simp only [itemStep] at h
    split at h
    · next hpops =>
      simp only [Bool.and_eq_true, Bool.not_eq_true'] at hpops
      exact Option.some.inj h ▸ .load hpops.1 hpops.2
    · cases h
  | exchange =>
    simp only [itemStep] at h
    split at h
    · next hpops =>
      simp only [Bool.and_eq_true] at hpops
      exact Option.some.inj h ▸ .exchange hpops.1 hpops.2
    · cases h
  | call word ok =>
    simp only [itemStep, ItemPool.call] at h
    cases hphase : st.phase with
    | issue key item =>
      rw [hphase] at h
      cases ok with
      | true => exact Option.some.inj h ▸ .callOk key item _ hphase
      | false => exact Option.some.inj h ▸ .callFailed key item hphase
    | _ =>
      rw [hphase] at h
      cases h
  | listener i =>
    obtain ⟨op, hop, rfl⟩ := Option.map_eq_some_iff.mp h
    exact .listener i op hop
  | listenerStore i =>
    simp only [itemStep, ItemPool.listenerStore] at h
    cases hp : st.queue.pending[i]? with
    | none => simp [hp] at h
    | some p =>
      simp only [hp] at h
      split at h
      · cases h
      · exact Option.some.inj h ▸ .listenerStore i p hp
  | free =>
    simp only [itemStep] at h
    cases hphase : st.phase with
    | drain popped =>
      simp only [hphase] at h
      split at h
      · cases h
      · next hall => exact Option.some.inj h ▸ .free popped hphase (Nat.not_lt.mp hall)
    | _ =>
      rw [hphase] at h
      cases h

/-! ## Places -/

/-- The items in the queue, from the head on: those pushed or being pushed and not yet popped. -/
def QueueRun.contents (s : QueueRun α) : List α := s.reserved.drop s.popped.length

/-- The items the issuing thread holds: those it has not pushed for the first time, the one it has popped for an operation, and
those it has popped in the end. -/
def IssuePhase.held : IssuePhase n → List (Fin n)
  | .fill i => (List.finRange n).drop i
  | .filling i => (List.finRange n).drop (i + 1)
  | .test _ | .popWait _ | .returning _ _ => []
  | .issue _ item | .failed _ item => [item]
  | .drain popped | .freed popped => popped

/-- How often an item is in one of the three places: in the queue, with the issuing thread, or in flight. -/
def ItemPool.places (st : ItemPool n) (item : Fin n) : Nat :=
  st.queue.contents.count item + st.phase.held.count item + (st.inFlight.map Prod.snd).count item

theorem contents_reserve {qLen k : Nat} {q : QueueRun α} (h : QueueInv qLen k q) (item : α) :
    (q.reserve item).contents = q.contents ++ [item] := List.drop_append_of_le_length h.popped_le

theorem contents_store (q : QueueRun α) (i : Nat) (p : Push α) : (q.store i p).contents = q.contents := rfl

theorem contents_load (q : QueueRun α) : q.load.contents = q.contents := by
  unfold QueueRun.load
  split
  · rfl
  · simp [QueueRun.contents, QueueRun.popped]

/-- An exchange takes the first item out of the queue, if it returns any. -/
theorem contents_exchange {qLen k : Nat} {q : QueueRun α} (h : QueueInv qLen k q) (hmid : q.popping = true) :
    q.contents = (q.queue.items (q.queue.index q.queue.head)).toList ++ q.exchange.contents := by
  have hhead := h.items_head hmid
  have hlt := h.popping hmid
  split at hhead
  · simp [QueueRun.contents, QueueRun.popped, QueueRun.exchange, hhead]
  · rw [List.getElem?_eq_getElem hlt] at hhead
    have hpopped : q.exchange.popped.length = q.popped.length + 1 := by simp [QueueRun.popped, QueueRun.exchange, hhead]
    rw [hhead, QueueRun.contents, QueueRun.contents, hpopped]
    exact List.drop_eq_getElem_cons hlt

theorem held_fill (i : Fin n) : (IssuePhase.fill i).held = i :: (IssuePhase.filling i).held := by
  have hlt : i.val < (List.finRange n).length := by rw [List.length_finRange]; exact i.isLt
  simp only [IssuePhase.held]
  rw [List.drop_eq_getElem_cons hlt, List.getElem_finRange]
  rfl

theorem held_nextFill (s : Stage) (i : Nat) : (nextFill n s i).held = (List.finRange n).drop i := by
  unfold nextFill
  split
  · rfl
  · next hge =>
    rw [List.drop_eq_nil_of_le]
    · rfl
    · rw [List.length_finRange]
      exact Nat.not_lt.mp hge

/-- Storing an item changes nothing in what the thread holds. -/
theorem held_stored (s : Stage) {phase : IssuePhase n} {item : Fin n} (h : phase.pushing = some item) :
    (phase.stored s).held = phase.held := by
  cases phase with
  | filling i => exact held_nextFill s (i + 1)
  | returning key item => rfl
  | _ => cases h

/-- What a pop returns is held. -/
theorem held_popReturn {phase : IssuePhase n} (h : phase.pops = true) (result : Option (Fin n)) :
    (phase.popReturn result).held = phase.held ++ result.toList := by
  cases phase with
  | popWait key => cases result <;> rfl
  | drain popped => cases result <;> simp [IssuePhase.popReturn, IssuePhase.held]
  | _ => cases h

/-! ## The invariant -/

/-- What holds of the items of a stage. -/
structure PoolInv (k : Nat) (st : ItemPool n) : Prop where
  queue : QueueInv n k st.queue
  once : ∀ item, st.places item = 1
  freed : ∀ popped, st.phase = .freed popped → n ≤ popped.length

/-- A list in which no item comes twice. -/
theorem nodup_of_places {st : ItemPool n} (h : ∀ item, st.places item = 1) {items : List (Fin n)}
    (hle : ∀ item, items.count item ≤ st.places item) : items.Nodup := by
  rw [List.nodup_iff_count_le_one]
  intro item
  exact h item ▸ hle item

namespace PoolInv

variable {k : Nat} {st : ItemPool n}

theorem length_contents_le (h : PoolInv k st) : st.queue.contents.length ≤ n := by
  have hnodup : st.queue.contents.Nodup := nodup_of_places h.once fun item => by unfold ItemPool.places; omega
  simpa using hnodup.length_le_card

/-- There is room in the queue for an item that is elsewhere. -/
theorem room (h : PoolInv k st) (item : Fin n) (helse : 1 ≤ st.phase.held.count item + (st.inFlight.map Prod.snd).count item) :
    st.queue.reserved.length < st.queue.popped.length + n := by
  have hnodup : (item :: st.queue.contents).Nodup := by
    refine nodup_of_places h.once fun a => ?_
    unfold ItemPool.places
    rw [List.count_cons]
    split
    · next heq =>
      obtain rfl := eq_of_beq heq
      omega
    · omega
  have hle := hnodup.length_le_card
  simp only [List.length_cons, Fintype.card_fin, QueueRun.contents, List.length_drop] at hle
  omega

/-- A step that moves no item keeps the invariant. -/
theorem of_same (h : PoolInv k st) {st' : ItemPool n} (hqueue : QueueInv n k st'.queue)
    (hcontents : st'.queue.contents = st.queue.contents) (hheld : st'.phase.held = st.phase.held)
    (hinFlight : st'.inFlight = st.inFlight) (hfreed : ∀ popped, st'.phase = .freed popped → n ≤ popped.length) : PoolInv k st' := by
  refine ⟨hqueue, fun item => ?_, hfreed⟩
  rw [ItemPool.places, hcontents, hheld, hinFlight]
  exact h.once item

/-- A push of an item that the issuing thread holds. -/
theorem push (h : PoolInv k st) {item : Fin n} (phase : IssuePhase n) (hheld : st.phase.held = item :: phase.held)
    (hfreed : ∀ popped, phase ≠ .freed popped) : PoolInv k { st with queue := st.queue.reserve item, phase := phase } := by
  refine ⟨h.queue.reserve item (h.room item ?_), fun a => ?_, fun popped hphase => absurd hphase (hfreed popped)⟩
  · rw [hheld, List.count_cons_self]
    omega
  · have hone := h.once a
    rw [ItemPool.places, hheld, List.count_cons] at hone
    rw [ItemPool.places, contents_reserve h.queue, List.count_append, List.count_singleton]
    dsimp only
    omega

/-- Every step keeps the invariant. -/
theorem move {s : Stage} {st' : ItemPool n} (h : PoolInv k st) (hmove : ItemMove s st st') : PoolInv k st' := by
  cases hmove with
  | fill i hphase => exact h.push _ (hphase ▸ held_fill i) nofun
  | giveBack key item hphase => exact h.push (.returning key item) (hphase ▸ rfl) nofun
  | store i p hp hown =>
    refine h.of_same (h.queue.store hp) (contents_store _ i p) (held_stored s hown) rfl fun popped hphase => ?_
    cases hst : st.phase with
    | filling i =>
      simp only [hst, IssuePhase.stored, nextFill] at hphase
      split at hphase <;> cases hphase
    | returning key item => simp [hst, IssuePhase.stored] at hphase
    | _ => simp [hst, IssuePhase.pushing] at hown
  | test key doWork hphase =>
    refine h.of_same h.queue rfl ?_ rfl fun popped hfreed => ?_
    · simp only [hphase]
      split <;> rfl
    · simp only at hfreed
      split at hfreed <;> cases hfreed
  | load hpops hidle => exact h.of_same h.queue.load (contents_load _) rfl rfl h.freed
  | exchange hpops hmid =>
    have hcontents := contents_exchange h.queue hmid
    generalize st.queue.queue.items (st.queue.queue.index st.queue.queue.head) = result at hcontents ⊢
    refine ⟨h.queue.exchange hmid, fun item => ?_, fun popped hfreed => ?_⟩
    · have hone := h.once item
      rw [ItemPool.places, hcontents, List.count_append] at hone
      rw [ItemPool.places, held_popReturn hpops, List.count_append]
      dsimp only
      omega
    · cases hphase : st.phase with
      | popWait key => cases result <;> simp [hphase, IssuePhase.popReturn] at hfreed
      | drain popped => cases result <;> simp [hphase, IssuePhase.popReturn] at hfreed
      | _ => simp [hphase, IssuePhase.pops] at hpops
  | callOk key item call hphase =>
    refine ⟨h.queue, fun a => ?_, nofun⟩
    have hone := h.once a
    simp only [ItemPool.places, hphase, IssuePhase.held, List.map_append, List.map_singleton, List.count_append, List.count_nil] at hone ⊢
    omega
  | callFailed key item hphase => exact h.of_same h.queue rfl (hphase ▸ rfl) rfl nofun
  | listener i op hop =>
    obtain ⟨hlt, hget⟩ := List.getElem?_eq_some_iff.mp hop
    -- the operation of the item leaves, the item itself goes to the queue
    have hcount (a : Fin n) : (st.inFlight.map Prod.snd).count a =
        ((st.inFlight.eraseIdx i).map Prod.snd).count a + [op.2].count a := by
      rw [← ((List.getElem_cons_eraseIdx_perm hlt).map Prod.snd).count_eq a, hget, List.map_cons, List.count_cons,
        List.count_singleton]
    refine ⟨h.queue.reserve op.2 (h.room op.2 ?_), fun a => ?_, h.freed⟩
    · rw [hcount, List.count_singleton_self]
      omega
    · have hone := h.once a
      rw [ItemPool.places, hcount] at hone
      rw [ItemPool.places, contents_reserve h.queue, List.count_append]
      dsimp only
      omega
  | listenerStore i p hp => exact h.of_same (h.queue.store hp) (contents_store _ i p) rfl rfl h.freed
  | free popped hphase hall =>
    refine h.of_same h.queue rfl (hphase ▸ rfl) rfl fun popped' hfreed => ?_
    cases hfreed
    exact hall

end PoolInv

/-! ## Conservation -/

/-- What is promised of the items of a stage. -/
structure ItemsConserved (st : ItemPool n) : Prop where
  /-- Each item is in one of the three places, and there once. -/
  once : ∀ item, st.places item = 1
  /-- The queue holds no more items than it was initialised for, and works as it should. -/
  bounded : st.queue.contents.length ≤ n
  queue : QueueSafe st.queue
  /-- While the last loop has items to come, they are in the queue or in flight. -/
  waits : ∀ popped, st.phase = .drain popped → popped.length < n → st.queue.contents ≠ [] ∨ st.inFlight ≠ []
  /-- When the memory is freed the last loop has popped every item once, and no operation and no push is under way. -/
  freed : ∀ popped, st.phase = .freed popped → popped.Perm (List.finRange n) ∧ st.inFlight = [] ∧ st.queue.pending = []

theorem PoolInv.perm_of_freed {k : Nat} {st : ItemPool n} (h : PoolInv k st) {popped : List (Fin n)} (hphase : st.phase = .freed popped) :
    popped.Perm (List.finRange n) := by
  have hnodup : popped.Nodup := by
    refine nodup_of_places h.once fun item => ?_
    rw [ItemPool.places, hphase, IssuePhase.held]
    omega
  refine (List.subperm_of_subset hnodup fun item _ => List.mem_finRange item).perm_of_length_le ?_
  rw [List.length_finRange]
  exact h.freed popped hphase

theorem PoolInv.conserved {k : Nat} {st : ItemPool n} (h : PoolInv k st) : ItemsConserved st where
  once := h.once
  bounded := h.length_contents_le
  queue := h.queue.safe
  waits popped hphase hlt := by
    by_contra hnone
    simp only [not_or, not_not] at hnone
    -- all items would be among those popped, which are too few
    have hmem (item : Fin n) : item ∈ popped := by
      have hone := h.once item
      rw [ItemPool.places, hnone.1, hnone.2, hphase, IssuePhase.held] at hone
      exact List.count_pos_iff.mp (by simp at hone; omega)
    have hle := (List.subperm_of_subset (List.nodup_finRange n) fun item _ => hmem item).length_le
    rw [List.length_finRange] at hle
    omega
  freed popped hphase := by
    have hperm := h.perm_of_freed hphase
    have hzero (item : Fin n) : item ∉ st.queue.contents ∧ item ∉ st.inFlight.map Prod.snd := by
      have hone := h.once item
      have hpopped : popped.count item = 1 := by
        rw [hperm.count_eq, List.count_eq_one_of_mem (List.nodup_finRange n) (List.mem_finRange item)]
      rw [ItemPool.places, hphase, IssuePhase.held, hpopped] at hone
      exact ⟨List.count_eq_zero.mp (by omega), List.count_eq_zero.mp (by omega)⟩
    have hcontents : st.queue.contents = [] := List.eq_nil_iff_forall_not_mem.mpr fun item => (hzero item).1
    have hlen := congrArg List.length hcontents
    rw [QueueRun.contents, List.length_drop, List.length_nil] at hlen
    refine ⟨hperm, ?_, ?_⟩
    · exact List.map_eq_nil_iff.mp (List.eq_nil_iff_forall_not_mem.mpr fun item => (hzero item).2)
    · refine List.eq_nil_iff_forall_not_mem.mpr fun p hp => ?_
      have hlow := (h.queue.pushes p hp).1
      have hlt := h.queue.nth_lt hp
      omega

/-- For every asynchronous stage with 1 to below `2 ^ 31` items and every interleaving of the issuing thread with the listeners of its
operations, the items are conserved in every state reached. -/
theorem async_items_conserved (cast : FpNum → Nat) (s : Stage) (n : Nat) (hpos : 0 < n) (hlt : n < 2 ^ 31) :
    ∃ q, queueInit (UInt32.ofNat n) = some q ∧
      ∀ events, Throughout (itemStep cast s) ItemsConserved (ItemPool.init n s q) events := by
  have hnat : (UInt32.ofNat n).toNat = n := by
    rw [UInt32.toNat_ofNat', Nat.mod_eq_of_lt (by omega)]
  have hne : UInt32.ofNat n ≠ 0 := by
    intro h
    rw [h] at hnat
    exact absurd hnat (by simp; omega)
  obtain ⟨k, hk, hlen, hmask⟩ := nextPow2_spec hne (by omega)
  refine ⟨⟨fun _ => none, nextPow2 (UInt32.ofNat n) - 1, 0, 0⟩, if_neg hne, ?_⟩
  intro events
  rw [hnat] at hlen
  have hqueue := QueueInv.init (α := Fin n) (q := ⟨fun _ => none, nextPow2 (UInt32.ofNat n) - 1, 0, 0⟩) hk hlen hmask
    (fun _ => rfl) rfl rfl
  have hinit : PoolInv k (ItemPool.init n s ⟨fun _ => none, nextPow2 (UInt32.ofNat n) - 1, 0, 0⟩) := by
    refine ⟨hqueue, fun item => ?_, fun popped hphase => ?_⟩
    · rw [ItemPool.places]
      simp [ItemPool.init, held_nextFill, QueueRun.contents, QueueRun.init,
        List.count_eq_one_of_mem (List.nodup_finRange n) (List.mem_finRange item)]
    · simp only [ItemPool.init, nextFill, dif_pos hpos] at hphase
      cases hphase
  exact (throughout_of_step (fun _ _ _ h hstep => h.move (itemMove_of_step hstep)) hinit).imp fun _ h => h.conserved

/-- A stage that inserts one key. -/
def oneKeyStage : Stage := { Stage.ofWorkload ⟨.i, .nan, .nan, .nan, .num 100⟩ 1 2 with async := true }

/-- Two items, of which the last loop pops one while the operation of the other is in flight and its listener half done. -/
theorem async_items_conserved_two :
    (∃ q, queueInit (UInt32.ofNat 2) = some q ∧
      ∀ events, Throughout (itemStep (fun _ => 0) oneKeyStage) ItemsConserved (ItemPool.init 2 oneKeyStage q) events) ∧
    (run (itemStep (fun _ => 0) oneKeyStage) (ItemPool.init 2 oneKeyStage ⟨fun _ => none, 3, 0, 0⟩)
      [.push, .store 0, .push, .store 0, .test true, .load, .exchange, .call 0 true, .test true, .load, .exchange, .listener 0, .load,
        .exchange, .listenerStore 0, .load, .exchange, .free]).map ItemPool.phase = some (.freed [1, 0]) :=
  ⟨async_items_conserved (fun _ => 0) oneKeyStage 2 (by decide) (by decide), by decide +kernel⟩

end AerospikeBenchmark
