import Mathlib.Data.List.InsertIdx
import AerospikeBenchmark.Transaction.Queue

/-!
# The invariant of the queue

Reservations are numbered without bound. The ones from the number of pops up to the number of reservations are in the ring, and there
are fewer of them than slots: the slot of each is its own, and holds its item as soon as the push has stored it.
-/

namespace AerospikeBenchmark

open Ring

variable {α : Type}

/-! ## The length of the ring -/

/-- The length is a power of two above the one asked for. -/
theorem nextPow2_spec {n : UInt32} (hpos : n ≠ 0) (hlt : n.toNat < 2 ^ 31) :
    ∃ k, k ≤ 31 ∧ n.toNat < 2 ^ k ∧ (nextPow2 n - 1).toNat = 2 ^ k - 1 := by
  have hne : n.toNat ≠ 0 := by
    intro h
    exact hpos (UInt32.toNat_inj.mp h)
  have hlog : n.toNat.log2 < 31 := (Nat.log2_lt hne).mpr hlt
  have hshift : 0x80000000 >>> (clz32 n - 1) = 2 ^ (n.toNat.log2 + 1) := by
    rw [clz32, Nat.shiftRight_eq_div_pow, show (0x80000000 : Nat) = 2 ^ 31 from rfl, Nat.pow_div (by omega) (by decide)]
    congr 1
    omega
  have hsize : 2 ^ (n.toNat.log2 + 1) ≤ 2 ^ 31 := Nat.pow_le_pow_right (by decide) (by omega)
  refine ⟨n.toNat.log2 + 1, by omega, Nat.lt_log2_self, ?_⟩
  have hlen : (nextPow2 n).toNat = 2 ^ (n.toNat.log2 + 1) := by
    rw [nextPow2, hshift, UInt32.toNat_ofNat', Nat.mod_eq_of_lt (by omega)]
  have hone := Nat.one_le_two_pow (n := n.toNat.log2 + 1)
  rw [UInt32.toNat_sub_of_le _ _ (by rw [UInt32.le_iff_toNat_le, hlen]; exact hone), hlen]
  rfl

/-! ## The invariant -/

/-- What holds of a queue for `qLen` items on a ring of `2 ^ k` slots. -/
structure QueueInv (qLen k : Nat) (s : QueueRun α) : Prop where
  short : k ≤ 31
  room : qLen < 2 ^ k
  mask : s.queue.lenMask.toNat = 2 ^ k - 1
  pos : s.queue.pos = UInt32.ofNat s.reserved.length
  head : s.queue.head = UInt32.ofNat s.popped.length
  fifo : s.popped <+: s.reserved
  within : s.reserved.length ≤ s.popped.length + qLen
  nodup : (s.pending.map Push.nth).Nodup
  pushes : ∀ p ∈ s.pending, s.popped.length ≤ p.nth ∧ p.pos = UInt32.ofNat p.nth ∧ s.reserved[p.nth]? = some p.item
  -- the slot of a reservation is empty until the push stores
  slots : ∀ n, s.popped.length ≤ n → n < s.reserved.length →
    s.queue.items (slot s.queue.lenMask n) = if n ∈ s.pending.map Push.nth then none else s.reserved[n]?
  others : ∀ i, s.queue.items i ≠ none → ∃ n, s.popped.length ≤ n ∧ n < s.reserved.length ∧ i = slot s.queue.lenMask n
  popping : s.popping = true → s.popped.length < s.reserved.length

namespace QueueInv

variable {qLen k : Nat} {s : QueueRun α}

theorem init {q : Queue α} (hk : k ≤ 31) (hroom : qLen < 2 ^ k) (hmask : q.lenMask.toNat = 2 ^ k - 1) (hitems : ∀ i, q.items i = none)
    (hpos : q.pos = 0) (hhead : q.head = 0) : QueueInv qLen k (QueueRun.init q) where
  short := hk
  room := hroom
  mask := hmask
  pos := hpos
  head := hhead
  fifo := List.prefix_refl _
  within := Nat.zero_le _
  nodup := List.nodup_nil
  pushes _ hp := absurd hp List.not_mem_nil
  slots n _ hn := absurd hn (Nat.not_lt_zero n)
  others i hi := absurd (hitems i) hi
  popping h := absurd h Bool.false_ne_true

theorem popped_le (h : QueueInv qLen k s) : s.popped.length ≤ s.reserved.length := h.fifo.length_le

/-- The number of a push in progress lies within the window. -/
theorem nth_lt (h : QueueInv qLen k s) {p : Push α} (hp : p ∈ s.pending) : p.nth < s.reserved.length :=
  (List.getElem?_eq_some_iff.mp (h.pushes p hp).2.2).1

/-- Two positions of the window, or its end, have different slots. -/
theorem slot_ne (h : QueueInv qLen k s) {n m : Nat} (hn : s.popped.length ≤ n) (hn' : n ≤ s.popped.length + qLen)
    (hm : s.popped.length ≤ m) (hm' : m ≤ s.popped.length + qLen) (hne : n ≠ m) :
    slot s.queue.lenMask n ≠ slot s.queue.lenMask m := by
  have hk := h.short
  have hroom := h.room
  intro heq
  exact hne (slot_inj (by omega) h.mask (by omega) (by omega) heq)

/-- A slot that no reservation of the window has is empty. -/
theorem items_eq_none (h : QueueInv qLen k s) {i : UInt32}
    (hi : ∀ n, s.popped.length ≤ n → n < s.reserved.length → i ≠ slot s.queue.lenMask n) : s.queue.items i = none := by
  by_contra hne
  obtain ⟨n, hlow, hhigh, heq⟩ := h.others i hne
  exact hi n hlow hhigh heq

theorem index_head (h : QueueInv qLen k s) : s.queue.index s.queue.head = slot s.queue.lenMask s.popped.length := by
  rw [Queue.index, h.head, slot]

theorem index_push (h : QueueInv qLen k s) {p : Push α} (hp : p ∈ s.pending) :
    s.queue.index p.pos = slot s.queue.lenMask p.nth := by
  rw [Queue.index, (h.pushes p hp).2.1, slot]

/-- A reservation keeps the invariant when there is room for it. -/
theorem reserve (h : QueueInv qLen k s) (item : α) (hfree : s.reserved.length < s.popped.length + qLen) :
    QueueInv qLen k (s.reserve item) where
  short := h.short
  room := h.room
  mask := h.mask
  pos := by simp [QueueRun.reserve, h.pos, UInt32.ofNat_add]
  head := h.head
  fifo := h.fifo.trans (List.prefix_append _ _)
  within := by
    simp only [QueueRun.reserve, List.length_append, List.length_singleton]
    exact hfree
  nodup := by
    rw [QueueRun.reserve, List.map_append, List.nodup_append]
    refine ⟨h.nodup, List.pairwise_singleton _ _, ?_⟩
    intro n hn m hm
    obtain ⟨p, hp, rfl⟩ := List.mem_map.mp hn
    obtain rfl := List.mem_singleton.mp hm
    exact Nat.ne_of_lt (h.nth_lt hp)
  pushes := by
    intro p hp
    rcases List.mem_append.mp hp with hp | hp
    · obtain ⟨hlow, hpos, hitem⟩ := h.pushes p hp
      exact ⟨hlow, hpos, (List.getElem?_append_left (h.nth_lt hp)).trans hitem⟩
    · obtain rfl := List.mem_singleton.mp hp
      exact ⟨h.popped_le, h.pos, List.getElem?_concat_length ..⟩
  slots := by
    intro n hlow hhigh
    have hlow : s.popped.length ≤ n := hlow
    simp only [QueueRun.reserve, List.length_append, List.length_singleton, List.map_append, List.map_singleton, List.mem_append,
      List.mem_singleton] at hhigh ⊢
    by_cases hlast : n = s.reserved.length
    · -- the slot of the new reservation is empty
      rw [if_pos (.inr hlast)]
      refine h.items_eq_none fun m hm hm' => h.slot_ne hlow (by omega) hm (by omega) (by omega)
    · rw [h.slots n hlow (by omega), List.getElem?_append_left (by omega)]
      simp [hlast]
  others := by
    intro i hi
    obtain ⟨n, hlow, hhigh, heq⟩ := h.others i hi
    exact ⟨n, hlow, by simp only [QueueRun.reserve, List.length_append]; omega, heq⟩
  popping hmid := Nat.lt_of_lt_of_le (h.popping hmid) (by simp [QueueRun.reserve])

/-- A store keeps the invariant. -/
theorem store (h : QueueInv qLen k s) {i : Nat} {p : Push α} (hp : s.pending[i]? = some p) : QueueInv qLen k (s.store i p) := by
  have hmem := List.mem_of_getElem? hp
  obtain ⟨hlow, hpos, hitem⟩ := h.pushes p hmem
  have hlt := h.nth_lt hmem
  have hwithin := h.within
  -- what is left are the pushes with other numbers
  have hrest (n : Nat) : n ∈ (s.pending.eraseIdx i).map Push.nth ↔ n ∈ s.pending.map Push.nth ∧ n ≠ p.nth := by
    have hget : (s.pending.map Push.nth)[i]? = some p.nth := by rw [List.getElem?_map, hp, Option.map_some]
    rw [← List.eraseIdx_map, List.mem_eraseIdx_iff_getElem?]
    constructor
    · rintro ⟨j, hj, hn⟩
      refine ⟨List.mem_of_getElem? hn, ?_⟩
      rintro rfl
      exact hj ((List.getElem?_inj (List.getElem?_eq_some_iff.mp hn).1 h.nodup).mp (hn.trans hget.symm))
    · rintro ⟨hn, hne⟩
      obtain ⟨j, hj⟩ := List.mem_iff_getElem?.mp hn
      refine ⟨j, ?_, hj⟩
      rintro rfl
      exact hne (Option.some.inj (hj.symm.trans hget))
  refine ⟨h.short, h.room, h.mask, h.pos, h.head, h.fifo, h.within, ?_, ?_, ?_, ?_, h.popping⟩
  · simp only [QueueRun.store, ← List.eraseIdx_map]
    exact h.nodup.eraseIdx i
  · intro q hq
    exact h.pushes q (List.mem_of_mem_eraseIdx hq)
  · intro n hn hn'
    simp only [QueueRun.store, h.index_push hmem, hrest]
    by_cases heq : n = p.nth
    · subst heq
      simp [hitem]
    · rw [Function.update_of_ne (h.slot_ne hn (by have : n < s.reserved.length := hn'; omega) hlow (by omega) heq), h.slots n hn hn']
      simp [heq]
  · intro j hj
    simp only [QueueRun.store, h.index_push hmem] at hj ⊢
    by_cases heq : j = slot s.queue.lenMask p.nth
    · exact ⟨p.nth, hlow, hlt, heq⟩
    · rw [Function.update_of_ne heq] at hj
      exact h.others j hj

/-- The test of a pop keeps the invariant. -/
theorem load (h : QueueInv qLen k s) : QueueInv qLen k s.load := by
  unfold QueueRun.load
  split
  · next hne =>
    have hlt : s.popped.length < s.reserved.length := by
      refine Nat.lt_of_le_of_ne h.popped_le fun heq => hne ?_
      rw [h.head, h.pos, heq]
    exact { h with popping := fun _ => hlt }
  · have hpopped : ({ s with results := s.results ++ [none] } : QueueRun α).popped = s.popped := by simp [QueueRun.popped]
    exact ⟨h.short, h.room, h.mask, h.pos, hpopped ▸ h.head, hpopped ▸ h.fifo, hpopped ▸ h.within, h.nodup, hpopped ▸ h.pushes,
      hpopped ▸ h.slots, hpopped ▸ h.others, hpopped ▸ h.popping⟩

/-- A pop finds the item at the head unless its push has not stored it yet. -/
theorem items_head (h : QueueInv qLen k s) (hmid : s.popping = true) :
    s.queue.items (s.queue.index s.queue.head) =
      if s.popped.length ∈ s.pending.map Push.nth then none else s.reserved[s.popped.length]? := by
  rw [h.index_head, h.slots _ (Nat.le_refl _) (h.popping hmid)]

/-- An exchange that returns the null pointer keeps the invariant: the slot was empty. -/
theorem exchange_none (h : QueueInv qLen k s) (hitem : s.queue.items (s.queue.index s.queue.head) = none) :
    QueueInv qLen k s.exchange := by
  have hpopped : s.exchange.popped = s.popped := by simp [QueueRun.popped, QueueRun.exchange, hitem]
  have hitems : s.exchange.queue.items = s.queue.items := by
    simp only [QueueRun.exchange]
    rw [← hitem, Function.update_eq_self]
  have hhead : s.exchange.queue.head = s.queue.head := by simp [QueueRun.exchange, hitem]
  refine ⟨h.short, h.room, h.mask, h.pos, ?_, ?_, ?_, h.nodup, ?_, ?_, ?_, fun hmid => absurd hmid Bool.false_ne_true⟩
  · rw [hhead, hpopped, h.head]
  · rw [hpopped]
    exact h.fifo
  · rw [hpopped]
    exact h.within
  · rw [hpopped]
    exact h.pushes
  · rw [hpopped, hitems]
    exact h.slots
  · rw [hpopped, hitems]
    exact h.others

/-- An exchange that returns an item takes the next reservation out of the window. -/
theorem exchange_some (h : QueueInv qLen k s) {item : α} (hitem : s.queue.items (s.queue.index s.queue.head) = some item)
    (hnext : s.reserved[s.popped.length]? = some item) (hstored : s.popped.length ∉ s.pending.map Push.nth) :
    QueueInv qLen k s.exchange := by
  have hpopped : s.exchange.popped = s.popped ++ [item] := by simp [QueueRun.popped, QueueRun.exchange, hitem]
  have hlen : s.exchange.popped.length = s.popped.length + 1 := by rw [hpopped, List.length_append, List.length_singleton]
  have hlt := (List.getElem?_eq_some_iff.mp hnext).1
  have hwithin := h.within
  have hitems : s.exchange.queue.items = Function.update s.queue.items (slot s.queue.lenMask s.popped.length) none := by
    rw [← h.index_head]
    rfl
  refine ⟨h.short, h.room, h.mask, h.pos, ?_, ?_, ?_, h.nodup, ?_, ?_, ?_, fun hmid => absurd hmid Bool.false_ne_true⟩
  · rw [hlen, UInt32.ofNat_add, ← h.head]
    simp [QueueRun.exchange, hitem]
  · -- the item returned is the next one reserved
    obtain ⟨rest, hrest⟩ := h.fifo
    rw [← hrest, List.getElem?_append_right (Nat.le_refl _), Nat.sub_self, ← List.head?_eq_getElem?] at hnext
    obtain ⟨rest', rfl⟩ := List.head?_eq_some_iff.mp hnext
    rw [hpopped]
    exact ⟨rest', by rw [List.append_assoc, List.singleton_append]; exact hrest⟩
  · rw [hlen]
    exact Nat.le_trans h.within (by omega)
  · intro p hp
    obtain ⟨hlow, hpos, hget⟩ := h.pushes p hp
    refine ⟨?_, hpos, hget⟩
    have hne : p.nth ≠ s.popped.length := fun heq => hstored (heq ▸ List.mem_map_of_mem hp)
    rw [hlen]
    omega
  · intro n hn hn'
    have hn' : n < s.reserved.length := hn'
    rw [hlen] at hn
    rw [hitems]
    exact (Function.update_of_ne (h.slot_ne (by omega) (by omega) (Nat.le_refl _) (by omega) (by omega)) ..).trans
      (h.slots n (by omega) hn')
  · intro i hi
    rw [hitems] at hi
    have hne : i ≠ slot s.queue.lenMask s.popped.length := by
      rintro rfl
      exact hi (Function.update_self ..)
    rw [Function.update_of_ne hne] at hi
    obtain ⟨n, hn, hn', rfl⟩ := h.others i hi
    refine ⟨n, ?_, hn', rfl⟩
    rw [hlen]
    exact Nat.lt_of_le_of_ne hn fun heq => hne (by rw [heq])

/-- The exchange of a pop keeps the invariant. -/
theorem exchange (h : QueueInv qLen k s) (hmid : s.popping = true) : QueueInv qLen k s.exchange := by
  have hhead := h.items_head hmid
  split at hhead
  · exact h.exchange_none hhead
  · next hstored =>
    obtain ⟨item, hnext⟩ : ∃ item, s.reserved[s.popped.length]? = some item :=
      ⟨_, List.getElem?_eq_getElem (h.popping hmid)⟩
    exact h.exchange_some (hhead.trans hnext) hnext hstored

end QueueInv

/-- Every step keeps the invariant, a reservation when there is room for it. -/
theorem queueInv_step {qLen k : Nat} (s : QueueRun α) (e : QueueEvent α) (s' : QueueRun α) (h : QueueInv qLen k s)
    (hroom : ∀ item, e = .reserve item → s.reserved.length < s.popped.length + qLen) (hstep : queueStep s e = some s') :
    QueueInv qLen k s' := by
  obtain ⟨item, rfl, rfl⟩ | ⟨i, p, rfl, hp, rfl⟩ | ⟨rfl, -, rfl⟩ | ⟨rfl, hmid, rfl⟩ := queueStep_cases hstep
  · exact h.reserve item (hroom item rfl)
  · exact h.store hp
  · exact h.load
  · exact h.exchange hmid

end AerospikeBenchmark
