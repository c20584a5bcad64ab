import AerospikeBenchmark.Lemmas.FreedWhole
import AerospikeBenchmark.ObjectSpec.Destroy

/-!
# What the consumer states release

For each consumer state an error can leave behind: `_destroy_consumer_states` passes only bin specs that are built to `bin_spec_free`,
and none twice; and what it does not release is said by `NothingLost`.
-/

namespace AerospikeBenchmark

open CText SpecTree Snprintf

/-! ## Lists of what is released -/

/-- Two parts that are released make the whole when each of them is whole. -/
theorem perm_append_iff_of_subperm {α : Type} {a b c d : List α} (hac : a.Subperm c) (hbd : b.Subperm d) :
    (a ++ b).Perm (c ++ d) ↔ a.Perm c ∧ b.Perm d := by
  refine ⟨fun h => ?_, fun ⟨hac, hbd⟩ => hac.append hbd⟩
  have hlen := h.length_eq
  rw [List.length_append, List.length_append] at hlen
  have hle := hac.length_le
  have hle' := hbd.length_le
  exact ⟨hac.perm_of_length_le (by omega), hbd.perm_of_length_le (by omega)⟩

section Loops

variable {α : Type}

theorem blocksFrom_append (owns : Nat → α → List BlockPath) (i : Nat) (as bs : List α) :
    blocksFrom owns i (as ++ bs) = blocksFrom owns i as ++ blocksFrom owns (i + as.length) bs := by
  induction as generalizing i with
  | nil => rfl
  | cons a as ih => simp [blocksFrom, ih, Nat.add_comm, Nat.add_left_comm]

theorem blocksFrom_sublist {f g : Nat → α → List BlockPath} {as : List α} (h : ∀ a ∈ as, ∀ i, (f i a).Sublist (g i a)) (i : Nat) :
    (blocksFrom f i as).Sublist (blocksFrom g i as) := by
  induction as generalizing i with
  | nil => exact List.Sublist.refl _
  | cons a as ih =>
    exact (h a List.mem_cons_self i).append (ih (fun b hb => h b (List.mem_cons_of_mem _ hb)) (i + 1))

theorem blocksFrom_eq_iff {f g : Nat → α → List BlockPath} {whole : α → Prop} {as : List α} (hsub : ∀ a ∈ as, ∀ i, (f i a).Sublist (g i a))
    (hwhole : ∀ a ∈ as, ∀ i, f i a = g i a ↔ whole a) (i : Nat) : blocksFrom f i as = blocksFrom g i as ↔ ∀ a ∈ as, whole a := by
  induction as generalizing i with
  | nil => simp [blocksFrom]
  | cons a as ih =>
    have hrest : ∀ b ∈ as, ∀ i, (f i b).Sublist (g i b) := fun b hb => hsub b (List.mem_cons_of_mem _ hb)
    rw [blocksFrom, blocksFrom, append_eq_iff_of_sublist (hsub a List.mem_cons_self i) (blocksFrom_sublist hrest (i + 1)),
      hwhole a List.mem_cons_self i, ih hrest (fun b hb => hwhole b (List.mem_cons_of_mem _ hb)) (i + 1), List.forall_mem_cons]

theorem blocksFrom_map {β : Type} (owns : Nat → α → List BlockPath) (f : β → α) (i : Nat) (bs : List β) :
    blocksFrom owns i (bs.map f) = blocksFrom (fun i b => owns i (f b)) i bs := by
  induction bs generalizing i with
  | nil => rfl
  | cons b bs ih => rw [List.map_cons, blocksFrom, blocksFrom, ih]

/-- What is released for an entry of an array, if anything. -/
def releasedBy (free : Nat → α → Option (List BlockPath)) (i : Nat) (a : α) : List BlockPath := (free i a).getD []

/-- The loop inside its array. -/
theorem freeBelow_eq (free : Nat → α → Option (List BlockPath)) {bound : Int} {as : List α} {i : Nat} (hfits : bound ≤ i + as.length)
    (hfree : ∀ a ∈ as.take (bound - i).toNat, ∀ j, (free j a).isSome) :
    freeBelow free bound i as = some (blocksFrom (releasedBy free) i (as.take (bound - i).toNat)) := by
  induction as generalizing i with
  | nil =>
    rw [List.length_nil] at hfits
    rw [freeBelow, if_neg (by omega), List.take_nil, blocksFrom]
  | cons a as ih =>
    rw [freeBelow]
    split
    · next hlt =>
      obtain ⟨n, hn⟩ : ∃ n, (bound - i).toNat = n + 1 := ⟨(bound - i).toNat - 1, by omega⟩
      have hrest : (bound - (i + 1 : Nat)).toNat = n := by omega
      rw [hn, List.take_succ_cons] at hfree
      obtain ⟨released, hreleased⟩ := Option.isSome_iff_exists.mp (hfree a List.mem_cons_self i)
      rw [List.length_cons] at hfits
      have htail := ih (i := i + 1) (by omega) (by rw [hrest]; exact fun b hb => hfree b (List.mem_cons_of_mem _ hb))
      rw [hrest] at htail
      simp [hn, hreleased, htail, blocksFrom, releasedBy]
    · next hge => rw [show (bound - i).toNat = 0 by omega, List.take_zero, blocksFrom]

/-- The loop over a part of an array whose entries may be released. -/
theorem freeBelow_part (free : Nat → α → Option (List BlockPath)) (owns : Nat → α → List BlockPath) {bound : Int} {as : List α}
    (hbound : bound ≤ as.length) (hsome : ∀ a ∈ as, ∀ i, (free i a).isSome)
    (hsub : ∀ a ∈ as, ∀ i, (releasedBy free i a).Sublist (owns i a)) (rest : List α) :
    ∃ ps, freeBelow free bound 0 (as ++ rest) = some ps ∧ ps.Sublist (blocksFrom owns 0 as) ∧
      (bound = as.length → ps = blocksFrom (releasedBy free) 0 as) := by
  have htake : (as ++ rest).take (bound - (0 : Nat)).toNat = as.take bound.toNat := by
    rw [List.take_append_of_le_length (by omega)]
    simp
  have hfits : bound ≤ (0 : Nat) + (as ++ rest).length := by
    rw [List.length_append]
    omega
  have hloop := freeBelow_eq free hfits (by rw [htake]; exact fun a ha => hsome a (List.mem_of_mem_take ha))
  rw [htake] at hloop
  refine ⟨_, hloop, ?_, ?_⟩
  · have hparts := blocksFrom_append owns 0 (as.take bound.toNat) (as.drop bound.toNat)
    rw [List.take_append_drop] at hparts
    rw [hparts]
    exact (blocksFrom_sublist (fun a ha => hsub a (List.mem_of_mem_take ha)) 0).trans (List.sublist_append_left _ _)
  · rintro rfl
    rw [Int.toNat_natCast, List.take_length]

end Loops

/-! ## No block has two names -/

/-- The index in an array that a step goes to. -/
def BlockStep.index : BlockStep → Nat
  | .elem i | .key i | .val i => i

/-- The blocks of an entry are behind a step to its index. -/
def Indexed (i : Nat) (ps : List BlockPath) : Prop := ∀ p ∈ ps, ∃ s q, p = s :: q ∧ s.index = i

theorem indexed_map {s : BlockStep} {i : Nat} (hs : s.index = i) (ps : List BlockPath) : Indexed i (ps.map (s :: ·)) := by
  intro p hp
  obtain ⟨q, -, rfl⟩ := List.mem_map.mp hp
  exact ⟨s, q, rfl, hs⟩

theorem Indexed.append {i : Nat} {ps qs : List BlockPath} (hps : Indexed i ps) (hqs : Indexed i qs) : Indexed i (ps ++ qs) :=
  fun p hp => (List.mem_append.mp hp).elim (hps p) (hqs p)

theorem mem_blocksFrom {α : Type} {owns : Nat → α → List BlockPath} (hindexed : ∀ i a, Indexed i (owns i a)) {as : List α} {i : Nat}
    {p : BlockPath} (h : p ∈ blocksFrom owns i as) : ∃ s q, p = s :: q ∧ i ≤ s.index := by
  induction as generalizing i with
  | nil => simp [blocksFrom] at h
  | cons a as ih =>
    rcases List.mem_append.mp h with hfirst | hrest
    · obtain ⟨s, q, rfl, hs⟩ := hindexed i a p hfirst
      exact ⟨s, q, rfl, hs.ge⟩
    · obtain ⟨s, q, rfl, hs⟩ := ih hrest
      exact ⟨s, q, rfl, by omega⟩

theorem nodup_blocksFrom {α : Type} {owns : Nat → α → List BlockPath} (hindexed : ∀ i a, Indexed i (owns i a))
    (hnodup : ∀ i a, (owns i a).Nodup) (as : List α) (i : Nat) : (blocksFrom owns i as).Nodup := by
  induction as generalizing i with
  | nil => exact List.nodup_nil
  | cons a as ih =>
    refine List.nodup_append.mpr ⟨hnodup i a, ih (i + 1), ?_⟩
    intro p hp q hq heq
    obtain ⟨s, r, rfl, hs⟩ := hindexed i a p hp
    obtain ⟨s', r', rfl, hs'⟩ := mem_blocksFrom hindexed hq
    obtain ⟨rfl, -⟩ := List.cons.inj heq
    omega

theorem SpecCell.nodup_blocks (cell : SpecCell) : cell.blocks.Nodup := by
  cases cell with
  | unbuilt => exact List.nodup_nil
  | built spec | released spec => exact spec.nodup_blocks

theorem nodup_pairBlocks (i : Nat) (p : SpecCell × SpecCell) : (pairBlocks i p).Nodup := by
  refine List.nodup_append.mpr ⟨nodup_map_cons p.1.nodup_blocks, nodup_map_cons p.2.nodup_blocks, ?_⟩
  intro x hx y hy heq
  obtain ⟨q, -, rfl⟩ := List.mem_map.mp hx
  obtain ⟨q', -, rfl⟩ := List.mem_map.mp hy
  cases heq

theorem Consumer.nodup_blocks (c : Consumer) (slot : Slot) : (c.blocks slot).Nodup := by
  cases c with
  | list c =>
    have hindexed : ∀ i cell, Indexed i (elemBlocks i cell) := fun i cell => indexed_map rfl _
    exact nodup_blocksFrom hindexed (fun i cell => nodup_map_cons cell.nodup_blocks) _ 0
  | map c =>
    have hindexed : ∀ i p, Indexed i (pairBlocks i p) := fun i p => (indexed_map rfl _).append (indexed_map rfl _)
    exact nodup_blocksFrom hindexed nodup_pairBlocks _ 0

/-! ## Bin specs that are built -/

/-- A bin spec that the parser has stored. -/
def IsBuilt (spec : BinSpec) : Prop := ∃ t : SpecTree, t.WF ∧ t.build = spec

theorem IsBuilt.free {spec : BinSpec} (h : IsBuilt spec) : ∃ ps, binSpecFree spec = some ps := by
  obtain ⟨t, ht, rfl⟩ := h
  exact Option.isSome_iff_exists.mp (binSpecFree_build ht)

theorem IsBuilt.freedWhole_iff {spec : BinSpec} (h : IsBuilt spec) : FreedWhole spec ↔ spec.Everywhere BinSpec.PairsFreed := by
  obtain ⟨t, ht, rfl⟩ := h
  exact freedWhole_build_iff ht

/-- The facts the loops need about a place in an array: what is released there is part of what is owned, and when it is all. -/
theorem IsBuilt.step {spec : BinSpec} (h : IsBuilt spec) (s : BlockStep) :
    ∃ ps, ((SpecCell.built spec).free.map (List.map (s :: ·))) = some ps ∧ ps.Sublist ((SpecCell.built spec).blocks.map (s :: ·)) ∧
      (ps = (SpecCell.built spec).blocks.map (s :: ·) ↔ spec.Everywhere BinSpec.PairsFreed) := by
  obtain ⟨ps, hps⟩ := h.free
  refine ⟨ps.map (s :: ·), by simp [SpecCell.free, hps], (sublist_of_binSpecFree hps).map _, ?_⟩
  rw [map_cons_eq_iff, SpecCell.blocks, ← AerospikeBenchmark.freedWhole_iff hps, h.freedWhole_iff]

theorem releasedBy_freeElem {spec : BinSpec} (h : IsBuilt spec) (i : Nat) :
    (freeElem i (.built spec)).isSome ∧ (releasedBy freeElem i (.built spec)).Sublist (elemBlocks i (.built spec)) ∧
      (releasedBy freeElem i (.built spec) = elemBlocks i (.built spec) ↔ spec.Everywhere BinSpec.PairsFreed) := by
  obtain ⟨ps, hps, hsub, hwhole⟩ := h.step (.elem i)
  rw [releasedBy, freeElem, hps]
  exact ⟨rfl, hsub, hwhole⟩

theorem releasedBy_freePair {k v : BinSpec} (hk : IsBuilt k) (hv : IsBuilt v) (i : Nat) :
    (freePair i (.built k, .built v)).isSome ∧
      (releasedBy freePair i (.built k, .built v)).Sublist (pairBlocks i (.built k, .built v)) ∧
      (releasedBy freePair i (.built k, .built v) = pairBlocks i (.built k, .built v) ↔
        k.Everywhere BinSpec.PairsFreed ∧ v.Everywhere BinSpec.PairsFreed) := by
  obtain ⟨ks, hks, hksub, hkwhole⟩ := hk.step (.key i)
  obtain ⟨vs, hvs, hvsub, hvwhole⟩ := hv.step (.val i)
  have hpair : freePair i (.built k, .built v) = some (ks ++ vs) := by simp [freePair, freeKey, freeVal, hks, hvs]
  rw [releasedBy, hpair, Option.getD_some]
  exact ⟨rfl, hksub.append hvsub, (append_eq_iff_of_sublist hksub hvsub).trans (and_congr hkwhole hvwhole)⟩

/-! ## A list -/

theorem asInt32_le (n : Nat) : asInt32 n ≤ (n % 2 ^ 32 : Nat) := by
  unfold asInt32
  split <;> omega

/-- What is released of bin specs that are all built is all there is exactly when each is released whole. -/
theorem released_elems_iff {specs : List BinSpec} (hbuilt : ∀ spec ∈ specs, IsBuilt spec) :
    blocksFrom (releasedBy freeElem) 0 (specs.map .built) = blocksFrom elemBlocks 0 (specs.map .built) ↔
      ∀ spec ∈ specs, spec.Everywhere BinSpec.PairsFreed := by
  rw [blocksFrom_map, blocksFrom_map]
  exact blocksFrom_eq_iff (fun spec hspec i => (releasedBy_freeElem (hbuilt spec hspec) i).2.1)
    (fun spec hspec i => (releasedBy_freeElem (hbuilt spec hspec) i).2.2) 0

/-- All but the last of a list, when the number of them is an `int32_t`. -/
theorem destroy_list {c : ListConsumer} (hbuilt : ∀ spec ∈ c.listBuilder, IsBuilt spec) {slot : Slot} {last : SpecCell}
    (hslot : slot.cells = [last]) :
    ∃ ps, c.destroy slot = some ps ∧ ps.Sublist (blocksFrom elemBlocks 0 (c.listBuilder.map .built)) ∧
      (c.listBuilder.length < 2 ^ 31 → ps = blocksFrom (releasedBy freeElem) 0 (c.listBuilder.map .built)) := by
  have hlength : (c.cells slot).length = c.listBuilder.length + 1 := by simp [ListConsumer.cells, hslot]
  have hsize : (c.cells slot).length + (2 ^ 32 - 1) = c.listBuilder.length + 2 ^ 32 := by omega
  have hle := asInt32_le (c.listBuilder.length + 2 ^ 32)
  rw [Nat.add_mod_right] at hle
  have hmod := Nat.mod_le c.listBuilder.length (2 ^ 32)
  have hbound : asInt32 (c.listBuilder.length + 2 ^ 32) ≤ (c.listBuilder.map SpecCell.built).length := by
    rw [List.length_map]
    omega
  obtain ⟨ps, hps, hsub, hall⟩ := freeBelow_part freeElem elemBlocks hbound
    (List.forall_mem_map.mpr fun spec hspec i => (releasedBy_freeElem (hbuilt spec hspec) i).1)
    (List.forall_mem_map.mpr fun spec hspec i => (releasedBy_freeElem (hbuilt spec hspec) i).2.1) [last]
  refine ⟨ps, by rw [ListConsumer.destroy, hsize, ListConsumer.cells, hslot, hps], hsub, fun hsmall => hall ?_⟩
  rw [List.length_map, asInt32, Nat.add_mod_right, Nat.mod_eq_of_lt (by omega), if_pos hsmall]

/-! ## A map -/

/-- A pair whose key and value are built. -/
def builtPair (p : BinSpec × BinSpec) : SpecCell × SpecCell := (.built p.1, .built p.2)

theorem released_pairs_iff {pairs : List (BinSpec × BinSpec)} (hbuilt : ∀ p ∈ pairs, IsBuilt p.1 ∧ IsBuilt p.2) :
    blocksFrom (releasedBy freePair) 0 (pairs.map builtPair) = blocksFrom pairBlocks 0 (pairs.map builtPair) ↔
      ∀ p ∈ pairs, p.1.Everywhere BinSpec.PairsFreed ∧ p.2.Everywhere BinSpec.PairsFreed := by
  rw [blocksFrom_map, blocksFrom_map]
  exact blocksFrom_eq_iff (fun p hp i => (releasedBy_freePair (hbuilt p hp).1 (hbuilt p hp).2 i).2.1)
    (fun p hp i => (releasedBy_freePair (hbuilt p hp).1 (hbuilt p hp).2 i).2.2) 0

/-- All pairs of a map but the last, and what its state says of the last. With 2^32 pairs the map passes for an empty one. -/
theorem destroy_map {c : MapConsumer} {slot : Slot} {pairs : List (BinSpec × BinSpec)} {last : SpecCell × SpecCell}
    (hcells : c.cells slot = pairs.map builtPair ++ [last]) (hbuilt : ∀ p ∈ pairs, IsBuilt p.1 ∧ IsBuilt p.2)
    (hfits : pairs.length < 2 ^ 32) {ls : List BlockPath} (hlast : freeLastPair c.state pairs.length last = some ls) :
    ∃ ps, c.destroy slot = some (ps ++ if pairs.length + 1 < 2 ^ 32 then ls else []) ∧
      ps.Sublist (blocksFrom pairBlocks 0 (pairs.map builtPair)) ∧
      (pairs.length + 1 < 2 ^ 32 → ps = blocksFrom (releasedBy freePair) 0 (pairs.map builtPair)) := by
  have hlength : (c.cells slot).length = pairs.length + 1 := by simp [hcells]
  by_cases hsmall : pairs.length + 1 < 2 ^ 32
  · have hbound : (pairs.length : Int) ≤ (pairs.map builtPair).length := by rw [List.length_map]
    obtain ⟨ps, hps, hsub, hall⟩ := freeBelow_part freePair pairBlocks hbound
      (List.forall_mem_map.mpr fun p hp i => (releasedBy_freePair (hbuilt p hp).1 (hbuilt p hp).2 i).1)
      (List.forall_mem_map.mpr fun p hp i => (releasedBy_freePair (hbuilt p hp).1 (hbuilt p hp).2 i).2.1) [last]
    refine ⟨ps, ?_, hsub, fun _ => hall (by rw [List.length_map])⟩
    have hget : (pairs.map builtPair ++ [last])[pairs.length]? = some last := by
      rw [List.getElem?_append_right (by simp)]
      simp
    rw [MapConsumer.destroy, hlength, Nat.mod_eq_of_lt hsmall, Nat.add_sub_cancel, hcells, hps, if_neg (by omega), if_pos hsmall]
    simp only [hget, hlast, Option.bind_eq_bind, Option.bind_some, Option.pure_def]
  · refine ⟨[], ?_, List.nil_sublist _, fun h => absurd h hsmall⟩
    have hwrap : (pairs.length + 1) % 2 ^ 32 = 0 := by
      rw [show pairs.length + 1 = 2 ^ 32 by omega, Nat.mod_self]
    rw [MapConsumer.destroy, hlength, hwrap, if_pos rfl, if_neg hsmall, List.append_nil]

/-! ## The states an error leaves -/

/-- The pairs stored in a map. -/
structure MapHolds (c : MapConsumer) : Prop where
  built : ∀ p ∈ c.listBuilder, IsBuilt p.1 ∧ IsBuilt p.2
  fits : c.listBuilder.length < 2 ^ 32

/-- A consumer state and the last place of its array when an error is found. -/
inductive Leaves : Consumer → Slot → Prop where
  | reserved {c : ListConsumer} : (∀ spec ∈ c.listBuilder, IsBuilt spec) → Leaves (.list c) .reserved
  | filled {c : ListConsumer} {spec : BinSpec} : (∀ spec ∈ c.listBuilder, IsBuilt spec) → IsBuilt spec → Leaves (.list c) (.filled spec)
  | key {c : MapConsumer} : MapHolds c → c.state = .key → Leaves (.map c) .reserved
  | refused {c : MapConsumer} {val : Scalar} : MapHolds c → c.state = .key → Leaves (.map c) (.freed val)
  | dangling {c : MapConsumer} : MapHolds c → c.state = .key → c.listBuilder ≠ [] → Leaves (.map c) .none
  | val {c : MapConsumer} {k : Leaf} : MapHolds c → c.state = .val k.build → Leaves (.map c) .reserved
  | done {c : MapConsumer} : MapHolds c → c.state = .done → c.listBuilder ≠ [] → Leaves (.map c) .none

/-- The number of bin specs or pairs a consumer state has stored. -/
def Consumer.stored : Consumer → Nat
  | .list c => c.listBuilder.length
  | .map c => c.listBuilder.length

/-- Nothing of a consumer state is lost: no element has just been stored in a list, or it owns no memory; a map does not end behind a
comma, or its last pair owns no memory; and `bin_spec_free` releases the other bin specs whole. -/
def NothingLost : Consumer → Slot → Prop
  | .list c, slot => (∀ spec ∈ c.listBuilder, spec.Everywhere BinSpec.PairsFreed) ∧ ∀ spec, slot = .filled spec → spec.blocks = []
  | .map c, slot =>
    (∀ p ∈ c.listBuilder, p.1.Everywhere BinSpec.PairsFreed ∧ p.2.Everywhere BinSpec.PairsFreed) ∧
      (c.state = .key → slot = .none → ∀ p ∈ c.listBuilder.getLast?, p.1.blocks = [] ∧ p.2.blocks = [])

/-! ## What is released of each -/

theorem perm_iff_eq_of_sublist {α : Type} {a b : List α} (h : a.Sublist b) : a.Perm b ↔ a = b :=
  ⟨fun hperm => h.eq_of_length hperm.length_eq, fun heq => heq ▸ List.Perm.refl _⟩

theorem release_list {c : ListConsumer} (hbuilt : ∀ spec ∈ c.listBuilder, IsBuilt spec) {slot : Slot} {last : SpecCell}
    (hslot : slot.cells = [last]) :
    ∃ ps, c.destroy slot = some ps ∧ ps.Subperm ((Consumer.list c).blocks slot) ∧
      (c.listBuilder.length < 2 ^ 31 → (ps.Perm ((Consumer.list c).blocks slot) ↔
        (∀ spec ∈ c.listBuilder, spec.Everywhere BinSpec.PairsFreed) ∧ last.blocks = [])) := by
  obtain ⟨ps, hps, hsub, hall⟩ := destroy_list hbuilt hslot
  have hblocks : (Consumer.list c).blocks slot =
      blocksFrom elemBlocks 0 (c.listBuilder.map .built) ++ elemBlocks c.listBuilder.length last := by
    simp [Consumer.blocks, ListConsumer.cells, hslot, blocksFrom_append, blocksFrom]
  rw [hblocks]
  refine ⟨ps, hps, (hsub.trans (List.sublist_append_left _ _)).subperm, fun hsmall => ?_⟩
  have hparts := perm_append_iff_of_subperm hsub.subperm (List.nil_subperm (l := elemBlocks c.listBuilder.length last))
  rw [List.append_nil] at hparts
  rw [hparts, perm_iff_eq_of_sublist hsub, hall hsmall, released_elems_iff hbuilt, List.nil_perm, elemBlocks, List.map_eq_nil_iff]

theorem release_map (refused : List BlockPath) {c : MapConsumer} {slot : Slot} {pairs : List (BinSpec × BinSpec)} {last : SpecCell × SpecCell}
    (hcells : c.cells slot = pairs.map builtPair ++ [last]) (hbuilt : ∀ p ∈ pairs, IsBuilt p.1 ∧ IsBuilt p.2)
    (hfits : pairs.length < 2 ^ 32) {ls : List BlockPath} (hlast : freeLastPair c.state pairs.length last = some ls)
    (hsub : (refused ++ ls).Subperm (pairBlocks pairs.length last)) :
    ∃ ps, c.destroy slot = some ps ∧ (refused ++ ps).Subperm ((Consumer.map c).blocks slot) ∧
      (pairs.length + 1 < 2 ^ 32 → ((refused ++ ps).Perm ((Consumer.map c).blocks slot) ↔
        (∀ p ∈ pairs, p.1.Everywhere BinSpec.PairsFreed ∧ p.2.Everywhere BinSpec.PairsFreed) ∧
          (refused ++ ls).Perm (pairBlocks pairs.length last))) := by
  obtain ⟨ps, hps, hpart, hall⟩ := destroy_map hcells hbuilt hfits hlast
  have hblocks : (Consumer.map c).blocks slot =
      blocksFrom pairBlocks 0 (pairs.map builtPair) ++ pairBlocks pairs.length last := by
    simp [Consumer.blocks, hcells, blocksFrom_append, blocksFrom]
  -- the refused key belongs to the last pair, so it is moved behind the others
  have hmove : ∀ xs : List BlockPath, (refused ++ (ps ++ xs)).Perm (ps ++ (refused ++ xs)) := fun xs => by
    rw [← List.append_assoc, ← List.append_assoc]
    exact List.perm_append_comm.append_right xs
  rw [hblocks]
  refine ⟨_, hps, ?_, fun hsmall => ?_⟩
  · refine (hmove _).subperm.trans (hpart.subperm.append ?_)
    split
    · exact hsub
    · rw [List.append_nil]
      exact (List.sublist_append_left refused ls).subperm.trans hsub
  · rw [if_pos hsmall, (hmove ls).congr_left, perm_append_iff_of_subperm hpart.subperm hsub, perm_iff_eq_of_sublist hpart, hall hsmall,
      released_pairs_iff hbuilt]

/-- The last pair of a map that has some. -/
theorem cells_of_stored {c : MapConsumer} (hstate : c.state = .key ∨ c.state = .done) (hne : c.listBuilder ≠ []) :
    c.cells .none = c.listBuilder.dropLast.map builtPair ++ [builtPair (c.listBuilder.getLast hne)] := by
  have hcells : c.cells .none = c.listBuilder.map builtPair := by
    rcases hstate with hstate | hstate <;> simp [MapConsumer.cells, hstate, Slot.cells, builtPair]
  rw [hcells, ← List.map_singleton, ← List.map_append, List.dropLast_append_getLast]

theorem forall_mem_dropLast_getLast {α : Type} {as : List α} (hne : as ≠ []) {P : α → Prop} :
    (∀ a ∈ as, P a) ↔ (∀ a ∈ as.dropLast, P a) ∧ P (as.getLast hne) := by
  conv_lhs => rw [← List.dropLast_append_getLast hne]
  rw [List.forall_mem_append, List.forall_mem_singleton]

/-- What an error leaves in a consumer state is released: `bin_spec_free` is called on bin specs that are built only, on none twice,
and everything is released exactly when nothing is lost. -/
def Releases (c : Consumer) (slot : Slot) : Prop :=
  ∃ refused ps, freeRefused c slot = some refused ∧ c.destroy slot = some ps ∧ (refused ++ ps).Subperm (c.blocks slot) ∧
    (c.stored < 2 ^ 31 → ((refused ++ ps).Perm (c.blocks slot) ↔ NothingLost c slot))

section Maps

variable {c : MapConsumer}

theorem releases_key (hc : MapHolds c) (hstate : c.state = .key) : Releases (.map c) .reserved := by
  have hcells : c.cells .reserved = c.listBuilder.map builtPair ++ [(.unbuilt, .unbuilt)] := by
    simp [MapConsumer.cells, hstate, Slot.cells, builtPair]
  have hnone : freeLastPair c.state c.listBuilder.length (.unbuilt, .unbuilt) = some [] := by rw [hstate, freeLastPair]
  obtain ⟨ps, hps, hsub, hwhole⟩ := release_map [] hcells hc.built hc.fits hnone List.nil_subperm
  refine ⟨[], ps, rfl, hps, hsub, fun hsmall => (hwhole (by simp only [Consumer.stored] at hsmall; omega)).trans ?_⟩
  simp [NothingLost, pairBlocks, SpecCell.blocks]

theorem releases_refused {val : Scalar} (hc : MapHolds c) (hstate : c.state = .key) : Releases (.map c) (.freed val) := by
  have hval : binSpecFree (.scalar 1 val) = some (BinSpec.scalar 1 val).blocks := freedWhole_leaf ⟨1, val⟩
  have hlast : pairBlocks c.listBuilder.length (.released (.scalar 1 val), .unbuilt) =
      (BinSpec.scalar 1 val).blocks.map (.key c.listBuilder.length :: ·) ++ [] := rfl
  have hcells : c.cells (.freed val) = c.listBuilder.map builtPair ++ [(.released (.scalar 1 val), .unbuilt)] := by
    simp [MapConsumer.cells, hstate, Slot.cells, builtPair]
  have hnone : freeLastPair c.state c.listBuilder.length (.released (.scalar 1 val), .unbuilt) = some [] := by
    rw [hstate, freeLastPair]
  obtain ⟨ps, hps, hsub, hwhole⟩ := release_map _ hcells hc.built hc.fits hnone (List.Perm.of_eq hlast.symm).subperm
  refine ⟨_, ps, by rw [freeRefused, hval, Option.map_some], hps, hsub,
    fun hsmall => (hwhole (by simp only [Consumer.stored] at hsmall; omega)).trans ?_⟩
  simp [NothingLost, hlast]

theorem releases_val {key : Leaf} (hc : MapHolds c) (hstate : c.state = .val key.build) : Releases (.map c) .reserved := by
  have hkey : binSpecFree key.build = some key.build.blocks := freedWhole_leaf key
  have hlast : pairBlocks c.listBuilder.length (.built key.build, .unbuilt) =
      [] ++ key.build.blocks.map (.key c.listBuilder.length :: ·) := List.append_nil _
  have hcells : c.cells .reserved = c.listBuilder.map builtPair ++ [(.built key.build, .unbuilt)] := by
    simp [MapConsumer.cells, hstate, Slot.cells, builtPair]
  have hfree : freeLastPair c.state c.listBuilder.length (.built key.build, .unbuilt) =
      some (key.build.blocks.map (.key c.listBuilder.length :: ·)) := by
    rw [hstate, freeLastPair, freeKey, SpecCell.free, hkey, Option.map_some]
  obtain ⟨ps, hps, hsub, hwhole⟩ := release_map [] hcells hc.built hc.fits hfree (List.Perm.of_eq hlast.symm).subperm
  refine ⟨[], ps, rfl, hps, hsub, fun hsmall => (hwhole (by simp only [Consumer.stored] at hsmall; omega)).trans ?_⟩
  simp [NothingLost, hlast, hstate]

/-- Behind a comma the last pair passes for one that is only reserved. -/
theorem releases_dangling (hc : MapHolds c) (hstate : c.state = .key) (hne : c.listBuilder ≠ []) : Releases (.map c) .none := by
  have hbuilt := (forall_mem_dropLast_getLast hne).mp hc.built
  have hfits := hc.fits
  have hnone : freeLastPair c.state c.listBuilder.dropLast.length (builtPair (c.listBuilder.getLast hne)) = some [] := by
    rw [hstate, freeLastPair]
  obtain ⟨ps, hps, hsub, hwhole⟩ := release_map [] (cells_of_stored (.inl hstate) hne) hbuilt.1
    (by rw [List.length_dropLast]; omega) hnone List.nil_subperm
  refine ⟨[], ps, rfl, hps, hsub, fun hsmall => (hwhole ?_).trans ?_⟩
  · simp only [Consumer.stored] at hsmall
    rw [List.length_dropLast]
    omega
  · have hnil : (c.listBuilder.getLast hne).1.blocks = [] ∧ (c.listBuilder.getLast hne).2.blocks = [] →
        (c.listBuilder.getLast hne).1.Everywhere BinSpec.PairsFreed ∧ (c.listBuilder.getLast hne).2.Everywhere BinSpec.PairsFreed :=
      fun h => ⟨(everywhere_of_blocks_nil h.1).2, (everywhere_of_blocks_nil h.2).2⟩
    have hlast : c.listBuilder.getLast? = some (c.listBuilder.getLast hne) := List.getLast?_eq_some_getLast hne
    rw [NothingLost, forall_mem_dropLast_getLast hne, hlast]
    simp only [List.nil_append, List.nil_perm, pairBlocks, builtPair, SpecCell.blocks, List.append_eq_nil_iff, List.map_eq_nil_iff,
      hstate, Option.mem_def, Option.some.injEq, forall_eq', true_imp_iff]
    tauto

theorem releases_done (hc : MapHolds c) (hstate : c.state = .done) (hne : c.listBuilder ≠ []) : Releases (.map c) .none := by
  have hbuilt := (forall_mem_dropLast_getLast hne).mp hc.built
  have hfits := hc.fits
  obtain ⟨ks, hks, hksub, hkwhole⟩ := hbuilt.2.1.step (.key c.listBuilder.dropLast.length)
  obtain ⟨vs, hvs, hvsub, hvwhole⟩ := hbuilt.2.2.step (.val c.listBuilder.dropLast.length)
  have hswap : (vs ++ ks).Perm (ks ++ vs) := List.perm_append_comm
  have hfree : freeLastPair c.state c.listBuilder.dropLast.length (builtPair (c.listBuilder.getLast hne)) = some (vs ++ ks) := by
    simp only [freeLastPair, hstate, freeKey, freeVal, builtPair, hks, hvs]
    rfl
  obtain ⟨ps, hps, hsub, hwhole⟩ := release_map [] (cells_of_stored (.inr hstate) hne) hbuilt.1
    (by rw [List.length_dropLast]; omega) hfree (hswap.subperm.trans (hksub.append hvsub).subperm)
  refine ⟨[], ps, rfl, hps, hsub, fun hsmall => (hwhole ?_).trans ?_⟩
  · simp only [Consumer.stored] at hsmall
    rw [List.length_dropLast]
    omega
  · rw [NothingLost, forall_mem_dropLast_getLast hne, List.nil_append, hswap.congr_left, pairBlocks, builtPair,
      perm_append_iff_of_subperm hksub.subperm hvsub.subperm, perm_iff_eq_of_sublist hksub, perm_iff_eq_of_sublist hvsub,
      hkwhole, hvwhole]
    simp [hstate]

end Maps

theorem releases_of_leaves {c : Consumer} {slot : Slot} (h : Leaves c slot) : Releases c slot := by
  cases h with
  | reserved hbuilt =>
    obtain ⟨ps, hps, hsub, hwhole⟩ := release_list hbuilt (rfl : Slot.reserved.cells = [.unbuilt])
    refine ⟨[], ps, rfl, hps, hsub, fun hsmall => (hwhole hsmall).trans ?_⟩
    simp [NothingLost, SpecCell.blocks]
  | @filled c spec hbuilt hspec =>
    obtain ⟨ps, hps, hsub, hwhole⟩ := release_list hbuilt (rfl : (Slot.filled spec).cells = [.built spec])
    refine ⟨[], ps, rfl, hps, hsub, fun hsmall => (hwhole hsmall).trans ?_⟩
    simp [NothingLost, SpecCell.blocks]
  | key hc hstate => exact releases_key hc hstate
  | refused hc hstate => exact releases_refused hc hstate
  | dangling hc hstate hne => exact releases_dangling hc hstate hne
  | val hc hstate => exact releases_val hc hstate
  | done hc hstate hne => exact releases_done hc hstate hne

end AerospikeBenchmark
