import AerospikeBenchmark.ObjectSpec.MapKeys
import AerospikeBenchmark.ObjectSpec.Parse

/-!
# Map keys are released once unless the retries run out

The `while` loop of `_gen_random_map` destroys a key that is in the map already. When it ends because the retries are used up, its
last key has been destroyed, and the test behind the loop destroys it once more.
-/

namespace AerospikeBenchmark

open CText Words

/-! ## Ledgers -/

/-- Every key obtained has been either given to the map or destroyed, and once. -/
def KeyLedger.ReleasedOnce (l : KeyLedger) : Prop :=
  ∀ key ∈ l.obtained, (l.stored.count key = 1 ∧ l.destroyed.count key = 0) ∨ (l.stored.count key = 0 ∧ l.destroyed.count key = 1)

/-- A ledger in which the keys given to the map and those destroyed are the keys obtained, all of them different. -/
structure KeyLedger.Balanced (l : KeyLedger) : Prop where
  fresh : ∀ key ∈ l.obtained, key.nth < l.obtained.length
  nodup : l.obtained.Nodup
  perm : (l.stored ++ l.destroyed).Perm l.obtained

/-- A ledger in which a key has been destroyed twice. -/
def KeyLedger.Spoiled (l : KeyLedger) : Prop := ∃ key ∈ l.obtained, 2 ≤ l.destroyed.count key

/-- A ledger that goes on from another. -/
structure KeyLedger.Extends (l l' : KeyLedger) : Prop where
  obtained : l.obtained <:+ l'.obtained
  destroyed : l.destroyed <:+ l'.destroyed

namespace KeyLedger

variable {l l' l'' : KeyLedger}

theorem Extends.refl (l : KeyLedger) : l.Extends l := ⟨List.suffix_refl _, List.suffix_refl _⟩

theorem Extends.trans (h : l.Extends l') (h' : l'.Extends l'') : l.Extends l'' :=
  ⟨h.obtained.trans h'.obtained, h.destroyed.trans h'.destroyed⟩

theorem extends_obtain (l : KeyLedger) (entryIdx : Nat) : l.Extends (l.obtain entryIdx) := ⟨List.suffix_cons _ _, List.suffix_refl _⟩

theorem extends_store (l : KeyLedger) (key : KeyRef) : l.Extends (l.store key) := ⟨List.suffix_refl _, List.suffix_refl _⟩

theorem extends_destroy (l : KeyLedger) (key : KeyRef) : l.Extends (l.destroy key) := ⟨List.suffix_refl _, List.suffix_cons _ _⟩

theorem Spoiled.mono (h : l.Spoiled) (hle : l.Extends l') : l'.Spoiled := by
  obtain ⟨key, hkey, hcount⟩ := h
  exact ⟨key, hle.obtained.subset hkey, Nat.le_trans hcount (hle.destroyed.sublist.count_le key)⟩

theorem Balanced.empty : (⟨[], [], []⟩ : KeyLedger).Balanced := ⟨by simp, List.nodup_nil, List.Perm.refl _⟩

/-- A key that is obtained is a new one. -/
theorem Balanced.next_not_mem (h : l.Balanced) (entryIdx : Nat) : l.next entryIdx ∉ l.obtained := by
  intro hmem
  exact Nat.lt_irrefl _ (h.fresh _ hmem)

/-- A balanced ledger, with one more key obtained and released in one of the two ways. -/
theorem Balanced.obtain_release (h : l.Balanced) (entryIdx : Nat) {stored destroyed : List KeyRef}
    (hrelease : (stored ++ destroyed).Perm (l.next entryIdx :: (l.stored ++ l.destroyed))) :
    Balanced ⟨l.next entryIdx :: l.obtained, stored, destroyed⟩ where
  fresh key hkey := by
    rcases List.mem_cons.mp hkey with rfl | hkey
    · exact Nat.lt_succ_self _
    · exact Nat.lt_succ_of_lt (h.fresh key hkey)
  nodup := List.nodup_cons.mpr ⟨h.next_not_mem entryIdx, h.nodup⟩
  perm := hrelease.trans (h.perm.cons _)

theorem Balanced.obtain_store (h : l.Balanced) (entryIdx : Nat) : ((l.obtain entryIdx).store (l.next entryIdx)).Balanced :=
  h.obtain_release entryIdx (List.Perm.refl _)

theorem Balanced.obtain_destroy (h : l.Balanced) (entryIdx : Nat) : ((l.obtain entryIdx).destroy (l.next entryIdx)).Balanced :=
  h.obtain_release entryIdx List.perm_middle

theorem Balanced.releasedOnce (h : l.Balanced) : l.ReleasedOnce := by
  intro key hkey
  have hcount := h.perm.count_eq key
  rw [List.count_append, List.count_eq_one_of_mem h.nodup hkey] at hcount
  omega

/-- The references taken and released of a constant key are as many. -/
theorem Balanced.refCountAfter_eq (h : l.Balanced) (entryIdx : Nat) (before : Int) : l.refCountAfter entryIdx before = before := by
  have hcount := h.perm.countP_eq (·.entryIdx = entryIdx)
  rw [List.countP_append] at hcount
  unfold refCountAfter
  omega

theorem Spoiled.not_releasedOnce (h : l.Spoiled) : ¬ l.ReleasedOnce := by
  obtain ⟨key, hkey, hcount⟩ := h
  intro hreleased
  have := hreleased key hkey
  omega

end KeyLedger

/-! ## The loops -/

/-- How the `while` loop ends: with a key that was obtained last, or with its last key destroyed. -/
inductive SearchEnd (entryIdx : Nat) (l : KeyLedger) (r : KeySearch) : Prop where
  | found (l' : KeyLedger) (val : AsVal) (hfound : r.found = some (l'.next entryIdx, val)) (hleft : 0 < r.left)
      (hledger : r.ledger = l'.obtain entryIdx) (hbalanced : l.Balanced → l'.Balanced)
  | usedUp (last : KeyRef) (hfound : r.found = none) (hkey : r.key = some last) (hobtained : last ∈ r.ledger.obtained)
      (hdestroyed : last ∈ r.ledger.destroyed) (hbalanced : l.Balanced → r.ledger.Balanced)

/-- The `while` loop ends as it does without a ledger. It is entered with retries left, or else with a key that it has destroyed. -/
theorem searchKey_of_freshKey {genKey : Gen AsVal} {m : AsMap} {left left' : Nat} {src src' : Source} {k : Option AsVal} (entryIdx : Nat)
    (key : Option KeyRef) (l : KeyLedger) (h : freshKey genKey m left src = .ok ((k, left'), src'))
    (hstart : 0 < left ∨ ∃ last, key = some last ∧ last ∈ l.obtained ∧ last ∈ l.destroyed) :
    ∃ r, searchKey genKey entryIdx m left key l src = .ok (r, src') ∧ r.found.map Prod.snd = k ∧ r.left = left' ∧
      l.Extends r.ledger ∧ SearchEnd entryIdx l r := by
  induction left generalizing key l src with
  | zero =>
    obtain ⟨heq, rfl⟩ := pure_ok.mp h
    cases heq
    obtain hpos | ⟨last, hkey, hobtained, hdestroyed⟩ := hstart
    · exact absurd hpos (Nat.lt_irrefl 0)
    · exact ⟨_, rfl, rfl, rfl, .refl l, .usedUp last rfl hkey hobtained hdestroyed id⟩
  | succ left ih =>
    obtain ⟨val, t, hval, h⟩ := bind_ok.mp h
    rw [searchKey, bind_eq_of_ok hval]
    cases hget : m.get val with
    | none =>
      rw [hget] at h
      obtain ⟨heq, rfl⟩ := pure_ok.mp h
      cases heq
      exact ⟨_, rfl, rfl, rfl, l.extends_obtain entryIdx, .found l val rfl (Nat.succ_pos left) rfl id⟩
    | some v =>
      rw [hget] at h
      obtain ⟨r, hrun, hfound, hleft, hext, hend⟩ := ih (some (l.next entryIdx)) ((l.obtain entryIdx).destroy (l.next entryIdx)) h
        (.inr ⟨_, rfl, List.mem_cons_self, List.mem_cons_self⟩)
      refine ⟨r, hrun, hfound, hleft, ((l.extends_obtain entryIdx).trans (KeyLedger.extends_destroy _ _)).trans hext, ?_⟩
      cases hend with
      | found l' val hfound hmore hledger hbalanced =>
        exact .found l' val hfound hmore hledger fun hl => hbalanced (hl.obtain_destroy entryIdx)
      | usedUp last hfound hkey hobtained hdestroyed hbalanced =>
        exact .usedUp last hfound hkey hobtained hdestroyed fun hl => hbalanced (hl.obtain_destroy entryIdx)

/-- What the loops leave of a balanced ledger: a balanced one when the keys suffice, a spoiled one when they do not. -/
def KeyLedger.Left (l : KeyLedger) (enough : Bool) (l' : KeyLedger) : Prop :=
  l.Extends l' ∧ (l.Balanced → if enough then l'.Balanced else l'.Spoiled)

theorem ownedEntries_of_suffice {genKey genVal : Gen AsVal} {n left : Nat} {m m' : AsMap} {enough : Bool} {src src' : Source}
    (entryIdx : Nat) (l : KeyLedger) (h : entriesSuffice genKey genVal n left m src = .ok ((enough, m'), src')) (hleft : 0 < left) :
    ∃ l', ownedEntries genKey genVal entryIdx n left m l src = .ok ((m', l'), src') ∧ l.Left enough l' := by
  induction n generalizing left m l src with
  | zero =>
    obtain ⟨heq, rfl⟩ := pure_ok.mp h
    cases heq
    exact ⟨l, rfl, .refl l, id⟩
  | succ n ih =>
    obtain ⟨⟨k, left'⟩, t, hfresh, h⟩ := bind_ok.mp h
    obtain ⟨r, hsearch, rfl, rfl, hext, hend⟩ := searchKey_of_freshKey entryIdx none l hfresh (.inl hleft)
    rw [ownedEntries, bind_eq_of_ok hsearch]
    cases hend with
    | found l₁ keyVal hfound hmore hledger hbalanced =>
      simp only [hfound, Option.map_some] at h ⊢
      obtain ⟨val, t', hval, h⟩ := bind_ok.mp h
      obtain ⟨l', hrun, hext', hleft'⟩ := ih (r.ledger.store (l₁.next entryIdx)) h hmore
      rw [bind_eq_of_ok hval]
      refine ⟨l', hrun, (hext.trans (KeyLedger.extends_store _ _)).trans hext', fun hl => hleft' ?_⟩
      rw [hledger]
      exact (hbalanced hl).obtain_store entryIdx
    | usedUp last hfound hkey hobtained hdestroyed hbalanced =>
      simp only [hfound, hkey, Option.map_none] at h ⊢
      obtain ⟨heq, rfl⟩ := pure_ok.mp h
      cases heq
      refine ⟨_, rfl, hext.trans (KeyLedger.extends_destroy _ last), fun _ => ⟨last, hobtained, ?_⟩⟩
      -- the loop has destroyed the key already
      have hone := List.count_pos_iff.mpr hdestroyed
      rw [KeyLedger.destroy, List.count_cons_self]
      omega

theorem ownedMap_of_suffice {R : AsRandom} {cLen : Nat → Nat} {kvs : List (BinSpec × BinSpec)} {n : Nat} {m m' : AsMap}
    {enough : Bool} {src src' : Source} (entryIdx : Nat) (l : KeyLedger) (h : mapSuffices R cLen kvs n m src = .ok ((enough, m'), src')) :
    ∃ l', ownedMap R cLen kvs n entryIdx m l src = .ok ((m', l'), src') ∧ l.Left enough l' := by
  induction n generalizing kvs entryIdx m l enough src with
  | zero =>
    rw [mapSuffices] at h
    obtain ⟨heq, rfl⟩ := pure_ok.mp h
    cases heq
    exact ⟨l, by rw [ownedMap]; rfl, .refl l, id⟩
  | succ n ih =>
    cases kvs with
    | nil => exact absurd h (by simp [mapSuffices])
    | cons kv kvs =>
      obtain ⟨k, v⟩ := kv
      rw [mapSuffices] at h
      obtain ⟨⟨first, m₁⟩, t, hentries, h⟩ := bind_ok.mp h
      obtain ⟨⟨others, m₂⟩, t', hothers, h⟩ := bind_ok.mp h
      obtain ⟨heq, rfl⟩ := pure_ok.mp h
      cases heq
      obtain ⟨l₁, hrun, hext, hleft⟩ := ownedEntries_of_suffice entryIdx l hentries (by decide)
      obtain ⟨l', hrun', hext', hleft'⟩ := ih (entryIdx + 1) l₁ hothers
      refine ⟨l', ?_, hext.trans hext', fun hl => ?_⟩
      · rw [ownedMap, bind_eq_of_ok hrun]
        exact hrun'
      · have hfirst := hleft hl
        cases first with
        | true => exact hleft' hfirst
        | false => exact KeyLedger.Spoiled.mono hfirst hext'

/-! ## The generator without the ledger -/

/-- The map is the one that `_gen_random_map` generates. -/
theorem entriesSuffice_map (genKey genVal : Gen AsVal) (n left : Nat) (m : AsMap) :
    Prod.snd <$> entriesSuffice genKey genVal n left m = pairEntries genKey genVal n left m := by
  induction n generalizing left m with
  | zero => simp [entriesSuffice, pairEntries]
  | succ n ih =>
    simp only [entriesSuffice, pairEntries, map_bind]
    congr 1
    funext k
    cases k.1 with
    | none => simp
    | some key => simp [ih]

theorem mapSuffices_map (R : AsRandom) (cLen : Nat → Nat) (kvs : List (BinSpec × BinSpec)) (n : Nat) (m : AsMap) :
    Prod.snd <$> mapSuffices R cLen kvs n m = genRandomMap R cLen kvs n m := by
  induction n generalizing kvs m with
  | zero => simp [mapSuffices, genRandomMap]
  | succ n ih =>
    cases kvs with
    | nil =>
      simp only [mapSuffices, genRandomMap]
      rfl
    | cons kv kvs =>
      obtain ⟨k, v⟩ := kv
      simp only [mapSuffices, genRandomMap, map_bind, map_pure]
      rw [← entriesSuffice_map, bind_map_left]
      congr 1
      funext r
      rw [← ih, map_eq_pure_bind]

/-! ## Release -/

/-- What the ledger of a call is to be: every key is released once, and the constant keys of the spec have the reference counts they
had before once the map has been destroyed. -/
structure KeysReleased (l : KeyLedger) : Prop where
  once : l.ReleasedOnce
  refCounts : ∀ entryIdx before, l.refCountAfter entryIdx before = before

/-- Whatever the map spec and the words, a call of `_gen_random_map` that returns releases its keys exactly when no pair uses up its
retries. -/
theorem map_keys_released_iff (R : AsRandom) (cLen : Nat → Nat) (kvs : List (BinSpec × BinSpec)) (nEntries : Nat) (src src' : Source)
    (m : AsMap) (h : genRandomMap R cLen kvs nEntries [] src = .ok (m, src')) :
    ∃ l, genRandomMapOwned R cLen kvs nEntries src = .ok ((m, l), src') ∧ (KeysReleased l ↔ KeysSuffice R cLen kvs nEntries src) := by
  rw [← mapSuffices_map] at h
  obtain ⟨⟨enough, m⟩, hrun, rfl⟩ := map_ok.mp h
  obtain ⟨l, howned, -, hleft⟩ := ownedMap_of_suffice 0 ⟨[], [], []⟩ hrun
  have hend := hleft .empty
  refine ⟨l, howned, ?_, ?_⟩
  · intro hreleased
    cases enough with
    | true => exact ⟨m, src', hrun⟩
    | false => exact absurd hreleased.once (KeyLedger.Spoiled.not_releasedOnce hend)
  · rintro ⟨m', src'', hsuffices⟩
    rw [hrun] at hsuffices
    cases hsuffices
    exact ⟨KeyLedger.Balanced.releasedOnce hend, fun entryIdx before => KeyLedger.Balanced.refCountAfter_eq hend entryIdx before⟩

/-- Two keys of `2*I1`, the second after a collision with the first. -/
theorem map_keys_released_collision :
    ∃ l, genRandomMapOwned .littleEndian id [(.scalar 2 (.int 0), .scalar 1 (.int 0))] 1 (some [7, 0, 7, 9, 0]) =
        .ok (([(.int 7, .int 0), (.int 9, .int 0)], l), some []) ∧ KeysReleased l := by
  have hrun : genRandomMap .littleEndian id [(.scalar 2 (.int 0), .scalar 1 (.int 0))] 1 [] (some [7, 0, 7, 9, 0]) =
      .ok ([(.int 7, .int 0), (.int 9, .int 0)], some []) := by decide +kernel
  obtain ⟨l, howned, hiff⟩ := map_keys_released_iff .littleEndian id _ _ _ _ _ hrun
  refine ⟨l, howned, hiff.mpr ⟨[(.int 7, .int 0), (.int 9, .int 0)], some [], ?_⟩⟩
  decide +kernel

/-- The key drawn for `I1` is 1, so that the constant key 1 is never a new one. It is destroyed 1025 times for the 1024 references
that are taken of it, and its last one twice. -/
theorem constant_key_destroyed_twice :
    objSpecParse .littleEndian "\x7bI1:1,1:I\x7d".toList =
        .ok ⟨[.map 1 2 2 [(.scalar 1 (.int 0), .scalar 1 (.constInt 1)), (.scalar 1 (.constInt 1), .scalar 1 (.int 3))]], 1⟩ ∧
      ∃ m l src', genRandomMapOwned .littleEndian id
          [(.scalar 1 (.int 0), .scalar 1 (.constInt 1)), (.scalar 1 (.constInt 1), .scalar 1 (.int 3))] 2 (some [1]) =
          .ok ((m, l), src') ∧
        ⟨1, 1024⟩ ∈ l.obtained ∧ l.destroyed.count ⟨1, 1024⟩ = 2 ∧ l.refCountAfter 1 1 = 0 := by
  refine ⟨by decide +kernel, ?_⟩
  have hrun : ((fun r => (decide (⟨1, 1024⟩ ∈ r.2.obtained), r.2.destroyed.count ⟨1, 1024⟩, r.2.refCountAfter 1 1)) <$>
      genRandomMapOwned .littleEndian id
        [(.scalar 1 (.int 0), .scalar 1 (.constInt 1)), (.scalar 1 (.constInt 1), .scalar 1 (.int 3))] 2) (some [1]) =
      .ok ((true, 2, 0), some []) := by decide +kernel
  obtain ⟨⟨m, l⟩, hl, hledger⟩ := map_ok.mp hrun
  simp only [Prod.mk.injEq, decide_eq_true_eq] at hledger
  exact ⟨m, l, some [], hl, hledger⟩

end AerospikeBenchmark
