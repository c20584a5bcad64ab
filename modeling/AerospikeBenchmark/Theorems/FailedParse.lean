import AerospikeBenchmark.Lemmas.Destroy
import AerospikeBenchmark.Theorems.ParserStates

/-!
# A failed parse

What `_parse_bin_types` has built when it finds an error, and what of it is released before it returns. `_destroy_consumer_states`
takes the last place of an array for one that is not built. After an element of a list, and after a comma in a map, it is built; then
its memory is lost.
-/

namespace AerospikeBenchmark

open CText SpecTree

variable {R : AsRandom}

/-! ## What an error leaves -/

theorem isBuilt_leaf {l : Leaf} (h : LeafOk l) : IsBuilt l.build := ⟨.leaf l, h, rfl⟩

theorem mapHolds_of_pairsRead {c : MapConsumer} {kvs : List (Leaf × SpecTree)} (h : PairsRead kvs)
    (hbuilder : c.listBuilder = kvs.map fun p => (p.1.build, p.2.build)) : MapHolds c := by
  refine ⟨?_, ?_⟩
  · rw [hbuilder, List.forall_mem_map]
    exact fun p hp => ⟨isBuilt_leaf (leafOk_of_mem_pairs h.wf p hp), p.2, wf_of_mem_pairs h.wf p hp, rfl⟩
  · rw [hbuilder, List.length_map]
    exact (length_le_keyTotal h.wf).trans_lt h.fits

theorem isBuilt_of_wfList {ts : List SpecTree} (h : WFList ts) : ∀ spec ∈ ts.map build, IsBuilt spec :=
  List.forall_mem_map.mpr fun t ht => ⟨t, wf_of_mem h t ht, rfl⟩

/-- A consumer state whose array has a place reserved. -/
theorem leaves_reserved {c : Consumer} (hc : Reading c) (hrole : c.role ≠ none) : Leaves c .reserved := by
  cases hc with
  | list hwf _ => exact .reserved (by simpa [listAfter, ListConsumer.extend] using isBuilt_of_wfList hwf)
  | key hkvs => exact .key (mapHolds_of_pairsRead hkvs (by simp [mapAfter, MapConsumer.extend])) rfl
  | val hkvs => exact .val (mapHolds_of_pairsRead hkvs (by simp [MapConsumer.withKey, mapAfter, MapConsumer.extend])) rfl
  | done => exact absurd rfl hrole

theorem leaves_parents {c : Consumer} {ps : List Consumer} (h : Nested c ps) : ∀ p ∈ ps, Leaves p .reserved := by
  induction h with
  | root => simp
  | inside _ _ hexp hp ih =>
    obtain ⟨role, hrole, -⟩ := hexp.role
    exact List.forall_mem_cons.mpr ⟨leaves_reserved hp.reading (by simp [hrole]), ih⟩

/-- An error in the code after an element. -/
theorem leaves_finishElement {c : Consumer} (hc : Reading c) {b : Bool} {ps : List Consumer} {t : SpecTree} (ht : t.WF)
    (hkey : c.role.any Role.isKey = true → ∃ l, t = .leaf l) {s : Text} {e : ParseError}
    (h : finishElement (c.andConst b) ps t.build s = .error e) :
    ∃ c', e.states = c' :: ps ∧ Leaves c' e.slot ∧ c'.stored ≤ c.stored + 1 := by
  cases hc with
  | @list m ts hwf _ =>
    have hbuilt := isBuilt_of_wfList hwf
    simp only [Consumer.andConst, finishElement, finishList] at h
    split at h
    · cases h
      exact ⟨_, rfl, .filled (by simpa [listAfter, ListConsumer.extend] using hbuilt) ⟨t, ht, rfl⟩, Nat.le_succ _⟩
    split at h
    · cases h
    split at h
    · cases h
      exact ⟨_, rfl, .filled (by simpa [listAfter, ListConsumer.extend] using hbuilt) ⟨t, ht, rfl⟩, Nat.le_succ _⟩
    · cases h
  | @key n kvs hkvs =>
    have hholds : MapHolds (mapAfter n kvs .key) := mapHolds_of_pairsRead hkvs (by simp [mapAfter, MapConsumer.extend])
    obtain ⟨l, rfl⟩ := hkey rfl
    simp only [Consumer.andConst, finishElement, mapAfter, finishKey] at h
    split at h
    · cases h
      exact ⟨_, rfl, .val (k := l) ⟨hholds.built, hholds.fits⟩ rfl, Nat.le_succ _⟩
    split at h
    · cases h
      exact ⟨_, rfl, .val (k := l) ⟨hholds.built, hholds.fits⟩ rfl, Nat.le_succ _⟩
    · cases h
  | @val n kvs k hkvs hk hkeys hfit =>
    simp only [Consumer.andConst, finishElement, MapConsumer.withKey, finishValue] at h
    split at h
    · cases h
    split at h
    · cases h
      have hlen := length_le_keyTotal hkvs.wf
      have hone := hk.1
      have hholds : MapHolds (mapAfter n kvs .key) := mapHolds_of_pairsRead hkvs (by simp [mapAfter, MapConsumer.extend])
      refine ⟨_, rfl, .done ⟨?_, ?_⟩ rfl (by simp), by simp [Consumer.stored, mapAfter, MapConsumer.extend, MapConsumer.withKey]⟩
      · exact List.forall_mem_append.mpr ⟨hholds.built, by simpa using ⟨isBuilt_leaf hk, t, ht, rfl⟩⟩
      · simp [mapAfter, MapConsumer.extend]
        omega
    · cases h
  | done => simp [Consumer.andConst, finishElement, mapAfter] at h

/-- What an error leaves: the states and the last place of the innermost array. -/
structure LeavesStates (N : Nat) (e : ParseError) (top : Consumer) (parents : List Consumer) : Prop where
  states : e.states = top :: parents
  innermost : Leaves top e.slot
  outer : ∀ p ∈ parents, Leaves p .reserved
  stored : ∀ c ∈ top :: parents, c.stored ≤ N

/-- No consumer state has stored more than there was text for. -/
def StoredWithin (N : Nat) (S : ParseState) : Prop := ∀ c ∈ S.top :: S.parents, c.stored + S.str.length ≤ N

/-- An error in the code after an element that was read in `p`. -/
theorem leavesStates_finishElement {N : Nat} {p : Consumer} {ps : List Consumer} (hp : Nested p ps) {b : Bool} {t : SpecTree} (ht : t.WF)
    (hkey : p.role.any Role.isKey = true → ∃ l, t = .leaf l) {s : Text} {e : ParseError} (hstored : ∀ c ∈ p :: ps, c.stored < N)
    (h : finishElement (p.andConst b) ps t.build s = .error e) : ∃ top parents, LeavesStates N e top parents := by
  obtain ⟨c', hstates, hleaves, hle⟩ := leaves_finishElement hp.reading ht hkey h
  obtain ⟨hlt, hps⟩ := List.forall_mem_cons.mp hstored
  refine ⟨c', ps, hstates, hleaves, leaves_parents hp, List.forall_mem_cons.mpr ⟨by omega, fun c hc => (hps c hc).le⟩⟩

theorem leavesStates_close {N : Nat} {S : ParseState} (hS : InState S) (hN : StoredWithin N S) (hend : peek S.str = S.top.delimiter)
    {e : ParseError} (h : closeCollection R S = .error e) : ∃ top parents, LeavesStates N e top parents := by
  obtain ⟨c, ps, s⟩ := S
  obtain ⟨hnest, -⟩ := hS
  simp only [StoredWithin] at hN hend hnest
  cases hnest with
  | root hc hroot =>
    cases hc with
    | @list b ts hwf hlt =>
      obtain rfl : b = none := by simpa [Consumer.mult?, listAfter, ListConsumer.extend] using hroot
      cases h
    | key | val | done => simp [Consumer.mult?] at hroot
  | @inside _ p ps n hc hn hexp hp =>
    have hall : ∀ x ∈ c :: p :: ps, x.stored ≤ N := fun x hx => by have := hN x hx; omega
    have hparents := leaves_parents (.inside hc hn hexp hp)
    cases closing_of_reading (R := R) hc hn hexp ps s with
    | @stored t hwf hmult hclose =>
      rw [hclose] at h
      obtain ⟨role, hrole, hkey, -⟩ := hexp.role
      refine leavesStates_finishElement hp hwf (by simp [hrole, hkey]) (fun x hx => ?_) h
      have hlt : 0 < s.length := by
        rcases s with _ | ⟨a, s⟩
        · cases c with
          | list c =>
            obtain ⟨_ | m, isConst, builder, len⟩ := c
            · cases hn
            · cases hend
          | map c => cases hend
        · exact Nat.succ_pos _
      have := hN x (List.mem_cons_of_mem _ hx)
      omega
    | @dangling m msg hm hstate hne hclose =>
      rw [hclose] at h
      cases h
      subst hm
      refine ⟨_, _, rfl, ?_, hparents, hall⟩
      cases leaves_reserved hc (by simp [Consumer.role, hstate]) with
      | key hholds => exact .dangling hholds hstate hne
      | val hholds hval => exact absurd (hstate.symm.trans hval) (by simp)
    | @noValue m k msg hm hstate hclose =>
      rw [hclose] at h
      cases h
      subst hm
      exact ⟨_, _, rfl, leaves_reserved hc (by simp [Consumer.role, hstate]), hparents, hall⟩

theorem leavesStates_consume {N : Nat} {S : ParseState} (hS : InState S) (hN : StoredWithin N S) {e : ParseError}
    (h : consumeBinType S = .error e) : ∃ top parents, LeavesStates N e top parents := by
  have hparents := leaves_parents hS.nested
  have hall : ∀ x ∈ S.top :: S.parents, x.stored ≤ N := fun x hx => by have := hN x hx; omega
  unfold consumeBinType at h
  cases hrole : S.top.role with
  | none => simp [hrole] at h
  | some role =>
    have hreserved := leaves_reserved hS.nested.reading (by simp [hrole])
    cases hread : readElement role S.top.delimiter S.str with
    | error f =>
      obtain ⟨msg, loc, freed⟩ := f
      simp only [hrole, hread] at h
      cases h
      refine ⟨_, _, rfl, ?_, hparents, hall⟩
      cases freed with
      | none => exact hreserved
      | some val =>
        -- a constant is freed here only if it is a key
        cases hkey : role.isKey with
        | false => cases freesNothing_readElement hkey _ _ _ hread
        | true =>
          cases htop : S.top with
          | list c => simp [htop, Consumer.role] at hrole; simp [← hrole, Role.isKey] at hkey
          | map c =>
            rw [htop] at hreserved hrole
            cases hreserved with
            | key hholds hstate => exact .refused hholds hstate
            | val hholds hstate => simp [Consumer.role, hstate] at hrole; simp [← hrole, Role.isKey] at hkey
    | ok r =>
      obtain ⟨n, tok, s⟩ := r
      obtain ⟨hpos, hlt, hval, htok, hadv⟩ := readElement_ok hread
      cases tok with
      | scalar x =>
        simp only [hrole, hread] at h
        refine leavesStates_finishElement (t := .leaf ⟨n, x⟩) hS.nested ⟨hpos, hlt, htok.inRange⟩ (fun _ => ⟨_, rfl⟩) (fun c hc => ?_) h
        have := hN c hc
        have := hadv.length_lt
        omega
      | openList | openMap =>
        simp only [hrole, hread] at h
        cases h

theorem leavesStates_of_error {N : Nat} {S : ParseState} (hS : InState S) (hN : StoredWithin N S) {e : ParseError}
    (h : parseStep R S = .error e) : ∃ top parents, LeavesStates N e top parents := by
  by_cases hend : peek S.str = S.top.delimiter
  · exact leavesStates_close hS hN hend (parseStep_close (R := R) hend ▸ h)
  · exact leavesStates_consume hS hN (parseStep_consume (R := R) hend ▸ h)

/-! ## What is stored is bounded by the text -/

@[simp] theorem stored_andConst (b : Bool) (c : Consumer) : (c.andConst b).stored = c.stored := by
  cases c <;> rfl

theorem ElementStored.stored_le {c : Consumer} {ps : List Consumer} {spec : BinSpec} {S' : ParseState}
    (h : ElementStored ps spec c S') : S'.top.stored ≤ c.stored + 1 := by
  cases h <;> simp [Consumer.stored]

/-- After an iteration each consumer state has stored at most one more than one had before it. -/
theorem stored_of_next {S S' : ParseState} (h : parseStep R S = .next S') :
    ∀ c ∈ S'.top :: S'.parents, ∃ c₀ ∈ S.top :: S.parents, c.stored ≤ c₀.stored + 1 := by
  have hkeep : ∀ c ∈ S.parents, ∃ c₀ ∈ S.top :: S.parents, c.stored ≤ c₀.stored + 1 :=
    fun c hc => ⟨c, List.mem_cons_of_mem _ hc, Nat.le_succ _⟩
  by_cases hend : peek S.str = S.top.delimiter
  · rw [parseStep_close hend] at h
    obtain ⟨p, b, spec, hps, hfinish⟩ := closeCollection_next h
    have hle := (finishElement_next hfinish).1.stored_le
    rw [stored_andConst] at hle
    rw [hps] at hkeep ⊢
    exact List.forall_mem_cons.mpr ⟨⟨p, by simp, hle⟩, fun c hc => hkeep c (List.mem_cons_of_mem _ hc)⟩
  · rw [parseStep_consume hend] at h
    cases consumeBinType_next h with
    | stored _ hfinish =>
      have hstored := (finishElement_next hfinish).1
      have hle := hstored.stored_le
      rw [stored_andConst] at hle
      rw [hstored.stack.1]
      exact List.forall_mem_cons.mpr ⟨⟨S.top, List.mem_cons_self, hle⟩, hkeep⟩
    | opened _ hparents htop =>
      have hempty : S'.top.stored = 0 := by rcases htop with h | h <;> rw [h] <;> rfl
      rw [hparents]
      exact List.forall_mem_cons.mpr ⟨⟨S.top, List.mem_cons_self, by omega⟩,
        List.forall_mem_cons.mpr ⟨⟨S.top, List.mem_cons_self, Nat.le_succ _⟩, hkeep⟩⟩

theorem Iterates.storedWithin {str : Text} {n : Nat} {S : ParseState} (h : Iterates R (beginState str) n S) :
    StoredWithin str.length S := by
  induction h with
  | start => simp [StoredWithin, beginState, Consumer.stored]
  | step _ hstep ih =>
    intro c hc
    obtain ⟨c₀, hc₀, hle⟩ := stored_of_next hstep c hc
    have hlt := (parseStep_advances hstep).length_lt
    have hbefore := ih c₀ hc₀
    omega

/-! ## Folding -/

/-- With keys for one entry each, every pair is reached. -/
theorem pairsReached_of_single {nEntries : Nat} {kvs : List (BinSpec × BinSpec)} (hone : ∀ p ∈ kvs, p.1.nRepeats = 1) {cnt : Nat}
    (hle : cnt + kvs.length ≤ nEntries) : PairsReached nEntries cnt kvs := by
  induction kvs generalizing cnt with
  | nil => trivial
  | cons p kvs ih =>
    obtain ⟨hp, hkvs⟩ := List.forall_mem_cons.mp hone
    rw [List.length_cons] at hle
    exact ⟨fun h => by omega, ih hkvs (by rw [hp]; omega)⟩

/-- A constant is stored without maps in it. -/
theorem everywhere_of_isConst {t : SpecTree} (h : t.isConst = true) : t.build.Everywhere BinSpec.PairsFreed := by
  cases t with
  | leaf l => exact everywhere_scalar.mpr trivial
  | list n es =>
    rw [build, if_pos (by simpa [isConst] using h)]
    rintro x ⟨⟩
    trivial
  | map n kvs =>
    rw [build, if_pos (by simpa [isConst] using h)]
    rintro x ⟨⟩
    trivial

theorem freedWhole_constList {n : Nat} {ts : List SpecTree} (hwf : WFList ts) (htot : total ts < 2 ^ 32) (hconst : allConst ts = true) :
    FreedWhole (.list n (total ts) (ts.map build)) := by
  rw [← buildList_eq_map, freedWhole_buildList hwf htot fun t ht => freedWhole_build_iff (wf_of_mem hwf t ht), everywhere_list,
    buildList_eq_map, List.forall_mem_map]
  exact ⟨trivial, fun t ht => everywhere_of_isConst (isConst_of_allConst hconst t ht)⟩

theorem freedWhole_constMap {n : Nat} {kvs : List (Leaf × SpecTree)} (h : PairsRead kvs) (hconst : allConstPairs kvs = true) :
    FreedWhole (.map n kvs.length (keyTotal kvs) (kvs.map fun p => (p.1.build, p.2.build))) := by
  obtain ⟨ps, hps⟩ := Option.isSome_iff_exists.mp
    (freeLoop_buildPairs (fun p hp => binSpecFree_build (wf_of_mem_pairs h.wf p hp)) h.wf h.fits)
  have hfits : 0 + ((buildPairs kvs).map fun p => p.1.nRepeats).sum < 2 ^ 32 := by
    rw [Nat.zero_add, buildPairs_eq_map, List.map_map]
    exact h.fits
  have hsingle : ∀ p ∈ buildPairs kvs, p.1.nRepeats = 1 := by
    rw [buildPairs_eq_map, List.forall_mem_map]
    exact fun p hp => h.keys.constMult p.1 (List.mem_map_of_mem hp) (isConst_of_allConstPairs hconst p hp).1
  rw [← buildPairs_eq_map, freedWhole_map_iff hps, freeLoop_pairs_iff hfits hps]
  refine ⟨pairsReached_of_single hsingle (by simp [buildPairs_eq_map]), ?_⟩
  rw [buildPairs_eq_map, List.forall_mem_map]
  intro p hp
  have hval := isConst_of_allConstPairs hconst p hp
  exact ⟨freedWhole_leaf p.1, (freedWhole_build_iff (wf_of_mem_pairs h.wf p hp)).mpr (everywhere_of_isConst hval.2)⟩

/-- The bin specs of a collection that is turned into a constant are all released. -/
theorem freedWhole_of_folds {S : ParseState} (hS : InState S) {spec : BinSpec} (h : S.folds = some spec) : FreedWhole spec := by
  obtain ⟨c, ps, s⟩ := S
  have hc := hS.nested.reading
  unfold ParseState.folds at h
  split at h
  · cases hc with
    | @list b ts hwf hlt =>
      cases b with
      | none => simp [listAfter, ListConsumer.extend] at h
      | some n =>
        cases hconst : allConst ts with
        | false => simp [listAfter, ListConsumer.extend, hconst] at h
        | true =>
          obtain rfl : BinSpec.list n (total ts) (ts.map build) = spec := by simpa [listAfter, ListConsumer.extend, hconst] using h
          exact freedWhole_constList hwf hlt hconst
    | @key n kvs hkvs =>
      cases hkv : kvs with
      | nil =>
        subst hkv
        obtain rfl : BinSpec.map n 0 0 [] = spec := by simpa [mapAfter, MapConsumer.extend, allConstPairs] using h
        exact freedWhole_constMap hkvs rfl
      | cons p kvs => cases hconst : allConstPairs (p :: kvs) <;> simp [mapAfter, MapConsumer.extend, hkv, hconst] at h
    | val => simp [MapConsumer.withKey] at h
    | @done n kvs hne hkvs =>
      cases hconst : allConstPairs kvs with
      | false => simp [mapAfter, MapConsumer.extend, hconst] at h
      | true =>
        obtain rfl : BinSpec.map n kvs.length (keyTotal kvs) (kvs.map fun p => (p.1.build, p.2.build)) = spec := by
          simpa [mapAfter, MapConsumer.extend, hconst] using h
        exact freedWhole_constMap hkvs hconst
  · cases h

/-! ## All states -/

/-- The number of the consumer state that memory belongs to. -/
def Owned.depth : Owned → Nat
  | .spec d _ | .listBuilder d | .state d => d

theorem depth_ownedState {d : Nat} {x : Owned} (h : x ∈ ownedState d) : x.depth = d := by
  cases d with
  | zero =>
    obtain rfl := List.mem_singleton.mp h
    rfl
  | succ d => rcases List.mem_pair.mp h with rfl | rfl <;> rfl

theorem depth_ownedByStates {states : List Consumer} {slot : Slot} {x : Owned} (h : x ∈ ownedByStates states slot) :
    x.depth < states.length := by
  induction states generalizing slot with
  | nil => cases h
  | cons c parents ih =>
    rw [ownedByStates, List.append_assoc] at h
    rcases List.mem_append.mp h with hspec | h
    · obtain ⟨p, -, rfl⟩ := List.mem_map.mp hspec
      exact Nat.lt_succ_self _
    rcases List.mem_append.mp h with hstate | hrest
    · rw [depth_ownedState hstate]
      exact Nat.lt_succ_self _
    · exact (ih hrest).trans (Nat.lt_succ_self _)

theorem nodup_ownedByStates (states : List Consumer) (slot : Slot) : (ownedByStates states slot).Nodup := by
  induction states generalizing slot with
  | nil => exact List.nodup_nil
  | cons c parents ih =>
    have hspecs : ((c.blocks slot).map (Owned.spec parents.length)).Nodup :=
      (c.nodup_blocks slot).map fun _ _ h => (Owned.spec.inj h).2
    have hstate : (ownedState parents.length).Nodup := by
      cases parents.length <;> simp [ownedState]
    have hown : ((c.blocks slot).map (Owned.spec parents.length) ++ ownedState parents.length).Nodup := by
      refine List.nodup_append.mpr ⟨hspecs, hstate, ?_⟩
      intro x hx y hy heq
      obtain ⟨p, -, rfl⟩ := List.mem_map.mp hx
      subst heq
      cases hlen : parents.length <;> simp [ownedState, hlen] at hy
    refine List.nodup_append.mpr ⟨hown, ih .reserved, ?_⟩
    intro x hx y hy heq
    have hlt := depth_ownedByStates hy
    have hdepth : x.depth = parents.length := by
      rcases List.mem_append.mp hx with hspec | hstate
      · obtain ⟨p, -, rfl⟩ := List.mem_map.mp hspec
        rfl
      · exact depth_ownedState hstate
    rw [heq] at hdepth
    omega

/-- One state of the stack: what is released of its array, then the array and the state. -/
theorem own_perm_iff {d : Nat} {ps qs : List BlockPath} (h : ps.Subperm qs) :
    (ps.map (Owned.spec d) ++ ownedState d).Subperm (qs.map (Owned.spec d) ++ ownedState d) ∧
      ((ps.map (Owned.spec d) ++ ownedState d).Perm (qs.map (Owned.spec d) ++ ownedState d) ↔ ps.Perm qs) := by
  have hinj : Function.Injective (Owned.spec d) := fun _ _ heq => (Owned.spec.inj heq).2
  have hmap : (ps.map (Owned.spec d)).Subperm (qs.map (Owned.spec d)) := h.map hinj
  refine ⟨hmap.append (List.Subperm.refl _), ?_⟩
  rw [perm_append_iff_of_subperm hmap (List.Subperm.refl _), List.map_perm_map_iff hinj]
  exact and_iff_left (List.Perm.refl _)

theorem release_outer {parents : List Consumer} (h : ∀ p ∈ parents, Leaves p .reserved) :
    ∃ rs, destroyConsumerStates parents .reserved = some rs ∧ rs.Subperm (ownedByStates parents .reserved) ∧
      ((∀ p ∈ parents, p.stored < 2 ^ 31) →
        (rs.Perm (ownedByStates parents .reserved) ↔ ∀ p ∈ parents, NothingLost p .reserved)) := by
  induction parents with
  | nil => exact ⟨[], rfl, List.Subperm.refl _, by simp [ownedByStates]⟩
  | cons c parents ih =>
    obtain ⟨hc, hparents⟩ := List.forall_mem_cons.mp h
    obtain ⟨rs, hrs, hsub, hwhole⟩ := ih hparents
    obtain ⟨refused, ps, hrefused, hps, hown, hownWhole⟩ := releases_of_leaves hc
    obtain rfl := Option.some.inj hrefused
    rw [List.nil_append] at hown hownWhole
    have hparts := own_perm_iff (d := parents.length) hown
    refine ⟨_, by simp only [destroyConsumerStates, hps, hrs]; rfl, hparts.1.append hsub, fun hsmall => ?_⟩
    obtain ⟨hsmallc, hsmallp⟩ := List.forall_mem_cons.mp hsmall
    rw [ownedByStates, perm_append_iff_of_subperm hparts.1 hsub, hparts.2, hownWhole hsmallc, hwhole hsmallp, List.forall_mem_cons]

/-- Nothing of what was built when the error was found is lost. -/
def ParseError.NothingLost (e : ParseError) : Prop :=
  match e.states with
  | [] => True
  | top :: parents => AerospikeBenchmark.NothingLost top e.slot ∧ ∀ p ∈ parents, AerospikeBenchmark.NothingLost p .reserved

theorem release_of_leavesStates {N : Nat} {e : ParseError} {top : Consumer} {parents : List Consumer} (h : LeavesStates N e top parents) :
    ∃ released, e.release = some released ∧ released.Nodup ∧ released.Subperm e.owned ∧
      (N < 2 ^ 31 → (released.Perm e.owned ↔ e.NothingLost)) := by
  obtain ⟨hstates, htop, hparents, hstored⟩ := h
  obtain ⟨rs, hrs, hsub, hwhole⟩ := release_outer hparents
  obtain ⟨refused, ps, hrefused, hps, hown, hownWhole⟩ := releases_of_leaves htop
  have hparts := own_perm_iff (d := parents.length) hown
  have howned : e.owned = (top.blocks e.slot).map (.spec parents.length) ++ ownedState parents.length ++
      ownedByStates parents .reserved := by rw [ParseError.owned, hstates, ownedByStates]
  have hrelease : e.release = some ((refused ++ ps).map (.spec parents.length) ++ ownedState parents.length ++ rs) := by
    simp [ParseError.release, hstates, hrefused, destroyConsumerStates, hps, hrs]
  have hall : ((refused ++ ps).map (Owned.spec parents.length) ++ ownedState parents.length ++ rs).Subperm e.owned :=
    howned ▸ hparts.1.append hsub
  refine ⟨_, hrelease, ?_, hall, fun hN => ?_⟩
  · obtain ⟨xs, hperm, hxs⟩ := hall
    exact hperm.nodup_iff.mp (hxs.nodup (nodup_ownedByStates e.states e.slot))
  · obtain ⟨hstop, hsparents⟩ := List.forall_mem_cons.mp hstored
    rw [howned, perm_append_iff_of_subperm hparts.1 hsub, hparts.2, hownWhole (by omega),
      hwhole fun p hp => (hsparents p hp).trans_lt hN, ParseError.NothingLost, hstates]

/-- On every string that is rejected: a collection that is turned into a constant on the way has its bin specs released, each once; and
after the error the memory of the bin specs, the arrays and the states is released, none of it twice, and `bin_spec_free` is called on
no bin spec that is not built. All that was built is released exactly when the error is not one that loses memory. -/
theorem failed_parse_releases (R : AsRandom) (str : Text) (hnul : '\x00' ∉ str) (f : ParseFailure) (hrejected : objSpecParse R str = .error f) :
    (∀ n S spec, Iterates R (beginState str) n S → S.folds = some spec → binSpecFree spec = some spec.blocks) ∧
    ∃ e released, f = .error e ∧ e.release = some released ∧ released.Nodup ∧ released.Subperm e.owned ∧
      (str.length < 2 ^ 31 → (released.Perm e.owned ↔ e.NothingLost)) := by
  refine ⟨fun n S spec hrun hfolds => freedWhole_of_folds (hrun.inState (inState_begin str)) hfolds, ?_⟩
  obtain ⟨n, S, hrun, hlast⟩ := parseLoop_ends (R := R) (inState_begin str) hnul (Nat.lt_succ_self str.length)
  rw [← objSpecParse, hrejected] at hlast
  cases hlast with
  | reported e hstep =>
    obtain ⟨top, parents, hleaves⟩ := leavesStates_of_error (hrun.inState (inState_begin str)) hrun.storedWithin hstep
    obtain ⟨released, hreleased, hnodup, hsub, hwhole⟩ := release_of_leavesStates hleaves
    exact ⟨e, released, rfl, hreleased, hnodup, hsub, hwhole⟩

/-- A string in a list that is read on to an error is released. -/
theorem failed_parse_releases_string :
    ∃ e released, objSpecParse .littleEndian "[\"a\",x]".toList = .error (.error e) ∧ e.release = some released ∧
      Owned.spec 1 [.elem 0] ∈ e.owned ∧ released.Perm e.owned := by
  obtain ⟨f, hf⟩ : ∃ f, objSpecParse .littleEndian "[\"a\",x]".toList = .error f ∧
      f = .error ⟨"Invalid integer value", "x]".toList,
        [.list ⟨some 1, true, [.scalar 1 (.constStr ['a'])], 1⟩, .list ⟨none, false, [], 0⟩], .reserved⟩ :=
    ⟨_, by decide +kernel, rfl⟩
  obtain ⟨-, e, released, he, hrelease, -, -, hwhole⟩ := failed_parse_releases .littleEndian "[\"a\",x]".toList (by decide) f hf.1
  obtain rfl := ParseFailure.error.inj (he.symm.trans hf.2)
  refine ⟨_, released, hf.1.trans (by rw [hf.2]), hrelease, by decide +kernel, (hwhole (by decide)).mpr ?_⟩
  simp [ParseError.NothingLost, NothingLost, BinSpec.PairsFreed]

/-- A string after which a list does not go on is lost. -/
theorem last_element_not_released :
    objSpecParse .littleEndian "[\"a\"".toList = .error (.error ⟨"Expect ',' separating bin specifiers in a list", [],
      [.list ⟨some 1, true, [], 1⟩, .list ⟨none, false, [], 0⟩], .filled (.scalar 1 (.constStr ['a']))⟩) ∧
    Owned.spec 1 [.elem 0] ∈ ParseError.owned ⟨"Expect ',' separating bin specifiers in a list", [],
      [.list ⟨some 1, true, [], 1⟩, .list ⟨none, false, [], 0⟩], .filled (.scalar 1 (.constStr ['a']))⟩ ∧
    ParseError.release ⟨"Expect ',' separating bin specifiers in a list", [],
      [.list ⟨some 1, true, [], 1⟩, .list ⟨none, false, [], 0⟩], .filled (.scalar 1 (.constStr ['a']))⟩ =
      some [.listBuilder 1, .state 1, .listBuilder 0] := by
  refine ⟨by decide +kernel, by decide +kernel, by decide +kernel⟩

end AerospikeBenchmark
