import AerospikeBenchmark.Lemmas.Populate

/-!
# The generation paths agree

`obj_spec_populate_bins` and `obj_spec_gen_value` draw the same values from a stream, for all bins and for a selection: what the one
stores under the name of a bin the other puts at the place of that bin in its list.
-/

namespace AerospikeBenchmark

open CText Words

/-! ## Bins of a record -/

/-- A bin holds a value, and no other bin has its name. -/
def HoldsBin (bins : List RecordBin) (name : Text) (v : AsVal) : Prop :=
  (name, some v) ∈ bins ∧ ∀ b ∈ bins, b.1 = name → b = (name, some v)

theorem mem_setBin {bins : List RecordBin} {name : Text} {v : AsVal} {b : RecordBin} :
    b ∈ setBin bins name v ↔ b = (name, some v) ∨ b ∈ bins ∧ b.1 ≠ name := by
  unfold setBin
  split
  · next hmem =>
    rw [List.mem_map]
    constructor
    · rintro ⟨c, hc, rfl⟩
      split
      · exact .inl rfl
      · next hne => exact .inr ⟨hc, hne⟩
    · rintro (rfl | ⟨hb, hne⟩)
      · obtain ⟨c, hc, hname⟩ := List.any_eq_true.mp hmem
        exact ⟨c, hc, if_pos (of_decide_eq_true hname)⟩
      · exact ⟨b, hb, if_neg hne⟩
  · next hmem =>
    rw [List.mem_append, List.mem_singleton, or_comm]
    refine or_congr_right ⟨fun hb => ⟨hb, ?_⟩, And.left⟩
    rintro rfl
    exact hmem (List.any_eq_true.mpr ⟨b, hb, decide_eq_true rfl⟩)

theorem holdsBin_setBin (bins : List RecordBin) (name : Text) (v : AsVal) : HoldsBin (setBin bins name v) name v := by
  refine ⟨mem_setBin.mpr (.inl rfl), ?_⟩
  intro b hb hname
  rcases mem_setBin.mp hb with hb | ⟨-, hne⟩
  · exact hb
  · exact absurd hname hne

/-- Setting a bin leaves the others. -/
theorem HoldsBin.setBin {bins : List RecordBin} {name name' : Text} {v : AsVal} (h : HoldsBin bins name v) (hne : name ≠ name')
    (v' : AsVal) : HoldsBin (setBin bins name' v') name v := by
  refine ⟨mem_setBin.mpr (.inr ⟨h.1, hne⟩), ?_⟩
  intro b hb hname
  rcases mem_setBin.mp hb with rfl | ⟨hb, -⟩
  · exact absurd hname.symm hne
  · exact h.2 b hb hname

theorem length_setBin_le (bins : List RecordBin) (name : Text) (v : AsVal) : (setBin bins name v).length ≤ bins.length + 1 := by
  unfold setBin
  split <;> simp

/-- The bins after values have been set one after the other. -/
def storeAll (bins : List RecordBin) (values : List (Text × AsVal)) : List RecordBin :=
  values.foldl (fun bins p => setBin bins p.1 p.2) bins

theorem HoldsBin.storeAll {bins : List RecordBin} {name : Text} {v : AsVal} (h : HoldsBin bins name v)
    {values : List (Text × AsVal)} (hnew : name ∉ values.map Prod.fst) : HoldsBin (storeAll bins values) name v := by
  induction values generalizing bins with
  | nil => exact h
  | cons p values ih =>
    rw [List.map_cons, List.mem_cons, not_or] at hnew
    exact ih (h.setBin hnew.1 p.2) hnew.2

/-- With different names each bin holds its own value in the end. -/
theorem storeAll_holds {values : List (Text × AsVal)} (hnodup : (values.map Prod.fst).Nodup) (bins : List RecordBin) :
    ∀ p ∈ values, HoldsBin (storeAll bins values) p.1 p.2 := by
  induction values generalizing bins with
  | nil => simp
  | cons q values ih =>
    rw [List.map_cons, List.nodup_cons] at hnodup
    intro p hp
    rcases List.mem_cons.mp hp with rfl | hp
    · exact (holdsBin_setBin bins p.1 p.2).storeAll hnodup.1
    · exact ih hnodup.2 _ p hp

/-! ## Storing what is drawn -/

section

variable {L : RecordSetLib} (hL : L.LawfulSet) (R : AsRandom) (cLen : Nat → Nat) (binName : Text)
include hL

/-- In a record with room, bins are stored exactly when their values can be drawn, and with those values. -/
theorem populateEach_spec (ps : List (Nat × BinSpec)) (rec : L.Record) (hroom : (L.bins rec).length + ps.length ≤ L.capacity rec)
    (src : Source) :
    (∃ e, mapGen (fun p => binSpecRandomVal R cLen p.2) ps src = .error e ∧ populateEach L R cLen binName ps rec src = .error e) ∨
      ∃ vs rec' src', mapGen (fun p => binSpecRandomVal R cLen p.2) ps src = .ok (vs, src') ∧
        populateEach L R cLen binName ps rec src = .ok ((true, rec'), src') ∧
        L.bins rec' = storeAll (L.bins rec) ((ps.map fun p => genBinName binName p.1).zip vs) := by
  induction ps generalizing rec src with
  | nil => exact .inr ⟨[], rec, src, rfl, rfl, rfl⟩
  | cons p ps ih =>
    obtain ⟨idx, spec⟩ := p
    rw [List.length_cons] at hroom
    rw [mapGen, populateEach, populateBin]
    simp only [bind_assoc]
    cases hval : binSpecRandomVal R cLen spec src with
    | error e => exact .inl ⟨e, bind_eq_of_error hval, bind_eq_of_error hval⟩
    | ok r =>
      obtain ⟨v, t⟩ := r
      obtain ⟨rec₁, hset, hbins, hcap⟩ := hL.set_some rec (genBinName binName idx) v (length_genBinName_lt binName idx)
        (.inr (by omega))
      have hlen := length_setBin_le (L.bins rec) (genBinName binName idx) v
      rw [bind_eq_of_ok hval, bind_eq_of_ok hval, hset]
      simp only [pure_bind, if_true]
      rcases ih rec₁ (by rw [hbins, hcap]; omega) t with ⟨e, hmap, hpop⟩ | ⟨vs, rec', src', hmap, hpop, hstored⟩
      · exact .inl ⟨e, bind_eq_of_error hmap, hpop⟩
      · refine .inr ⟨v :: vs, rec', src', ?_, hpop, ?_⟩
        · rw [bind_eq_of_ok hmap]
          rfl
        · rw [hstored, hbins]
          rfl

end

/-! ## Agreement -/

/-- Started on one source, both programs stop for the same reason, or both return and leave the same words: the one a list with a
value for each name, the other a record that holds each of them under its name. -/
def PathsAgree (L : RecordSetLib) (names : List Text) (gen : Gen AsVal) (populate : Gen (Bool × L.Record)) : Prop :=
  ∀ src, (∃ e, gen src = .error e ∧ populate src = .error e) ∨
    ∃ vs rec src', gen src = .ok (.list vs, src') ∧ populate src = .ok ((true, rec), src') ∧ vs.length = names.length ∧
      ∀ (k : Nat) (name : Text) (v : AsVal), names[k]? = some name → vs[k]? = some v → HoldsBin (L.bins rec) name v

section

variable {L : RecordSetLib} (hL : L.LawfulSet) {R : AsRandom} {cLen : Nat → Nat} {binName : Text}
include hL

/-- A list of the values of bins and a record with these bins agree, the list cut to the bins that were selected. -/
theorem pathsAgree_of_bins {ps : List (Nat × BinSpec)} {sel : List Nat} {rec : L.Record}
    (hsel : sel = (ps.map Prod.fst).take sel.length) (hnodup : ((ps.map Prod.fst).map (genBinName binName)).Nodup)
    (hroom : (L.bins rec).length + ps.length ≤ L.capacity rec) :
    PathsAgree L (sel.map (genBinName binName))
      (mapGen (fun p => binSpecRandomVal R cLen p.2) ps >>= fun vs => pure (.list (vs.take sel.length)))
      (populateEach L R cLen binName ps rec) := by
  intro src
  rcases populateEach_spec hL R cLen binName ps _ hroom src with ⟨e, hmap, hpop⟩ | ⟨vs, rec', src', hmap, hpop, hstored⟩
  · exact .inl ⟨e, bind_eq_of_error hmap, hpop⟩
  · have hvs : vs.length = ps.length := length_mapGen hmap
    have hle : sel.length ≤ ps.length := by
      have hlen := congrArg List.length hsel
      rw [List.length_take, List.length_map] at hlen
      omega
    refine .inr ⟨vs.take sel.length, rec', src', ?_, hpop, ?_, ?_⟩
    · rw [bind_eq_of_ok hmap]
      rfl
    · rw [List.length_take, List.length_map]
      omega
    · intro k name v hname hv
      have hk : k < sel.length := by
        have hk := (List.getElem?_eq_some_iff.mp hname).1
        rwa [List.length_map] at hk
      -- the name and the value at `k` come from one bin
      have hmem : (name, v) ∈ (ps.map fun p => genBinName binName p.1).zip vs := by
        rw [List.getElem?_take_of_lt hk] at hv
        rw [hsel, List.getElem?_map, List.getElem?_take_of_lt hk, List.getElem?_map, Option.map_map, ← List.getElem?_map] at hname
        refine List.mem_of_getElem? (i := k) ?_
        rw [List.getElem?_zip_eq_some]
        exact ⟨hname, hv⟩
      rw [hstored]
      refine storeAll_holds ?_ (L.bins rec) (name, v) hmem
      rw [List.map_map] at hnodup
      rwa [List.map_fst_zip]
      rw [List.length_map, hvs]

end

section

variable {L : RecordSetLib} {R : AsRandom} {cLen : Nat → Nat} {binName : Text} {o : ObjSpec} {writeBins : BinList Nat}
  {steps : List WriteBinStep} (htrace : writeBinTrace o writeBins.entries writeBins.count = (steps, .exit))
include htrace

/-- A loop that leaves by its exit stores its bins. -/
theorem populateSelected_eq (rec : L.Record) :
    populateSelected L R cLen binName o writeBins rec =
      populateEach L R cLen binName ((bodies steps).map WriteBinVisit.bin) rec := by
  rw [populateSelected, htrace]
  simp only [LoopEnd.andThen, ite_self, bind_pure]

theorem objSpecGenSelectedValue_eq :
    objSpecGenSelectedValue R cLen o writeBins =
      (mapGen (fun p => binSpecRandomVal R cLen p.2) ((bodies steps).map WriteBinVisit.bin) >>=
        fun vs => pure (.list (vs.take writeBins.count))) := by
  have hspecs : (bodies steps).map WriteBinVisit.spec = ((bodies steps).map WriteBinVisit.bin).map Prod.snd := by
    rw [List.map_map]
    rfl
  rw [objSpecGenSelectedValue, htrace, hspecs, genEach_eq _ _ (Nat.zero_le _)]
  simp only [LoopEnd.andThen, bind_assoc, pure_bind, List.nil_append]

end

section

variable {o : ObjSpec} (ho : o.Valid) (R : AsRandom)
include ho

theorem map_fst_binSeq_range : (binSeq 0 o.binSpecs).map Prod.fst = List.range o.nBinSpecs := by
  rw [map_fst_binSeq, ← ho.1, List.range_eq_range']

/-- Without a selection, `obj_spec_populate_bins` stores all bins. -/
theorem objSpecPopulateBins_none {L : RecordSetLib} (cLen : Nat → Nat) (binName : Text) {rec : L.Record}
    (hroom : o.nBinSpecs ≤ L.capacity rec) :
    objSpecPopulateBins L R cLen binName o rec none = populateEach L R cLen binName (binSeq 0 o.binSpecs) rec := by
  obtain ⟨hcount, hsize, -⟩ := ho
  rw [objSpecPopulateBins, if_neg (by omega), populateAll_eq hsize o.binSpecs (by rw [Nat.zero_add, hcount])]

/-- Without a selection, `obj_spec_gen_value` makes a value for each bin; no value is cut off. -/
theorem objSpecGenBinsValue_none :
    objSpecGenBinsValue R o none =
      (mapGen (fun p => binSpecRandomVal R fullLength p.2) (binSeq 0 o.binSpecs) >>=
        fun vs => pure (.list (vs.take (List.range o.nBinSpecs).length))) := by
  obtain ⟨hcount, hsize, -⟩ := ho
  have hseq : (binSeq 0 o.binSpecs).length = o.nBinSpecs := by rw [length_binSeq, hcount]
  rw [objSpecGenBinsValue, objSpecGenValue, objSpecGenCompressibleValue, binSpecRandomVal, map_eq_pure_bind,
    genRandomList_eq hsize o.binSpecs (by rw [Nat.zero_add, hcount]), List.length_range, ← hseq]
  funext src
  cases hmap : mapGen (fun p => binSpecRandomVal R fullLength p.2) (binSeq 0 o.binSpecs) src with
  | error e => rw [bind_eq_of_error hmap, bind_eq_of_error hmap]
  | ok r =>
    obtain ⟨vs, src'⟩ := r
    rw [bind_eq_of_ok hmap, bind_eq_of_ok hmap, ← length_mapGen hmap, List.take_length]

end

/-- The names of different bins of a selection differ. -/
theorem nodup_names {binName : Text} {n : Nat} (hname : binNameTooLarge binName.length n = some false) (hn : n < 2 ^ 31)
    {idxs : List Nat} (hnodup : idxs.Nodup) (hlt : ∀ j ∈ idxs, j < n) : (idxs.map (genBinName binName)).Nodup :=
  hnodup.map_on fun i hi j hj h => genBinName_inj hname hn (hlt i hi) (hlt j hj) h

/-- The loop on a selection runs its body on the bins selected, or on the first bin when there are none. -/
theorem exists_trace {o : ObjSpec} (ho : o.Valid) (hn : 1 ≤ o.nBinSpecs) {sel extra : List Nat} (hsorted : sel.Pairwise (· < ·))
    (hlt : ∀ j ∈ sel, j < o.nBinSpecs) (hend : sel = [] → extra.head? = some 0) :
    ∃ steps sel', writeBinTrace o (sel ++ extra) sel.length = (steps, .exit) ∧ Visits o.Owns 0 sel' steps ∧ sel'.Pairwise (· < ·) ∧
      (∀ j ∈ sel', j < o.nBinSpecs) ∧ sel = sel'.take sel.length := by
  by_cases hne : sel = []
  · subst hne
    obtain ⟨extra', rfl⟩ := List.head?_eq_some_iff.mp (hend rfl)
    have hzero : ∀ j ∈ [0], j < o.nBinSpecs := by
      intro j hj
      rw [List.mem_singleton.mp hj]
      exact hn
    obtain ⟨steps, htrace, hvisits⟩ := writeBinTrace_spec ho (List.cons_ne_nil 0 []) (List.pairwise_singleton _ _) hzero extra'
    exact ⟨steps, [0], (writeBinTrace_zero o _).trans htrace, hvisits, List.pairwise_singleton _ _, hzero, rfl⟩
  · obtain ⟨steps, htrace, hvisits⟩ := writeBinTrace_spec ho hne hsorted hlt extra
    exact ⟨steps, sel, htrace, hvisits, hsorted, hlt, (List.take_length ..).symm⟩

/-- For every accepted object spec with a bin, every base name that is not too large for its bins and every record with as many free
bins: `obj_spec_populate_bins` with a selection of all bins is the same program as with none. For all bins, and for every selection
in strictly ascending order, it agrees with `obj_spec_gen_value` on every source of words. An array of write bins may go on behind
the selection; an empty one has the zero that `_parse_bins_selection` puts there. -/
theorem generation_paths_agree (L : RecordSetLib) (hL : L.LawfulSet) (R : AsRandom) (str : Text) (o : ObjSpec)
    (hspec : objSpecParse R str = .ok o) (hn : 1 ≤ o.nBinSpecs) (binName : Text)
    (hname : binNameTooLarge binName.length o.nBinSpecs = some false) (rec : L.Record)
    (hroom : (L.bins rec).length + o.nBinSpecs ≤ L.capacity rec) :
    (∀ cLen extra, objSpecPopulateBins L R cLen binName o rec (some ⟨List.range o.nBinSpecs ++ extra, o.nBinSpecs⟩) =
      objSpecPopulateBins L R cLen binName o rec none) ∧
    PathsAgree L ((List.range o.nBinSpecs).map (genBinName binName)) (objSpecGenBinsValue R o none)
      (objSpecPopulateBins L R fullLength binName o rec none) ∧
    ∀ sel extra : List Nat, sel.Pairwise (· < ·) → (∀ j ∈ sel, j < o.nBinSpecs) → (sel = [] → extra.head? = some 0) →
      PathsAgree L (sel.map (genBinName binName)) (objSpecGenBinsValue R o (some ⟨sel ++ extra, sel.length⟩))
        (objSpecPopulateBins L R fullLength binName o rec (some ⟨sel ++ extra, sel.length⟩)) := by
  have hvalid : o.Valid := (valid_of_accepted hspec).1
  have hcap := hL.capacity_lt rec
  have hsmall : o.nBinSpecs < 2 ^ 31 := by omega
  have hfst := map_fst_binSeq_range hvalid
  refine ⟨?_, ?_, ?_⟩
  · intro cLen extra
    have hne : List.range o.nBinSpecs ≠ [] := by
      rw [Ne, List.range_eq_nil]
      omega
    obtain ⟨steps, htrace, hvisits⟩ := writeBinTrace_spec hvalid hne List.pairwise_lt_range (fun j hj => List.mem_range.mp hj) extra
    rw [List.length_range] at htrace
    rw [objSpecPopulateBins_none hvalid R cLen binName (by omega), objSpecPopulateBins, if_neg (by simp only; omega),
      populateSelected_eq htrace, hvisits.map_bin_range hvalid]
  · rw [objSpecPopulateBins_none hvalid R fullLength binName (by omega), objSpecGenBinsValue_none hvalid]
    refine pathsAgree_of_bins hL ?_ ?_ ?_
    · rw [hfst, List.take_length]
    · rw [hfst]
      exact nodup_names hname hsmall List.nodup_range fun j hj => List.mem_range.mp hj
    · rwa [length_binSeq, ← hvalid.1]
  · intro sel extra hsorted hlt hend
    obtain ⟨steps, sel', htrace, hvisits, hsorted', hlt', htake⟩ := exists_trace hvalid hn hsorted hlt hend
    have hnodup' : sel'.Nodup := hsorted'.imp fun hij => Nat.ne_of_lt hij
    have hlen' : sel'.length ≤ o.nBinSpecs := by
      have hsub : sel'.Subperm (List.range o.nBinSpecs) :=
        List.subperm_of_subset hnodup' fun j hj => List.mem_range.mpr (hlt' j hj)
      simpa using hsub.length_le
    have hlen : sel.length ≤ sel'.length := by
      have hlen := congrArg List.length htake
      rw [List.length_take] at hlen
      omega
    obtain ⟨hidx, -⟩ := hvisits.map_bin
    rw [objSpecGenBinsValue, objSpecGenSelectedValue_eq htrace, objSpecPopulateBins, if_neg (by simp only; omega),
      populateSelected_eq htrace]
    refine pathsAgree_of_bins hL ?_ ?_ ?_
    · rw [hidx]
      exact htake
    · rw [hidx]
      exact nodup_names hname hsmall hnodup' hlt'
    · have hcountBins := congrArg List.length hidx
      rw [List.length_map] at hcountBins
      omega

/-- Records as lists of bins with a 16-bit capacity. -/
def boundedRecords : RecordSetLib where
  Record := Fin (2 ^ 16) × List RecordBin
  init n := (Fin.ofNat (2 ^ 16) n, [])
  setNil r name := (r.1, setNilBin r.2 name)
  destroy _ := (0, [])
  bins := Prod.snd
  capacity r := r.1
  set r name v := if (r.2.map Prod.fst).contains name || r.2.length < r.1 then some (r.1, setBin r.2 name v) else none

theorem boundedRecords_lawful : boundedRecords.LawfulSet where
  capacity_lt r := r.1.isLt
  set_some r name v _ h := by
    have hroom : ((r.2.map Prod.fst).contains name || decide (r.2.length < r.1)) = true := by
      simpa [boundedRecords] using h
    exact ⟨(r.1, setBin r.2 name v), if_pos hroom, rfl, rfl⟩

/-- Three integers and two booleans, on both sides of the border and with no bin selected. -/
theorem generation_paths_agree_border :
    PathsAgree boundedRecords ([0, 2, 3].map (genBinName ['b']))
      (objSpecGenBinsValue .littleEndian ⟨[.scalar 3 (.int 3), .scalar 2 .bool], 5⟩ (some ⟨[0, 2, 3], 3⟩))
      (objSpecPopulateBins boundedRecords .littleEndian fullLength ['b'] ⟨[.scalar 3 (.int 3), .scalar 2 .bool], 5⟩ (5, [])
        (some ⟨[0, 2, 3], 3⟩)) ∧
    PathsAgree boundedRecords []
      (objSpecGenBinsValue .littleEndian ⟨[.scalar 3 (.int 3), .scalar 2 .bool], 5⟩ (some ⟨[0], 0⟩))
      (objSpecPopulateBins boundedRecords .littleEndian fullLength ['b'] ⟨[.scalar 3 (.int 3), .scalar 2 .bool], 5⟩ (5, [])
        (some ⟨[0], 0⟩)) := by
  have h := generation_paths_agree boundedRecords boundedRecords_lawful .littleEndian ['3', '*', 'I', ',', '2', '*', 'b']
    ⟨[.scalar 3 (.int 3), .scalar 2 .bool], 5⟩ (by decide +kernel) (by decide) ['b'] (by decide +kernel) (5, []) (by decide)
  exact ⟨h.2.2 [0, 2, 3] [] (by decide) (by decide) nofun, h.2.2 [] [0] (by decide) nofun fun _ => rfl⟩

end AerospikeBenchmark
