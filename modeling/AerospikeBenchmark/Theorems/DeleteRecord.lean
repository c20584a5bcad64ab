import AerospikeBenchmark.Lemmas.WriteBins
import AerospikeBenchmark.Transaction.DeleteRecord

/-!
# The record of nil bins stays intact

`init_stage` leaves a record in which every bin to delete is nil, and every delete of the stage sends those bins, as long as nobody
destroys the record. `random_delete_async` does, when the stage is random and a delete is of a single record.
-/

namespace AerospikeBenchmark

open CText

/-! ## Selections -/

/-- The inner loop runs its body on the bins that `visitSpec` gives, and leaves off where it does. -/
theorem visitSpec_of_innerLoop {n tot specIdx : Nat} {spec : BinSpec} {iter idx : Nat} {rest : List Nat} {steps : List WriteBinStep}
    {last : InnerEnd} (hn : n = iter + 1 + rest.length) (h : innerLoop n tot specIdx spec iter idx rest = (steps, last)) :
    (last = .stop .exit ∧ visitSpec tot spec.nRepeats idx rest = ((bodies steps).map WriteBinVisit.idx, none)) ∨
      ∃ iter' idx' rest', last = .next iter' idx' rest' ∧ n = iter' + 1 + rest'.length ∧
        visitSpec tot spec.nRepeats idx rest = ((bodies steps).map WriteBinVisit.idx, some (idx', rest')) := by
  induction rest generalizing iter idx steps last with
  | nil =>
    rw [innerLoop] at h
    rw [visitSpec]
    split at h
    · next hle =>
      cases h
      exact .inr ⟨iter, idx, [], rfl, hn, if_pos hle⟩
    · next hlt =>
      rw [if_pos (by rw [hn]; exact le_rfl)] at h
      cases h
      exact .inl ⟨rfl, if_neg hlt⟩
  | cons idx₂ rest ih =>
    rw [List.length_cons] at hn
    rw [innerLoop, if_neg (by omega : ¬ n ≤ iter + 1)] at h
    rw [visitSpec]
    split at h
    · next hle =>
      cases h
      exact .inr ⟨iter, idx, idx₂ :: rest, rfl, hn, if_pos hle⟩
    · next hlt =>
      cases h
      have hn₂ : n = iter + 1 + 1 + rest.length := by omega
      rw [if_neg hlt]
      rcases ih hn₂ (Prod.eta (innerLoop n tot specIdx spec (iter + 1) idx₂ rest)).symm with ⟨hlast, heq⟩ | ⟨iter', idx', rest', hlast, hn', heq⟩
      · exact .inl ⟨hlast, by simp only [heq, bodies, List.map_cons]⟩
      · exact .inr ⟨iter', idx', rest', hlast, hn', by simp only [heq, bodies, List.map_cons]⟩

theorem visitSpecs_of_outerLoop {nBinSpecs n : Nat} {es : List BinSpec} {specIdx tot iter idx : Nat} {rest : List Nat}
    {steps : List WriteBinStep} (hn : n = iter + 1 + rest.length)
    (h : outerLoop nBinSpecs n es specIdx tot iter idx rest = (steps, .exit)) :
    visitSpecs nBinSpecs es tot idx rest = some ((bodies steps).map WriteBinVisit.idx) := by
  induction es generalizing specIdx tot iter idx rest steps with
  | nil =>
    rw [outerLoop] at h
    split at h <;> cases h
  | cons spec es ih =>
    rw [outerLoop] at h
    rw [visitSpecs]
    split at h
    · next hmore =>
      rw [if_pos hmore]
      cases hinner : innerLoop n tot specIdx spec iter idx rest with
      | mk steps₁ last =>
        rw [hinner] at h
        rcases visitSpec_of_innerLoop hn hinner with ⟨rfl, heq⟩ | ⟨iter', idx', rest', rfl, hn', heq⟩
        · cases h
          rw [heq]
        · obtain ⟨hsteps, hexit⟩ := Prod.mk.inj h
          rw [heq, ← hsteps, bodies_append, List.map_append]
          simp only [ih hn' (Prod.ext rfl hexit), Option.map_some]
    · cases h

/-- Every bin of a selection in ascending order is visited. -/
theorem forEachWriteBin_eq {o : ObjSpec} (ho : o.Valid) {idx : Nat} {rest : List Nat} (hsorted : (idx :: rest).Pairwise (· < ·))
    (hlt : ∀ i ∈ idx :: rest, i < o.nBinSpecs) : forEachWriteBin o (idx :: rest) = some (idx :: rest) := by
  obtain ⟨steps, htrace, hvisits⟩ := writeBinTrace_spec ho (List.cons_ne_nil idx rest) hsorted hlt []
  rw [List.append_nil, List.length_cons] at htrace
  have hbins : (bodies steps).map WriteBinVisit.idx = idx :: rest := by
    have hidx : WriteBinVisit.idx = Prod.snd ∘ WriteBinVisit.position := rfl
    rw [hidx, ← List.map_map, hvisits.positions, map_snd_positions]
  have hlen : rest.length + 1 = 0 + 1 + rest.length := by omega
  exact (visitSpecs_of_outerLoop hlen htrace).trans (congrArg some hbins)

/-! ## Filling the record -/

theorem names_setNilBin (bins : List RecordBin) (name : Text) :
    (setNilBin bins name).map Prod.fst =
      if name ∈ bins.map Prod.fst then bins.map Prod.fst else bins.map Prod.fst ++ [name] := by
  unfold setNilBin
  split
  · rw [List.map_map]
    refine List.map_congr_left ?_
    intro b _
    simp only [Function.comp_apply]
    split
    · next h => exact h.symm
    · rfl
  · rw [List.map_append]
    rfl

theorem nil_setNilBin {bins : List RecordBin} (h : ∀ b ∈ bins, b.2 = none) (name : Text) : ∀ b ∈ setNilBin bins name, b.2 = none := by
  intro b hb
  unfold setNilBin at hb
  split at hb
  · obtain ⟨a, ha, rfl⟩ := List.mem_map.mp hb
    split
    · rfl
    · exact h a ha
  · rcases List.mem_append.mp hb with hb | hb
    · exact h b hb
    · obtain rfl := List.mem_singleton.mp hb
      rfl

/-- A record in which the bins with the given names are nil, and which has at most one bin for each of them. -/
structure HasNil (L : RecordLib) (names : List Text) (r : L.Record) : Prop where
  isNil : ∀ b ∈ L.bins r, b.2 = none
  covers : ∀ name ∈ names, name ∈ (L.bins r).map Prod.fst
  length : (L.bins r).length ≤ names.length

variable {L : RecordLib}

/-- Setting a bin to nil, in a record with room for it. -/
theorem HasNil.setNil (hL : L.Lawful) {names : List Text} {r : L.Record} (h : HasNil L names r) (name : Text)
    (hroom : names.length < L.capacity r) : HasNil L (names ++ [name]) (L.setNil r name) := by
  have hbins := hL.bins_setNil r name (.inr (lt_of_le_of_lt h.length hroom))
  have hnames := names_setNilBin (L.bins r) name
  refine ⟨?_, ?_, ?_⟩
  · rw [hbins]
    exact nil_setNilBin h.isNil name
  · rw [hbins, hnames]
    intro nm hnm
    rcases List.mem_append.mp hnm with hnm | hnm
    · split
      · exact h.covers nm hnm
      · exact List.mem_append_left _ (h.covers nm hnm)
    · obtain rfl := List.mem_singleton.mp hnm
      split
      · assumption
      · exact List.mem_append_right _ (List.mem_singleton_self _)
  · have hlen := congrArg List.length hnames
    rw [List.length_map] at hlen
    rw [hbins, hlen, List.length_append]
    have := h.length
    split <;> simp <;> omega

/-- Filling goes on as long as there is room. -/
theorem HasNil.fill (hL : L.Lawful) (binName : Text) (idxs : List Nat) {names : List Text} {r : L.Record} (h : HasNil L names r)
    (hroom : names.length + idxs.length ≤ L.capacity r) :
    HasNil L (names ++ idxs.map (genBinName binName)) (idxs.foldl (fun r i => L.setNil r (genBinName binName i)) r) := by
  induction idxs generalizing names r with
  | nil => simpa using h
  | cons i idxs ih =>
    rw [List.length_cons] at hroom
    have hstep := h.setNil hL (genBinName binName i) (by omega)
    have hrest := ih hstep (by rw [hL.capacity_setNil, List.length_append, List.length_singleton]; omega)
    rw [List.append_assoc] at hrest
    exact hrest

theorem hasNil_nilRecord (hL : L.Lawful) (binName : Text) {n : Nat} (hn : n < 2 ^ 16) {idxs : List Nat} (hlen : idxs.length ≤ n) :
    HasNil L (idxs.map (genBinName binName)) (nilRecord L binName n idxs) := by
  have hinit : HasNil L [] (L.init n) := by
    refine ⟨?_, nofun, ?_⟩ <;> simp [hL.bins_init]
  have hfill := hinit.fill hL binName idxs (by rw [hL.capacity_init n hn]; simpa using hlen)
  rwa [List.nil_append, ← Nat.mod_eq_of_lt hn] at hfill

/-- The bins set every bin of a list of names to nil. -/
def SetsNil (names : List Text) (bins : List RecordBin) : Prop :=
  ∀ name ∈ names, (name, none) ∈ bins ∧ ∀ v, (name, v) ∈ bins → v = none

theorem HasNil.setsNil {names : List Text} {r : L.Record} (h : HasNil L names r) : SetsNil names (L.bins r) := by
  intro name hname
  refine ⟨?_, fun v hv => h.isNil (name, v) hv⟩
  obtain ⟨⟨name', v⟩, hb, rfl⟩ := List.mem_map.mp (h.covers name hname)
  obtain rfl : v = none := h.isNil _ hb
  exact hb

/-- The bins that the deletes of a stage are to remove: those selected for a bin-delete stage, or else all. -/
def Stage.deleteBins (s : Stage) : List Nat :=
  if s.workload.type = .d then s.writeBins.getD (List.range s.objSpec.nBinSpecs) else List.range s.objSpec.nBinSpecs

/-- `init_stage` leaves a record in which every bin to delete is nil. -/
theorem initDeleteRecord_setsNil (hL : L.Lawful) {s : Stage} (hwf : s.WellFormed) (hdel : s.workload.containsDeletes = true)
    (hfit : s.deleteBins.length < 2 ^ 16) (hne : s.writeBins = some [] → 0 < s.objSpec.nBinSpecs) (binName : Text)
    (old : L.Record) :
    ∃ r, initDeleteRecord L binName s old = some r ∧ SetsNil (s.deleteBins.map (genBinName binName)) (L.bins r) := by
  have hall (h : s.deleteBins = List.range s.objSpec.nBinSpecs) :
      SetsNil (s.deleteBins.map (genBinName binName))
        (L.bins (nilRecord L binName s.objSpec.nBinSpecs (List.range s.objSpec.nBinSpecs))) := by
    rw [h, List.length_range] at hfit
    rw [h]
    exact (hasNil_nilRecord hL binName hfit (by simp)).setsNil
  by_cases ht : s.workload.type = .d
  · rcases hwf.deleteAll ht with ⟨hbins, hpct⟩ | ⟨sel, hbins, hpct⟩
    · refine ⟨_, ?_, hall (by simp [Stage.deleteBins, ht, hbins])⟩
      simp [initDeleteRecord, hdel, hpct, FpNum.eq]
    · have hinit : initDeleteRecord L binName s old =
          (forEachWriteBin s.objSpec sel).map (nilRecord L binName sel.length) := by
        simp [initDeleteRecord, hdel, ht, hbins, hpct, FpNum.eq]
      have hsel : s.deleteBins = sel := by simp [Stage.deleteBins, ht, hbins]
      rw [hinit, hsel]
      cases sel with
      | nil =>
        -- the loop visits the first bin, but there is nothing to delete
        have hfirst : forEachWriteBin s.objSpec [] = some [0] :=
          forEachWriteBin_eq hwf.spec (List.pairwise_singleton _ 0) (by simpa using hne hbins)
        refine ⟨_, by rw [hfirst, Option.map_some], ?_⟩
        intro name hname
        exact absurd hname List.not_mem_nil
      | cons idx rest =>
        obtain ⟨hsorted, hlt⟩ := hwf.writeBins _ hbins
        rw [hsel] at hfit
        exact ⟨_, by rw [forEachWriteBin_eq hwf.spec hsorted hlt, Option.map_some], (hasNil_nilRecord hL binName hfit le_rfl).setsNil⟩
  · refine ⟨_, ?_, hall (by simp [Stage.deleteBins, ht])⟩
    simp [initDeleteRecord, hdel, ht]

/-! ## The deletes of a stage -/

/-- The stages whose deletes destroy the record: single asynchronous deletes of a random workload with random objects. -/
def Stage.DestroysRecord (s : Stage) : Prop :=
  s.workload.type = .rud ∧ s.async = true ∧ s.random = true ∧ s.batchDeleteSize ≤ 1

/-- The record is still the one `init_stage` left, and every delete so far has sent its bins. -/
structure RecordIntact (r : L.Record) (w : DeleteWorker L) : Prop where
  record : w.record = r
  sent : ∀ q ∈ w.sent, ∀ bins ∈ q.payloads, bins = L.bins r

theorem RecordIntact.putRecord {r : L.Record} {w : DeleteWorker L} (h : RecordIntact r w) : RecordIntact r w.putRecord := by
  refine ⟨h.record, ?_⟩
  intro q hq bins hbins
  rcases List.mem_append.mp hq with hq | hq
  · exact h.sent q hq bins hbins
  · obtain rfl := List.mem_singleton.mp hq
    rw [List.mem_singleton.mp hbins, h.record]

theorem RecordIntact.putBatch {r : L.Record} {w : DeleteWorker L} (h : RecordIntact r w) (s : Stage) :
    RecordIntact r (w.putBatch s) := by
  refine ⟨h.record, ?_⟩
  intro q hq bins hbins
  rcases List.mem_append.mp hq with hq | hq
  · exact h.sent q hq bins hbins
  · obtain rfl := List.mem_singleton.mp hq
    rw [List.eq_of_mem_replicate hbins, h.record]

/-- A delete that keeps the record when the stage is not random. -/
theorem RecordIntact.putOrBatch {r : L.Record} {w : DeleteWorker L} (h : RecordIntact r w) {s : Stage}
    (hs : s.batchDeleteSize ≤ 1 → s.random = false) :
    RecordIntact r (if s.batchDeleteSize ≤ 1 then w.putRecord.destroyRecord s else w.putBatch s) := by
  split
  · next hb =>
    rw [DeleteWorker.destroyRecord, hs hb]
    exact h.putRecord
  · exact h.putBatch s

/-- A round keeps the record intact. -/
theorem RecordIntact.round {r : L.Record} {w : DeleteWorker L} (h : RecordIntact r w) {s : Stage} (hwf : s.WellFormed)
    (hkeeps : ¬ s.DestroysRecord) (cast : FpNum → Nat) (word : Nat) : RecordIntact r (deleteRound cast s w word) := by
  unfold deleteRound
  split
  · next hk =>
    split
    · next ht => exact h.putOrBatch (fun _ => hwf.fixedDelete ht)
    · next ht =>
      have hrud : s.workload.type = .rud := by
        have hc := s.workload.chosen_choose cast (randomFp word)
        rw [hk] at hc
        exact hc.resolve_left ht
      split
      · next hasync =>
        refine h.putOrBatch ?_
        intro hb
        by_contra hr
        exact hkeeps ⟨hrud, hasync, Bool.of_not_eq_false hr, hb⟩
      · unfold randomDeleteSend
        split
        · exact h.putRecord
        · exact h.putBatch s
  all_goals exact h

theorem RecordIntact.run {r : L.Record} {w : DeleteWorker L} (h : RecordIntact r w) {s : Stage} (hwf : s.WellFormed)
    (hkeeps : ¬ s.DestroysRecord) (cast : FpNum → Nat) (words : List Nat) :
    RecordIntact r (words.foldl (deleteRound cast s) w) := by
  induction words generalizing w with
  | nil => exact h
  | cons word words ih => exact ih (h.round hwf hkeeps cast word)

/-- In every accepted stage with deletes, of which at most 65535 bins are to be removed and whose deletes do not destroy the record,
`init_stage` leaves a record that stays the same for whatever rounds a worker performs, and every delete sends, for each of its
keys, bins that set all those bins to nil. -/
theorem delete_record_intact (L : RecordLib) (hL : L.Lawful) (R : AsRandom) (cast : FpNum → Nat) (args : StageArgs)
    (mem : Nat → Stage) (defs : List StageDef) (stages : List Stage) (hargs : ∃ str, objSpecParse R str = .ok args.objSpec)
    (haccept : stagesSetDefaultsAndParse R args mem defs = .ok stages) (s : Stage) (hs : s ∈ stages)
    (hdel : s.workload.containsDeletes = true) (hkeeps : ¬ s.DestroysRecord) (hfit : s.deleteBins.length < 2 ^ 16)
    (hne : s.writeBins = some [] → 0 < s.objSpec.nBinSpecs) (binName : Text) (old : L.Record) :
    ∃ r, initDeleteRecord L binName s old = some r ∧ ∀ words : List Nat,
      (words.foldl (deleteRound cast s) ⟨r, []⟩).record = r ∧
        ∀ q ∈ (words.foldl (deleteRound cast s) ⟨r, []⟩).sent, ∀ bins ∈ q.payloads,
          SetsNil (s.deleteBins.map (genBinName binName)) bins := by
  obtain ⟨str, hstr⟩ := hargs
  have hwf := parseStages_wellFormed (valid_of_accepted hstr).1 haccept s hs
  obtain ⟨r, hinit, hnil⟩ := initDeleteRecord_setsNil hL hwf hdel hfit hne binName old
  refine ⟨r, hinit, ?_⟩
  intro words
  have hrun := RecordIntact.run (w := ⟨r, []⟩) ⟨rfl, nofun⟩ hwf hkeeps cast words
  refine ⟨hrun.record, ?_⟩
  intro q hq bins hbins
  rw [hrun.sent q hq bins hbins]
  exact hnil

/-- Records as lists of bins with a capacity. -/
def plainRecords : RecordLib where
  Record := Nat × List RecordBin
  init n := (n, [])
  setNil r name := (r.1, if (r.2.map Prod.fst).contains name || r.2.length < r.1 then setNilBin r.2 name else r.2)
  destroy _ := (0, [])
  bins := Prod.snd
  capacity := Prod.fst

theorem plainRecords_lawful : plainRecords.Lawful where
  bins_init _ := rfl
  capacity_init _ _ := rfl
  bins_setNil r name h := by
    have hroom : ((r.2.map Prod.fst).contains name || decide (r.2.length < r.1)) = true := by
      simpa [plainRecords] using h
    exact if_pos hroom
  capacity_setNil _ _ := rfl

/-- A bin-delete stage on the first and the third of three bins. -/
def binDeleteStage : Stage :=
  { Stage.ofWorkload ⟨.d, .nan, .nan, .nan, .num 0⟩ 1 1000001 with
    objSpec := ⟨[.scalar 3 (.int 3)], 3⟩
    writeBins := some [0, 2] }

theorem delete_record_intact_two_bins : ∃ r, initDeleteRecord plainRecords ['b'] binDeleteStage (0, []) = some r ∧
    ∀ words : List Nat, (words.foldl (deleteRound (fun _ => 0) binDeleteStage) ⟨r, []⟩).record = r ∧
      ∀ q ∈ (words.foldl (deleteRound (fun _ => 0) binDeleteStage) ⟨r, []⟩).sent, ∀ bins ∈ q.payloads,
        SetsNil ([0, 2].map (genBinName ['b'])) bins :=
  delete_record_intact plainRecords plainRecords_lawful .littleEndian (fun _ => 0) .defaults (fun _ => binDeleteStage)
    [{ StageDef.ofWorkload ['D', 'B'] with objSpecStr := some ['3', '*', 'I'], writeBinsStr := some ['1', ',', '3'] }]
    [binDeleteStage] ⟨['I'], by decide +kernel⟩ (by decide +kernel) binDeleteStage (List.mem_singleton_self _) rfl
    (by simp [Stage.DestroysRecord, binDeleteStage, Stage.ofWorkload]) (by decide) (by decide) ['b'] (0, [])

/-- A random stage with asynchronous deletes of single records. -/
def randomDeleteStage : Stage :=
  { Stage.ofWorkload ⟨.rud, .num 40, .num 40, .num 100, .num 100⟩ 1 1000001 with async := true, random := true }

/-- The stage is accepted, and its second delete sends a record without bins. -/
theorem second_delete_sends_nothing :
    plainRecords.Lawful ∧
    stagesSetDefaultsAndParse .littleEndian .defaults (fun _ => randomDeleteStage)
      [{ StageDef.ofWorkload ['R', 'U', 'D'] with async := true, random := true }] = .ok [randomDeleteStage] ∧
    (initDeleteRecord plainRecords ['b'] randomDeleteStage (0, [])).map
        (fun r => ([2 ^ 24 - 1, 2 ^ 24 - 1].foldl (deleteRound (fun _ => 0) randomDeleteStage) ⟨r, []⟩).sent) =
      some [.put [(['b'], none)], .put []] :=
  ⟨plainRecords_lawful, by decide +kernel⟩

end AerospikeBenchmark
