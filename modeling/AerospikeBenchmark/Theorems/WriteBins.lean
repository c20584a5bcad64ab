import AerospikeBenchmark.Lemmas.WriteBins

/-!
# Write-bin selections address the right bins

A selection that `_parse_bins_selection` returns is in ascending order and within the bins of the spec, so that the loop over write
bins runs its body once for each of its bins on the spec that owns it. The names of the string mode are those of the same bins.
-/

namespace AerospikeBenchmark

open CText Results

/-- In every mode the vector is filled with the elements of the bins that are selected. -/
theorem fillBins_eq {α : Type} (elem : Nat → α) (nBins fuel : Nat) (bins : List α) (prev : Nat) (str : Text) :
    fillBins elem nBins fuel bins prev str =
      (parseBinsLoop nBins fuel bins.length prev str).map fun sel => bins ++ sel.map fun i => elem (i + 1) := by
  induction fuel generalizing bins prev str with
  | zero => rfl
  | succ fuel ih =>
    unfold fillBins parseBinsLoop
    split
    · simp [Except.map]
    cases strtoul 10 str with
    | none => rfl
    | some r =>
      dsimp only
      split_ifs with h1 h2 h3 h4
      · rfl
      · rfl
      · rfl
      · rfl
      · have hvalue : r.value - 1 + 1 = r.value := by omega
        rw [ih, List.length_append, List.length_singleton]
        cases parseBinsLoop nBins fuel (bins.length + 1) r.value r.rest.tail with
        | error e => rfl
        | ok sel => simp [Except.map, hvalue]

/-- Both modes return the elements of the selected bins with a zero behind them. -/
theorem parseBinList_eq {α : Type} (elem : Nat → α) (zero : α) (nBins : Nat) (str : Text) :
    parseBinList elem zero nBins str = (parseBinsSelection nBins str).map fun sel =>
      ⟨(sel.map fun i => elem (i + 1)) ++ [zero], sel.length⟩ := by
  rw [parseBinList, fillBins_eq, parseBinsSelection, List.length_nil]
  cases parseBinsLoop nBins (str.length + 1) 0 0 str with
  | error e => rfl
  | ok sel => simp [Except.map]

theorem parseBinList_ok_iff {α : Type} {elem : Nat → α} {zero : α} {nBins : Nat} {text : Text} :
    (∃ l, parseBinList elem zero nBins text = .ok l) ↔ ∃ sel, parseBinsSelection nBins text = .ok sel := by
  rw [parseBinList_eq]
  cases parseBinsSelection nBins text with
  | error e => simp [Except.map]
  | ok sel => simp [Except.map]

theorem parseBinsInt_ok {nBins : Nat} (hn : nBins < 2 ^ 32) {str : Text} {l : BinList Nat} (h : parseBinsInt nBins str = .ok l) :
    ∃ sel, parseBinsSelection nBins str = .ok sel ∧ l = ⟨sel ++ [0], sel.length⟩ := by
  rw [parseBinsInt, parseBinList_eq] at h
  obtain ⟨sel, hsel, rfl⟩ := map_eq_ok.mp h
  have hlt := (parseBinsLoop_sorted hsel).2
  refine ⟨sel, hsel, ?_⟩
  have hsame : (sel.map fun i => (i + 1 - 1) % 2 ^ 32) = sel := by
    refine (List.map_congr_left ?_).trans (List.map_id sel)
    intro i hi
    rw [Nat.add_sub_cancel, Nat.mod_eq_of_lt (Nat.lt_trans (hlt i hi).2 hn), id]
  rw [hsame]

theorem getElem?_positions (iter : Nat) (sel : List Nat) (k : Nat) :
    (positions iter sel)[k]? = sel[k]?.map fun idx => (iter + k, idx) := by
  induction sel generalizing iter k with
  | nil => rfl
  | cons idx sel ih =>
    cases k with
    | zero => rfl
    | succ k =>
      simp only [positions, List.getElem?_cons_succ, ih]
      congr 1
      funext idx
      rw [Nat.add_assoc, Nat.add_comm 1]

/-- For every accepted object spec and every non-empty selection of its bins that `_parse_bins_selection` returns in integer mode,
the loop over write bins leaves by its exit, without a test that wraps, after one run of its body for each selected bin: run `k` has
the bin at position `k` of the selection and the one spec that owns it. In string mode the names of these bins are returned in the
same order, with a null pointer behind them that is not counted. -/
theorem write_bins_addressed (R : AsRandom) (str : Text) (o : ObjSpec) (hspec : objSpecParse R str = .ok o) (text binName : Text)
    (writeBins : BinList Nat) (hsel : parseBinsInt o.nBinSpecs text = .ok writeBins) (hne : writeBins.count ≠ 0) :
    (∃ steps, writeBinTrace o writeBins.entries writeBins.count = (steps, .exit) ∧ (bodies steps).length = writeBins.count ∧
      (∀ k < writeBins.count, ∃ v, (bodies steps)[k]? = some v ∧ v.iter = k ∧ writeBins.entries[k]? = some v.idx ∧
        o.Owns v.idx v.specIdx v.spec ∧ ∀ i spec, o.Owns v.idx i spec → i = v.specIdx) ∧
      ∀ tot nRepeats idx, .test tot nRepeats idx ∈ steps → tot + nRepeats < 2 ^ 32) ∧
    parseBinsStr binName o.nBinSpecs text =
      .ok ⟨((writeBins.entries.take writeBins.count).map fun i => some (genBinName binName i)) ++ [none], writeBins.count⟩ := by
  have hvalid : o.Valid := (valid_of_accepted hspec).1
  obtain ⟨sel, hparsed, rfl⟩ := parseBinsInt_ok hvalid.2.1 hsel
  obtain ⟨hsorted, hlt⟩ := parseBinsLoop_sorted hparsed
  refine ⟨?_, ?_⟩
  · have hsel : sel ≠ [] := by
      rintro rfl
      exact hne rfl
    obtain ⟨steps, htrace, hvisits⟩ := writeBinTrace_spec hvalid hsel hsorted (fun j hj => (hlt j hj).2) [0]
    have hpos (k : Nat) : ((bodies steps)[k]?).map WriteBinVisit.position = sel[k]?.map fun idx => (k, idx) := by
      rw [← List.getElem?_map, hvisits.positions, getElem?_positions]
      simp
    have hlen : (bodies steps).length = sel.length := by
      have hlen := congrArg List.length (map_snd_positions 0 sel)
      rwa [← hvisits.positions, List.length_map, List.length_map] at hlen
    refine ⟨steps, htrace, hlen, ?_, hvisits.tests⟩
    intro k hk
    obtain ⟨v, hv⟩ : ∃ v, (bodies steps)[k]? = some v := by
      rw [List.getElem?_eq_getElem (hlen ▸ hk)]
      exact ⟨_, rfl⟩
    have hvpos := hpos k
    rw [hv, List.getElem?_eq_getElem hk] at hvpos
    simp only [Option.map_some, Option.some.injEq, WriteBinVisit.position, Prod.mk.injEq] at hvpos
    have howned := hvisits.owned v (List.mem_of_getElem? hv)
    refine ⟨v, hv, hvpos.1, ?_, howned, fun i spec hi => hi.unique howned⟩
    rw [List.getElem?_append_left hk, List.getElem?_eq_getElem hk, hvpos.2]
  · rw [parseBinsStr, parseBinList_eq, hparsed, List.take_left]
    have hnames : (sel.map fun i => some (genBinName binName ((i + 1 - 1) % 2 ^ 32))) =
        sel.map fun i => some (genBinName binName i) := by
      refine List.map_congr_left ?_
      intro i hi
      rw [Nat.add_sub_cancel, Nat.mod_eq_of_lt (Nat.lt_trans (hlt i hi).2 hvalid.2.1)]
    simp only [Except.map, hnames]

/-- Three integers and two booleans. -/
def fiveBins : ObjSpec := ⟨[.scalar 3 (.int 3), .scalar 2 .bool], 5⟩

/-- The selection 1,3,4 with bins on both sides of the border between the two specs. -/
theorem write_bins_addressed_border :
    (∃ steps, writeBinTrace fiveBins [0, 2, 3, 0] 3 = (steps, .exit) ∧ (bodies steps).length = 3 ∧
      (∀ k < 3, ∃ v, (bodies steps)[k]? = some v ∧ v.iter = k ∧ [0, 2, 3, 0][k]? = some v.idx ∧
        fiveBins.Owns v.idx v.specIdx v.spec ∧ ∀ i spec, fiveBins.Owns v.idx i spec → i = v.specIdx) ∧
      ∀ tot nRepeats idx, .test tot nRepeats idx ∈ steps → tot + nRepeats < 2 ^ 32) ∧
    parseBinsStr ['b'] 5 ['1', ',', '3', ',', '4'] = .ok ⟨[some ['b'], some ['b', '_', '3'], some ['b', '_', '4'], none], 3⟩ := by
  obtain ⟨hloop, hnames⟩ := write_bins_addressed .littleEndian ['3', '*', 'I', ',', '2', '*', 'b'] fiveBins (by decide +kernel)
    ['1', ',', '3', ',', '4'] ['b'] ⟨[0, 2, 3, 0], 3⟩ (by decide +kernel) (by decide)
  refine ⟨hloop, hnames.trans ?_⟩
  decide +kernel

end AerospikeBenchmark
