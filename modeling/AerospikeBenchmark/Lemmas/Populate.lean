import AerospikeBenchmark.Lemmas.WriteBins
import AerospikeBenchmark.Transaction.Populate

/-!
# The traversals of the bins of a spec

The double loop of `obj_spec_populate_bins`, the list generator and the loop over write bins all go through the sequence of bins of
a spec, `binSeq`: each bin with the spec that owns it, in ascending order.
-/

namespace AerospikeBenchmark

open CText Words

/-- The bins of specs, the first one with the given index. -/
def binSeq : Nat → List BinSpec → List (Nat × BinSpec)
  | _, [] => []
  | cnt, e :: es => (List.range' cnt e.nRepeats).map (fun idx => (idx, e)) ++ binSeq (cnt + e.nRepeats) es

@[simp] theorem length_binSeq (cnt : Nat) (es : List BinSpec) : (binSeq cnt es).length = totalRepeats es := by
  induction es generalizing cnt with
  | nil => rfl
  | cons e es ih => simp [binSeq, ih]

theorem map_fst_binSeq (cnt : Nat) (es : List BinSpec) : (binSeq cnt es).map Prod.fst = List.range' cnt (totalRepeats es) := by
  induction es generalizing cnt with
  | nil => rfl
  | cons e es ih =>
    have hfst : Prod.fst ∘ (fun idx => (idx, e)) = (id : Nat → Nat) := rfl
    rw [binSeq, List.map_append, List.map_map, hfst, List.map_id, ih, totalRepeats_cons, List.range'_append_1]

theorem getElem?_binSeq {es : List BinSpec} {i : Nat} {e : BinSpec} (bin : Nat) (he : es[i]? = some e)
    (hlow : totalRepeats (es.take i) ≤ bin) (hhigh : bin < totalRepeats (es.take i) + e.nRepeats) (cnt : Nat) :
    (binSeq cnt es)[bin]? = some (cnt + bin, e) := by
  induction es generalizing i bin cnt with
  | nil => simp at he
  | cons e₁ es ih =>
    have hblock : ((List.range' cnt e₁.nRepeats).map fun idx => (idx, e₁)).length = e₁.nRepeats := by simp
    cases i with
    | zero =>
      obtain rfl : e₁ = e := by simpa using he
      simp only [List.take_zero, totalRepeats_nil, Nat.zero_add] at hhigh
      rw [binSeq, List.getElem?_append_left (by omega), List.getElem?_map, List.getElem?_range' hhigh]
      simp
    | succ i =>
      simp only [List.take_succ_cons, totalRepeats_cons] at hlow hhigh
      have hrest := ih (bin - e₁.nRepeats) (by simpa using he) (by omega) (by omega) (cnt + e₁.nRepeats)
      rw [binSeq, List.getElem?_append_right (by omega), hblock, hrest]
      simp only [Option.some.injEq, Prod.mk.injEq, and_true]
      omega

/-- A spec stands at the bins it owns. -/
theorem ObjSpec.Owns.getElem?_binSeq {o : ObjSpec} {bin i : Nat} {e : BinSpec} (h : o.Owns bin i e) :
    (binSeq 0 o.binSpecs)[bin]? = some (bin, e) := by
  simpa using AerospikeBenchmark.getElem?_binSeq bin h.1 h.2.1 h.2.2 0

/-! ## The loop over write bins -/

/-- The bodies for a selection run on its bins. -/
theorem Visits.map_bin {o : ObjSpec} {iter : Nat} {sel : List Nat} {steps : List WriteBinStep} (h : Visits o.Owns iter sel steps) :
    ((bodies steps).map WriteBinVisit.bin).map Prod.fst = sel ∧
      ∀ p ∈ (bodies steps).map WriteBinVisit.bin, (binSeq 0 o.binSpecs)[p.1]? = some p := by
  constructor
  · have hidx : Prod.fst ∘ WriteBinVisit.bin = Prod.snd ∘ WriteBinVisit.position := rfl
    rw [List.map_map, hidx, ← List.map_map, h.positions, map_snd_positions]
  · intro p hp
    obtain ⟨v, hv, rfl⟩ := List.mem_map.mp hp
    exact (h.owned v hv).getElem?_binSeq

/-- A selection of all bins goes through the whole sequence. -/
theorem Visits.map_bin_range {o : ObjSpec} (ho : o.Valid) {iter : Nat} {steps : List WriteBinStep}
    (h : Visits o.Owns iter (List.range o.nBinSpecs) steps) : (bodies steps).map WriteBinVisit.bin = binSeq 0 o.binSpecs := by
  obtain ⟨hidx, howner⟩ := h.map_bin
  have hlen := congrArg List.length hidx
  rw [List.length_map, List.length_range] at hlen
  refine List.ext_getElem? fun k => ?_
  rcases Nat.lt_or_ge k o.nBinSpecs with hk | hk
  · obtain ⟨p, hp⟩ : ∃ p, ((bodies steps).map WriteBinVisit.bin)[k]? = some p := by
      rw [List.getElem?_eq_getElem (hlen ▸ hk)]
      exact ⟨_, rfl⟩
    have hfst : p.1 = k := by
      have hat := congrArg (·[k]?) hidx
      simp only [List.getElem?_map (f := Prod.fst), hp, List.getElem?_range hk, Option.map_some] at hat
      exact Option.some.inj hat
    have howned := howner p (List.mem_of_getElem? hp)
    rw [hp, ← hfst, howned]
  · rw [List.getElem?_eq_none (by omega), List.getElem?_eq_none]
    rw [length_binSeq]
    exact ho.1 ▸ hk

/-- The inner loop ends after its first body for a selection of no bin as for one of a single bin. -/
theorem innerLoop_zero (tot specIdx : Nat) (spec : BinSpec) (idx : Nat) (rest : List Nat) :
    innerLoop 0 tot specIdx spec 0 idx rest = innerLoop 1 tot specIdx spec 0 idx rest := by
  cases rest <;> simp [innerLoop]

theorem innerLoop_next_zero {tot specIdx : Nat} {spec : BinSpec} {idx : Nat} {rest : List Nat} {steps : List WriteBinStep}
    {iter' idx' : Nat} {rest' : List Nat} (h : innerLoop 1 tot specIdx spec 0 idx rest = (steps, .next iter' idx' rest')) :
    iter' = 0 := by
  cases rest with
  | nil =>
    rw [innerLoop] at h
    split at h
    · simp only [Prod.mk.injEq, InnerEnd.next.injEq] at h
      exact h.2.1.symm
    · simp at h
  | cons idx₂ rest =>
    rw [innerLoop] at h
    split at h
    · simp only [Prod.mk.injEq, InnerEnd.next.injEq] at h
      exact h.2.1.symm
    · simp at h

theorem outerLoop_zero (nBinSpecs : Nat) (es : List BinSpec) (specIdx tot idx : Nat) (rest : List Nat) :
    outerLoop nBinSpecs 0 es specIdx tot 0 idx rest = outerLoop nBinSpecs 1 es specIdx tot 0 idx rest := by
  induction es generalizing specIdx tot idx rest with
  | nil => rfl
  | cons spec es ih =>
    rw [outerLoop, outerLoop, innerLoop_zero]
    split
    · cases h : innerLoop 1 tot specIdx spec 0 idx rest with
      | mk steps last =>
        cases last with
        | stop e => rfl
        | next iter' idx' rest' =>
          obtain rfl := innerLoop_next_zero h
          simp only [ih]
    · rfl

/-- The array is read before the number of its bins: a selection of no bin is taken for one of a single bin. -/
theorem writeBinTrace_zero (o : ObjSpec) (writeBins : List Nat) : writeBinTrace o writeBins 0 = writeBinTrace o writeBins 1 := by
  cases writeBins with
  | nil => rfl
  | cons idx rest => exact outerLoop_zero ..

/-! ## The loops as traversals of the sequence -/

section

variable {L : RecordSetLib} {R : AsRandom} {cLen : Nat → Nat} {binName : Text}

theorem populateEach_append (ps qs : List (Nat × BinSpec)) (rec : L.Record) :
    populateEach L R cLen binName (ps ++ qs) rec =
      (populateEach L R cLen binName ps rec >>= fun r => if r.1 then populateEach L R cLen binName qs r.2 else pure r) := by
  induction ps generalizing rec with
  | nil => simp [populateEach]
  | cons p ps ih =>
    obtain ⟨idx, spec⟩ := p
    simp only [List.cons_append, populateEach, bind_assoc]
    congr 1
    funext r
    by_cases hr : r.1 = true
    · simp only [hr, if_true, ih]
    · simp [hr]

theorem populateRepeats_eq (spec : BinSpec) (n : Nat) {cnt : Nat} (hfit : cnt + n < 2 ^ 32) (rec : L.Record) :
    populateRepeats L R cLen binName spec n cnt rec =
      populateEach L R cLen binName ((List.range' cnt n).map fun idx => (idx, spec)) rec := by
  induction n generalizing cnt rec with
  | zero => rfl
  | succ n ih =>
    rw [populateRepeats, List.range'_succ, List.map_cons, populateEach, Nat.mod_eq_of_lt (by omega)]
    congr 1
    funext r
    rw [ih (by omega)]

/-- The double loop stores the bins of the sequence. -/
theorem populateAll_eq {nBinSpecs : Nat} (hsize : nBinSpecs < 2 ^ 32) (es : List BinSpec) {cnt : Nat}
    (hcnt : cnt + totalRepeats es = nBinSpecs) (rec : L.Record) :
    populateAll L R cLen binName nBinSpecs es cnt rec = populateEach L R cLen binName (binSeq cnt es) rec := by
  induction es generalizing cnt rec with
  | nil =>
    rw [totalRepeats_nil] at hcnt
    rw [populateAll, if_neg (by omega), binSeq, populateEach]
  | cons e es ih =>
    rw [totalRepeats_cons] at hcnt
    rw [populateAll]
    split
    · rw [binSeq, populateEach_append, populateRepeats_eq e e.nRepeats (by omega), Nat.mod_eq_of_lt (by omega)]
      congr 1
      funext r
      rw [ih (by omega)]
    · -- specs without repetitions have no bins
      have hnone : binSeq cnt (e :: es) = [] := by
        rw [← List.length_eq_zero_iff, length_binSeq, totalRepeats_cons]
        omega
      rw [hnone, populateEach]

/-- The list generator draws the values of the sequence. -/
theorem genRandomList_eq {nBinSpecs : Nat} (hsize : nBinSpecs < 2 ^ 32) (es : List BinSpec) {cnt : Nat}
    (hcnt : cnt + totalRepeats es = nBinSpecs) :
    genRandomList R cLen es nBinSpecs cnt = mapGen (fun p => binSpecRandomVal R cLen p.2) (binSeq cnt es) := by
  induction es generalizing cnt with
  | nil =>
    rw [totalRepeats_nil] at hcnt
    rw [genRandomList, if_neg (by omega), binSeq, mapGen]
  | cons e es ih =>
    rw [totalRepeats_cons] at hcnt
    rw [genRandomList]
    split
    · have hblock : mapGen (fun p => binSpecRandomVal R cLen p.2) ((List.range' cnt e.nRepeats).map fun idx => (idx, e)) =
          repeatGen (binSpecRandomVal R cLen e) e.nRepeats := by
        rw [mapGen_map, mapGen_const (binSpecRandomVal R cLen e), List.length_range']
      rw [binSeq, mapGen_append, hblock, ih (by omega), Nat.mod_eq_of_lt (by omega)]
    · have hnone : binSeq cnt (e :: es) = [] := by
        rw [← List.length_eq_zero_iff, length_binSeq, totalRepeats_cons]
        omega
      rw [hnone, mapGen]

theorem appendFixed_eq {capacity : Nat} {vs : List AsVal} (hvs : vs.length ≤ capacity) (v : AsVal) :
    appendFixed capacity vs v = (vs ++ [v]).take capacity := by
  unfold appendFixed
  split
  · rw [List.take_of_length_le]
    rw [List.length_append, List.length_singleton]
    omega
  · rw [List.take_append_of_le_length (by omega), List.take_of_length_le hvs]

/-- The values of a selection are those of its bins, as many as the list has room for. -/
theorem genEach_eq (capacity : Nat) (ps : List (Nat × BinSpec)) {vs : List AsVal} (hvs : vs.length ≤ capacity) :
    genEach R cLen capacity (ps.map Prod.snd) vs =
      (mapGen (fun p => binSpecRandomVal R cLen p.2) ps >>= fun ws => pure ((vs ++ ws).take capacity)) := by
  induction ps generalizing vs with
  | nil => simp [genEach, mapGen, List.take_of_length_le hvs]
  | cons p ps ih =>
    simp only [List.map_cons, genEach, mapGen, bind_assoc, pure_bind]
    congr 1
    funext v
    rw [appendFixed_eq hvs, ih (List.length_take_le _ _)]
    congr 1
    funext ws
    have htake : ((vs ++ [v]).take capacity ++ ws).take capacity = (vs ++ v :: ws).take capacity := by
      generalize hws : vs ++ [v] = us
      rw [List.append_cons, hws, List.take_append, List.take_append, List.take_take, Nat.min_self, List.length_take]
      congr 2
      omega
    rw [htake]

end

end AerospikeBenchmark
