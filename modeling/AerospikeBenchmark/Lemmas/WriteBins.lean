import AerospikeBenchmark.Lemmas.Accepted
import AerospikeBenchmark.ObjectSpec.WriteBins

/-!
# What the loop over write bins does on a selection

On a selection in ascending order, within the bins of the specs, the loop runs its body once for each selected bin, in order and on
the spec that owns the bin.
-/

namespace AerospikeBenchmark

/-! ## Owners -/

theorem totalRepeats_take_succ {es : List BinSpec} {i : Nat} {e : BinSpec} (h : es[i]? = some e) :
    totalRepeats (es.take (i + 1)) = totalRepeats (es.take i) + e.nRepeats := by
  rw [List.take_add_one, h, totalRepeats_append]
  simp

theorem totalRepeats_take_mono (es : List BinSpec) {i j : Nat} (h : i ≤ j) :
    totalRepeats (es.take i) ≤ totalRepeats (es.take j) := by
  obtain ⟨d, rfl⟩ := Nat.exists_eq_add_of_le h
  rw [List.take_add, totalRepeats_append]
  exact Nat.le_add_right _ _

/-- A bin has one owner. -/
theorem ObjSpec.Owns.unique {o : ObjSpec} {bin i j : Nat} {e e' : BinSpec} (hi : o.Owns bin i e) (hj : o.Owns bin j e') : i = j := by
  have hlt {i j : Nat} {e e' : BinSpec} (hi : o.Owns bin i e) (hj : o.Owns bin j e') : ¬ i < j := by
    intro hij
    have hmono := totalRepeats_take_mono o.binSpecs (Nat.succ_le_of_lt hij)
    rw [Nat.succ_eq_add_one, totalRepeats_take_succ hi.1] at hmono
    have hhi := hi.2.2
    have hlo := hj.2.1
    omega
  exact Nat.le_antisymm (Nat.not_lt.mp (hlt hj hi)) (Nat.not_lt.mp (hlt hi hj))

/-! ## What the loop does on a selection -/

/-- The runs of the body for a selection from an iteration on. -/
def WriteBinVisit.position (v : WriteBinVisit) : Nat × Nat := (v.iter, v.idx)

/-- The positions of a selection whose first bin is at iteration `iter`. -/
def positions : Nat → List Nat → List (Nat × Nat)
  | _, [] => []
  | iter, idx :: sel => (iter, idx) :: positions (iter + 1) sel

theorem positions_append (iter : Nat) (s t : List Nat) :
    positions iter (s ++ t) = positions iter s ++ positions (iter + s.length) t := by
  induction s generalizing iter with
  | nil => rfl
  | cons idx s ih => simp [positions, ih, Nat.add_assoc, Nat.add_comm 1]

theorem map_snd_positions (iter : Nat) (sel : List Nat) : (positions iter sel).map Prod.snd = sel := by
  induction sel generalizing iter with
  | nil => rfl
  | cons idx sel ih => simp [positions, ih]

/-- A trace is that of the bodies for a selection, each on the spec `owns` gives for its bin, without a test that wraps. -/
structure Visits (owns : Nat → Nat → BinSpec → Prop) (iter : Nat) (sel : List Nat) (steps : List WriteBinStep) : Prop where
  positions : (bodies steps).map WriteBinVisit.position = positions iter sel
  owned : ∀ v ∈ bodies steps, owns v.idx v.specIdx v.spec
  tests : ∀ tot nRepeats idx, .test tot nRepeats idx ∈ steps → tot + nRepeats < 2 ^ 32

theorem Visits.append {owns : Nat → Nat → BinSpec → Prop} {iter : Nat} {s t : List Nat} {steps steps' : List WriteBinStep}
    (h : Visits owns iter s steps) (h' : Visits owns (iter + s.length) t steps') : Visits owns iter (s ++ t) (steps ++ steps') := by
  refine ⟨?_, ?_, ?_⟩
  · rw [bodies_append, List.map_append, h.positions, h'.positions, positions_append]
  · intro v hv
    rw [bodies_append] at hv
    rcases List.mem_append.mp hv with hv | hv
    · exact h.owned v hv
    · exact h'.owned v hv
  · intro tot nRepeats idx hmem
    rcases List.mem_append.mp hmem with hmem | hmem
    · exact h.tests tot nRepeats idx hmem
    · exact h'.tests tot nRepeats idx hmem

/-- A test alone visits nothing. -/
theorem visits_test {owns : Nat → Nat → BinSpec → Prop} {iter tot nRepeats idx : Nat} (h : tot + nRepeats < 2 ^ 32) :
    Visits owns iter [] [.test tot nRepeats idx] := by
  refine ⟨rfl, by simp [bodies], ?_⟩
  intro tot' nRepeats' idx' hmem
  simp only [List.mem_singleton, WriteBinStep.test.injEq] at hmem
  obtain ⟨rfl, rfl, -⟩ := hmem
  exact h

/-- A test and its body visit the bin. -/
theorem visits_body {owns : Nat → Nat → BinSpec → Prop} (iter : Nat) {tot idx specIdx : Nat} {spec : BinSpec}
    (h : tot + spec.nRepeats < 2 ^ 32) (howns : owns idx specIdx spec) :
    Visits owns iter [idx] [.test tot spec.nRepeats idx, .body ⟨iter, idx, specIdx, spec⟩] := by
  refine ⟨rfl, by simpa [bodies] using howns, ?_⟩
  intro tot' nRepeats' idx' hmem
  simp only [List.mem_cons, WriteBinStep.test.injEq, reduceCtorEq, List.not_mem_nil, or_self, or_false] at hmem
  obtain ⟨rfl, rfl, -⟩ := hmem
  exact h

/-! ## The inner loop -/

section

variable {n tot specIdx : Nat} {spec : BinSpec} (hfit : tot + spec.nRepeats < 2 ^ 32)
include hfit

theorem innerLoop_leave {idx : Nat} (hle : tot + spec.nRepeats ≤ idx) (iter : Nat) (rest : List Nat) :
    innerLoop n tot specIdx spec iter idx rest = ([.test tot spec.nRepeats idx], .next iter idx rest) := by
  cases rest <;> simp only [innerLoop, Nat.mod_eq_of_lt hfit, if_pos hle]

theorem innerLoop_last {idx : Nat} (hlt : idx < tot + spec.nRepeats) {iter : Nat} (hlast : n ≤ iter + 1) (rest : List Nat) :
    innerLoop n tot specIdx spec iter idx rest =
      ([.test tot spec.nRepeats idx, .body ⟨iter, idx, specIdx, spec⟩], .stop .exit) := by
  cases rest <;> simp only [innerLoop, Nat.mod_eq_of_lt hfit, if_neg (Nat.not_le.mpr hlt), if_pos hlast]

theorem innerLoop_more {idx : Nat} (hlt : idx < tot + spec.nRepeats) {iter : Nat} (hmore : iter + 1 < n) (idx' : Nat)
    (rest : List Nat) :
    innerLoop n tot specIdx spec iter idx (idx' :: rest) =
      ([.test tot spec.nRepeats idx, .body ⟨iter, idx, specIdx, spec⟩] ++ (innerLoop n tot specIdx spec (iter + 1) idx' rest).1,
        (innerLoop n tot specIdx spec (iter + 1) idx' rest).2) := by
  simp only [innerLoop, Nat.mod_eq_of_lt hfit, if_neg (Nat.not_le.mpr hlt), if_neg (Nat.not_le.mpr hmore), List.cons_append,
    List.nil_append]

/-- The inner loop visits the bins of its spec and leaves the others, or ends with the selection. -/
theorem innerLoop_spec {owns : Nat → Nat → BinSpec → Prop}
    (howns : ∀ idx, tot ≤ idx → idx < tot + spec.nRepeats → owns idx specIdx spec) (extra sel : List Nat) (iter idx : Nat)
    (hn : n = iter + 1 + sel.length) (hsorted : (idx :: sel).Pairwise (· < ·)) (hidx : tot ≤ idx) :
    (∃ steps, innerLoop n tot specIdx spec iter idx (sel ++ extra) = (steps, .stop .exit) ∧ Visits owns iter (idx :: sel) steps) ∨
      ∃ steps visited idx' sel', innerLoop n tot specIdx spec iter idx (sel ++ extra) =
          (steps, .next (iter + visited.length) idx' (sel' ++ extra)) ∧
        Visits owns iter visited steps ∧ visited ++ idx' :: sel' = idx :: sel ∧ tot + spec.nRepeats ≤ idx' := by
  rcases Nat.lt_or_ge idx (tot + spec.nRepeats) with hlt | hle
  · have hbody := visits_body iter hfit (howns idx hidx hlt)
    induction sel generalizing iter idx with
    | nil =>
      rw [List.length_nil] at hn
      exact .inl ⟨_, innerLoop_last hfit hlt (by omega) _, hbody⟩
    | cons idx₂ sel ih =>
      rw [List.length_cons] at hn
      have hnext : idx < idx₂ := List.rel_of_pairwise_cons hsorted List.mem_cons_self
      rw [List.cons_append, innerLoop_more hfit hlt (by omega)]
      rcases Nat.lt_or_ge idx₂ (tot + spec.nRepeats) with hlt₂ | hle₂
      · have hbody₂ := visits_body (iter + 1) hfit (howns idx₂ (by omega) hlt₂)
        rcases ih (iter + 1) idx₂ (by omega) hsorted.of_cons (by omega) hlt₂ hbody₂ with
          ⟨steps, heq, hvisits⟩ | ⟨steps, visited, idx', sel', heq, hvisits, happ, hle⟩
        · rw [heq]
          exact .inl ⟨_, rfl, hbody.append hvisits⟩
        · rw [heq]
          refine .inr ⟨_, idx :: visited, idx', sel', ?_, hbody.append hvisits, by rw [List.cons_append, happ], hle⟩
          rw [List.length_cons, Nat.add_comm visited.length, ← Nat.add_assoc]
      · -- the next bin belongs to a later spec
        rw [innerLoop_leave hfit hle₂]
        exact .inr ⟨_, [idx], idx₂, sel, rfl, hbody.append (visits_test hfit), rfl, hle₂⟩
  · exact .inr ⟨_, [], idx, sel, innerLoop_leave hfit hle iter _, visits_test hfit, rfl, hle⟩

end

/-! ## The outer loop -/

/-- The loop visits every bin of a selection, each on its owner. -/
theorem outerLoop_spec {o : ObjSpec} (ho : o.Valid) {n : Nat} (extra : List Nat) (es : List BinSpec) (i tot iter idx : Nat)
    (sel : List Nat) (hes : es = o.binSpecs.drop i) (htot : tot = totalRepeats (o.binSpecs.take i))
    (hn : n = iter + 1 + sel.length) (hsorted : (idx :: sel).Pairwise (· < ·)) (hidx : tot ≤ idx)
    (hlt : ∀ j ∈ idx :: sel, j < o.nBinSpecs) :
    ∃ steps, outerLoop o.nBinSpecs n es i tot iter idx (sel ++ extra) = (steps, .exit) ∧ Visits o.Owns iter (idx :: sel) steps := by
  obtain ⟨hcount, hsize, -⟩ := ho
  have hall : totalRepeats (o.binSpecs.take i) + totalRepeats es = o.nBinSpecs := by
    rw [hes, ← totalRepeats_append, List.take_append_drop, hcount]
  have hidxlt := hlt idx List.mem_cons_self
  induction es generalizing i tot iter idx sel with
  | nil =>
    rw [totalRepeats_nil] at hall
    omega
  | cons spec es ih =>
    have hspec : o.binSpecs[i]? = some spec := by
      rw [← List.head?_drop, ← hes, List.head?_cons]
    rw [totalRepeats_cons] at hall
    have hfit : tot + spec.nRepeats < 2 ^ 32 := by omega
    have howns : ∀ j, tot ≤ j → j < tot + spec.nRepeats → o.Owns j i spec := by
      intro j hlow hhigh
      exact ⟨hspec, htot ▸ hlow, htot ▸ hhigh⟩
    rw [outerLoop, if_pos (by omega)]
    rcases innerLoop_spec (n := n) hfit howns extra sel iter idx hn hsorted hidx with
      ⟨steps, heq, hvisits⟩ | ⟨steps, visited, idx', sel', heq, hvisits, happ, hle⟩
    · rw [heq]
      exact ⟨steps, rfl, hvisits⟩
    · have htake := totalRepeats_take_succ hspec
      have hlen := congrArg List.length happ
      simp only [List.length_append, List.length_cons] at hlen
      have hmem : ∀ j ∈ idx' :: sel', j < o.nBinSpecs := fun j hj => hlt j (happ ▸ List.mem_append_right visited hj)
      obtain ⟨steps', heq', hvisits'⟩ := ih (i + 1) (tot + spec.nRepeats) (iter + visited.length) idx' sel'
        (by rw [← List.drop_drop, ← hes, List.drop_one, List.tail_cons]) (by rw [htake, htot]) (by omega)
        ((happ ▸ hsorted).sublist (List.sublist_append_right visited _)) hle hmem (by omega) (hmem idx' List.mem_cons_self)
      rw [heq]
      simp only [Nat.mod_eq_of_lt hfit, heq']
      exact ⟨_, rfl, happ ▸ hvisits.append hvisits'⟩

/-- The loop over a selection in ascending order within the bins of a valid spec. The array may go on behind the selection. -/
theorem writeBinTrace_spec {o : ObjSpec} (ho : o.Valid) {sel : List Nat} (hne : sel ≠ []) (hsorted : sel.Pairwise (· < ·))
    (hlt : ∀ j ∈ sel, j < o.nBinSpecs) (extra : List Nat) :
    ∃ steps, writeBinTrace o (sel ++ extra) sel.length = (steps, .exit) ∧ Visits o.Owns 0 sel steps := by
  cases sel with
  | nil => exact absurd rfl hne
  | cons idx sel =>
    exact outerLoop_spec ho extra o.binSpecs 0 0 0 idx sel (List.drop_zero ..).symm (by simp)
      (by rw [List.length_cons, Nat.zero_add, Nat.add_comm]) hsorted (Nat.zero_le idx) hlt

end AerospikeBenchmark
