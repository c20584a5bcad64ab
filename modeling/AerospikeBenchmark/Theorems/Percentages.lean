import AerospikeBenchmark.Lemmas.Accepted
import AerospikeBenchmark.Lib.Rounding

/-!
# The percentages of a workload

What `parse_workload_type` stores: each percentage is from 0 to 100, or it is not a number, which the range checks let pass.
-/

namespace AerospikeBenchmark

open CText Results

/-- A number from 0 to 100. -/
def IsPercentage (p : FpNum) : Prop := ∃ q : ℚ, p = .num q ∧ 0 ≤ q ∧ q ≤ 100

/-- The percentages stored in a workload of its type; those of the operations on all bins only when they were given. -/
def Workload.storedPcts (w : Workload) : List FpNum :=
  let allPcts := [w.readAllPct, w.writeAllPct].filter (· ≠ unsetPct)
  match w.type with
  | .i | .d => []
  | .ru | .rr => w.readPct :: allPcts
  | .ruf | .rud => w.readPct :: w.writePct :: allPcts

/-- The percentages of a workload are percentages, and those of a workload with three kinds of operations leave some to the third. -/
structure ValidPercentages (w : Workload) : Prop where
  range : ∀ p ∈ w.storedPcts, IsPercentage p
  sum : w.type = .ruf ∨ w.type = .rud → ∀ r s, w.readPct = .num r → w.writePct = .num s → r + s < 100

/-! ## Lists of percentages -/

/-- What the range check of a percentage lets pass. -/
theorem pct_of_check {p : FpNum} (h : ¬ (p.lt (.num 0) || (FpNum.num 100).lt p) = true) : p = .nan ∨ IsPercentage p := by
  simp only [Bool.or_eq_true, not_or, Bool.not_eq_true] at h
  cases p with
  | nan => exact .inl rfl
  | inf neg => cases neg <;> simp [FpNum.lt] at h
  | num q =>
    simp only [FpNum.lt, decide_eq_false_iff_not, not_lt] at h
    exact .inr ⟨q, rfl, h.1, h.2⟩

theorem parseWorkloadDistr_pcts {pctStr : Text} {fuel : Nat} {str : Text} {pcts : List FpNum}
    (h : parseWorkloadDistr pctStr fuel str = .ok pcts) : ∀ p ∈ pcts, p = .nan ∨ IsPercentage p := by
  induction fuel generalizing str pcts with
  | zero => cases h
  | succ fuel ih =>
    unfold parseWorkloadDistr at h
    split at h
    · cases h
      simp
    cases hscan : strtod str with
    | none => simp [hscan] at h
    | some r =>
      rw [hscan] at h
      dsimp only at h
      split_ifs at h with hrange hcomma hend
      · obtain ⟨rest, hrest, rfl⟩ := map_eq_ok.mp h
        exact List.forall_mem_cons.mpr ⟨pct_of_check hrange, ih hrest⟩
      · cases h
        exact List.forall_mem_singleton.mpr (pct_of_check hrange)

theorem percentagesAfter_pcts {str rest : Text} {pcts : List FpNum} (h : percentagesAfter str rest = .ok (some pcts)) :
    ∀ p ∈ pcts, p = .nan ∨ IsPercentage p := by
  unfold percentagesAfter at h
  split_ifs at h
  · cases h
  · obtain ⟨pcts', hpcts, heq⟩ := map_eq_ok.mp h
    cases heq
    exact parseWorkloadDistr_pcts hpcts

/-- The share of the operations on all bins at a place of the list, if the list is long enough. -/
theorem getD_pcts {more : List FpNum} (h : ∀ p ∈ more, p = .nan ∨ IsPercentage p) (i : Nat) :
    more.getD i unsetPct = unsetPct ∨ more.getD i unsetPct = .nan ∨ IsPercentage (more.getD i unsetPct) := by
  rw [List.getD_eq_getElem?_getD]
  cases hget : more[i]? with
  | none => exact .inl rfl
  | some p => exact .inr (h p (List.mem_of_getElem? hget))

/-- Two percentages whose sum, rounded to a float, is below 100 add up to less than 100. -/
theorem sum_lt_of_check {r s : ℚ} (hr : 0 ≤ r ∧ r ≤ 100) (hs : 0 ≤ s ∧ s ≤ 100)
    (h : (binary32.add (.num r) (.num s)).ge (.num 100) = false) : r + s < 100 := by
  by_contra hge
  have hle : ((100 : Nat) : ℚ) ≤ r + s := by
    push_cast
    linarith
  have hpow : r + s < 2 ^ (binary32.mant + 1) := by
    have : r + s ≤ 200 := by linarith
    exact lt_of_le_of_lt this (by norm_num [binary32])
  have hround := binary32.natCast_le_ofRat (by decide) (by decide) (by linarith) hpow hle
  change (binary32.ofRat (r + s)).ge (.num 100) = false at h
  rcases hround with hinf | ⟨v, hv, hv100⟩
  · rw [hinf] at h
    cases h
  · push_cast at hv100
    rw [hv] at h
    simp only [FpNum.ge, FpNum.lt, FpNum.eq, FpNum.num.injEq, Bool.or_eq_false_iff, decide_eq_false_iff_not] at h
    exact h.1 (lt_of_le_of_ne hv100 (Ne.symm h.2))

/-! ## Workload strings -/

/-- Every stored percentage is one or is not a number, and numbers add up as they should. -/
structure ParsedPercentages (w : Workload) : Prop where
  range : ∀ p ∈ w.storedPcts, p = .nan ∨ IsPercentage p
  sum : w.type = .ruf ∨ w.type = .rud → ∀ r s, w.readPct = .num r → w.writePct = .num s → r + s < 100

theorem forall_storedPcts {w : Workload} {P : FpNum → Prop} (hread : w.type.isInfinite = true → P w.readPct)
    (hwrite : w.type = .ruf ∨ w.type = .rud → P w.writePct) (hreadAll : w.readAllPct = unsetPct ∨ P w.readAllPct)
    (hwriteAll : w.writeAllPct = unsetPct ∨ P w.writeAllPct) : ∀ p ∈ w.storedPcts, P p := by
  have hall : ∀ p ∈ [w.readAllPct, w.writeAllPct].filter (· ≠ unsetPct), P p := by
    intro p hp
    simp only [List.mem_filter, List.mem_cons, List.not_mem_nil, or_false, decide_eq_true_eq] at hp
    obtain ⟨rfl | rfl, hne⟩ := hp
    · exact hreadAll.resolve_left hne
    · exact hwriteAll.resolve_left hne
  unfold Workload.storedPcts
  cases ht : w.type <;> simp only [ht, WorkloadType.isInfinite, reduceCtorEq, or_false, or_true, false_implies, true_implies] at hread hwrite ⊢
  · simp
  · exact List.forall_mem_cons.mpr ⟨hread, hall⟩
  · exact List.forall_mem_cons.mpr ⟨hread, hall⟩
  · simp
  · exact List.forall_mem_cons.mpr ⟨hread, List.forall_mem_cons.mpr ⟨hwrite, hall⟩⟩
  · exact List.forall_mem_cons.mpr ⟨hread, List.forall_mem_cons.mpr ⟨hwrite, hall⟩⟩

theorem isPercentage_num {q : ℚ} (h : 0 ≤ q ∧ q ≤ 100) : IsPercentage (.num q) := ⟨q, rfl, h⟩

theorem parseThreeWay_pcts {type : WorkloadType} {str : Text} {w : Workload} (h : parseThreeWay type str = .ok w) :
    ParsedPercentages w := by
  unfold parseThreeWay at h
  obtain ⟨pcts, hpcts, h⟩ := bind_eq_ok.mp h
  split at h
  · cases h
    refine ⟨forall_storedPcts (fun _ => .inr (isPercentage_num (by norm_num))) (fun _ => .inr (isPercentage_num (by norm_num)))
      (.inl rfl) (.inl rfl), ?_⟩
    rintro - r s ⟨⟩ ⟨⟩
    norm_num
  · next r wr more =>
    simp only [bind_eq_ok, check_eq_ok] at h
    obtain ⟨-, -, -, hsum, hw⟩ := h
    cases hw
    have hall := percentagesAfter_pcts hpcts
    have hr := hall r (by simp)
    have hwr := hall wr (by simp)
    have hmore : ∀ p ∈ more, p = .nan ∨ IsPercentage p := fun p hp => hall p (by simp [hp])
    refine ⟨forall_storedPcts (fun _ => hr) (fun _ => hwr) (getD_pcts hmore 0) (getD_pcts hmore 1), ?_⟩
    rintro - a b (rfl : r = .num a) (rfl : wr = .num b)
    obtain ⟨_, ⟨⟩, ha⟩ := hr.resolve_left (by simp)
    obtain ⟨_, ⟨⟩, hb⟩ := hwr.resolve_left (by simp)
    exact sum_lt_of_check ha hb (by simpa using hsum)
  · cases h

theorem parseTwoWay_pcts {type : WorkloadType} (htype : type = .ru ∨ type = .rr) {w₀ w : Workload} {str : Text}
    (h : parseTwoWay type w₀ str = .ok w) : ParsedPercentages w := by
  have hnot : ¬ (type = .ruf ∨ type = .rud) := by rcases htype with rfl | rfl <;> simp
  unfold parseTwoWay at h
  obtain ⟨pcts, hpcts, h⟩ := bind_eq_ok.mp h
  split at h
  · cases h
    exact ⟨forall_storedPcts (fun _ => .inr (isPercentage_num (by norm_num))) (fun ht => absurd ht hnot) (.inl rfl) (.inl rfl),
      fun ht => absurd ht hnot⟩
  · next r more =>
    simp only [bind_eq_ok, check_eq_ok] at h
    obtain ⟨-, -, hw⟩ := h
    cases hw
    have hall := percentagesAfter_pcts hpcts
    have hmore : ∀ p ∈ more, p = .nan ∨ IsPercentage p := fun p hp => hall p (by simp [hp])
    exact ⟨forall_storedPcts (fun _ => hall r (by simp)) (fun ht => absurd ht hnot) (getD_pcts hmore 0) (getD_pcts hmore 1),
      fun ht => absurd ht hnot⟩
  · cases h

theorem parseWorkloadType_pcts {w₀ w : Workload} {str : Text} (h : parseWorkloadType w₀ str = .ok w) : ParsedPercentages w := by
  unfold parseWorkloadType at h
  split_ifs at h
  · cases h
    exact ⟨by simp [Workload.storedPcts], by simp⟩
  · exact parseThreeWay_pcts h
  · exact parseThreeWay_pcts h
  · exact parseTwoWay_pcts (.inl rfl) h
  · exact parseTwoWay_pcts (.inr rfl) h
  · cases h
    exact ⟨by simp [Workload.storedPcts], by simp⟩

end AerospikeBenchmark
