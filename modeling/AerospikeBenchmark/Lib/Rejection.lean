import Mathlib.Data.Int.CardIntervalMod
import AerospikeBenchmark.Lib.Words

/-!
# Rejection loops

A rejection loop draws words until it accepts one, and returns what it makes of that word. A program is such a loop when
`ReturnsFirst` holds of it; then everything about its results is about the function on words. `Unbiased` says of such a function that
it maps the words evenly onto a set of values, and the second part proves it of the reduction of a word modulo a number.
-/

namespace Words

/-! ## Drawing until a word is accepted -/

section

variable {α β : Type}

/-- What the first accepted word gives; rejected words are dropped. -/
def firstSome (f : Nat → Option α) : List Nat → Except Stop (α × Source)
  | [] => .error .outOfWords
  | w :: ws =>
    match f w with
    | some a => .ok (a, some ws)
    | none => firstSome f ws

/-- `do { w = next(); } while (f(w) is nothing);` -/
def retry (f : Nat → Option α) : Gen α
  | none => .error .nullSource
  | some ws => firstSome f ws

/-- The program returns what `f` makes of the first word that `f` accepts, and has read the words up to it. -/
def ReturnsFirst (g : Gen α) (f : Nat → Option α) : Prop :=
  ∀ ws a rest, g (some ws) = .ok (a, some rest) ↔ ∃ rejected w, ws = rejected ++ w :: rest ∧ (∀ x ∈ rejected, f x = none) ∧ f w = some a

variable {f : Nat → Option α} {g : Gen α}

theorem returnsFirst_retry (f : Nat → Option α) : ReturnsFirst (retry f) f := by
  intro ws a rest
  simp only [retry]
  induction ws with
  | nil => simp [firstSome]
  | cons v ws ih =>
    cases hv : f v with
    | some b =>
      simp only [firstSome, hv, Except.ok.injEq, Prod.mk.injEq, Option.some.injEq]
      constructor
      · rintro ⟨rfl, rfl⟩
        exact ⟨[], v, rfl, by simp, hv⟩
      · rintro ⟨rejected, w, heq, hrejected, hw⟩
        cases rejected with
        | nil =>
          obtain ⟨rfl, rfl⟩ := List.cons.inj heq
          exact ⟨Option.some.inj (hv.symm.trans hw), rfl⟩
        | cons x rejected =>
          obtain ⟨rfl, -⟩ := List.cons.inj heq
          rw [hrejected v List.mem_cons_self] at hv
          cases hv
    | none =>
      simp only [firstSome, hv, ih]
      constructor
      · rintro ⟨rejected, w, rfl, hrejected, hw⟩
        exact ⟨v :: rejected, w, rfl, by simpa [hv] using hrejected, hw⟩
      · rintro ⟨rejected, w, heq, hrejected, hw⟩
        cases rejected with
        | nil =>
          obtain ⟨rfl, rfl⟩ := List.cons.inj heq
          rw [hv] at hw
          cases hw
        | cons x rejected =>
          obtain ⟨rfl, rfl⟩ := List.cons.inj heq
          exact ⟨rejected, w, rfl, fun y hy => hrejected y (List.mem_cons_of_mem _ hy), hw⟩

theorem nextFrom_eq_retry (lo : Nat) : nextFrom lo = retry fun w => if w < lo then none else some w := by
  funext s
  cases s with
  | none => rfl
  | some ws =>
    simp only [nextFrom, retry]
    induction ws with
    | nil => rfl
    | cons w ws ih =>
      by_cases hw : w < lo
      · simp [firstFrom, firstSome, hw, ih]
      · simp [firstFrom, firstSome, hw]

/-- A result computed from the accepted word alone. -/
theorem ReturnsFirst.map (h : ReturnsFirst g f) (k : α → β) : ReturnsFirst (g >>= fun a => pure (k a)) fun w => (f w).map k := by
  intro ws b rest
  simp only [bind_ok, pure_ok, Option.map_eq_none_iff, Option.map_eq_some_iff]
  constructor
  · rintro ⟨a, t, hg, rfl, rfl⟩
    obtain ⟨rejected, w, heq, hrejected, hw⟩ := (h ws a rest).mp hg
    exact ⟨rejected, w, heq, hrejected, a, hw, rfl⟩
  · rintro ⟨rejected, w, heq, hrejected, a, hw, rfl⟩
    exact ⟨a, some rest, (h ws a rest).mpr ⟨rejected, w, heq, hrejected, hw⟩, rfl, rfl⟩

/-- A rejection loop ends on a stream that has an accepted word ahead: it returns at the first one. -/
theorem ReturnsFirst.finishes (h : ReturnsFirst g f) {ω : Nat → Nat} {i : Nat} (hahead : ∃ d, (f (ω (i + d))).isSome) :
    Finishes g ω i := by
  obtain ⟨a, ha⟩ := Option.isSome_iff_exists.mp (Nat.find_spec hahead)
  refine ⟨a, Nat.find hahead + 1, fun n => (h _ _ _).mpr ⟨window ω i (Nat.find hahead), ω (i + Nat.find hahead), ?_, ?_, ha⟩⟩
  · have hnext : window ω (i + Nat.find hahead) 1 = [ω (i + Nat.find hahead)] := by simp [window]
    rw [Nat.add_assoc, window_add, window_add, hnext, List.singleton_append, Nat.add_assoc]
  · intro w hw
    obtain ⟨d, hd, rfl⟩ := List.mem_map.mp hw
    exact Option.not_isSome_iff_eq_none.mp (Nat.find_min hahead (List.mem_range.mp hd))

end

/-! ## Even reductions -/

/-- The function accepts at least half of the first `n` words, and maps those it accepts evenly onto a set of values. -/
structure Unbiased (n : Nat) (values : Finset Nat) (f : Nat → Option Nat) : Prop where
  half : n ≤ 2 * ((Finset.range n).filter fun w => (f w).isSome).card
  inRange : ∀ w v, f w = some v → v ∈ values
  even : ∀ v ∈ values, ((Finset.range n).filter fun w => f w = some v).card = n / values.card

/-- The values may be renamed. -/
theorem Unbiased.map {n : Nat} {values : Finset Nat} {f : Nat → Option Nat} (h : Unbiased n values f) (k : Nat ↪ Nat) :
    Unbiased n (values.map k) fun w => (f w).map k where
  half := by simpa using h.half
  inRange := by
    intro w v hv
    obtain ⟨a, ha, rfl⟩ := Option.map_eq_some_iff.mp hv
    exact Finset.mem_map_of_mem k (h.inRange w a ha)
  even := by
    intro v hv
    obtain ⟨a, ha, rfl⟩ := Finset.mem_map.mp hv
    have hsame : ∀ w, (f w).map k = some (k a) ↔ f w = some a := by
      intro w
      simp [Option.map_eq_some_iff]
    simp only [hsame, Finset.card_map]
    exact h.even a ha

/-- Drop the words below `lo` and reduce the others modulo `max`. -/
def reduceFrom (lo max w : Nat) : Option Nat := if w < lo then none else some (w % max)

theorem reduceFrom_eq_some {lo max w v : Nat} : reduceFrom lo max w = some v ↔ lo ≤ w ∧ w % max = v := by
  simp [reduceFrom]

theorem isSome_reduceFrom {lo max w : Nat} : (reduceFrom lo max w).isSome ↔ lo ≤ w := by
  simp [reduceFrom]

/-- The negation of `max` leaves the remainder of the number of words: `n - max` and `n` differ by `max`. -/
theorem neg_mod_eq {n max : Nat} (hpos : 0 < max) (hmax : max ≤ n) : (n - max) % n % max = n % max := by
  rw [Nat.mod_eq_of_lt (by omega : n - max < n)]
  exact (Nat.mod_eq_sub_mod hmax).symm

/-- The words from `n % max` up to `n` fill `n / max` whole rounds of residues. -/
theorem card_residue {n max v : Nat} (hpos : 0 < max) (hv : v < max) :
    ((Finset.range n).filter fun w => n % max ≤ w ∧ w % max = v).card = n / max := by
  have hlo : n % max < max := Nat.mod_lt n hpos
  have hle : n % max ≤ n := Nat.mod_le n max
  have hcount (b : Nat) : ((Finset.range b).filter fun w => w % max = v).card = b / max + if v < b % max then 1 else 0 := by
    have h := Nat.count_modEq_card b hpos v
    rw [Nat.mod_eq_of_lt hv, Nat.count_eq_card_filter_range] at h
    rw [← h]
    simp only [Nat.ModEq, Nat.mod_eq_of_lt hv]
  -- the words with this residue are the ones below the bound and the ones from it on
  have hsplit := Finset.card_filter_add_card_filter_not (s := (Finset.range n).filter fun w => w % max = v) (fun w => n % max ≤ w)
  have hbelow : (((Finset.range n).filter fun w => w % max = v).filter fun w => ¬ n % max ≤ w) =
      (Finset.range (n % max)).filter fun w => w % max = v := by
    ext w
    simp only [Finset.mem_filter, Finset.mem_range]
    omega
  have hfrom : (((Finset.range n).filter fun w => w % max = v).filter fun w => n % max ≤ w) =
      (Finset.range n).filter fun w => n % max ≤ w ∧ w % max = v := by
    ext w
    simp only [Finset.mem_filter]
    tauto
  rw [hbelow, hfrom, hcount n, hcount (n % max), Nat.div_eq_of_lt hlo, Nat.mod_mod] at hsplit
  omega

theorem card_accepted (n max : Nat) :
    ((Finset.range n).filter fun w => (reduceFrom (n % max) max w).isSome).card = n - n % max := by
  have hset : ((Finset.range n).filter fun w => (reduceFrom (n % max) max w).isSome) = Finset.Ico (n % max) n := by
    ext w
    simp [isSome_reduceFrom, and_comm]
  rw [hset, Nat.card_Ico]

/-- A remainder is at most half of a number that is not below the divisor. -/
theorem two_mul_mod_le {n max : Nat} (hmax : max ≤ n) (hpos : 0 < max) : 2 * (n % max) ≤ n := by
  have hlo := Nat.mod_lt n hpos
  have hrest : max ≤ n - n % max := by
    have hdiv := Nat.div_pos hmax hpos
    have hmul := Nat.le_mul_of_pos_right max hdiv
    have := Nat.div_add_mod n max
    omega
  omega

/-- Rejecting the words below `n % max` makes the reduction of `n` words even. -/
theorem unbiased_reduceFrom {n max : Nat} (hpos : 0 < max) (hmax : max ≤ n) :
    Unbiased n (Finset.range max) (reduceFrom (n % max) max) where
  half := by
    have := two_mul_mod_le hmax hpos
    rw [card_accepted]
    omega
  inRange := by
    intro w v hv
    obtain ⟨-, rfl⟩ := reduceFrom_eq_some.mp hv
    exact Finset.mem_range.mpr (Nat.mod_lt w hpos)
  even := by
    intro v hv
    simp only [reduceFrom_eq_some, Finset.card_range]
    exact card_residue hpos (Finset.mem_range.mp hv)

end Words
