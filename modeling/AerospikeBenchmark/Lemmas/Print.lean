import AerospikeBenchmark.ObjectSpec.Conform
import AerospikeBenchmark.ObjectSpec.Print

/-!
# What the printer stores

On a spec whose counts are right the printer makes the outputs of the spec, one after the other. As long as they fit, the text so
far stands in the buffer with `out_str` behind it; the first output that does not fit moves `out_str` to the end of the buffer,
where it stays.
-/

namespace AerospikeBenchmark

open CText Snprintf

variable {L : PrintLib}

/-- Outputs printed one after the other. -/
def sprintAll (ps : List Text) (b : OutBuf) : OutBuf := ps.foldl (fun b s => sprint s b) b

@[simp] theorem sprintAll_nil (b : OutBuf) : sprintAll [] b = b := rfl

@[simp] theorem sprintAll_cons (p : Text) (ps : List Text) (b : OutBuf) : sprintAll (p :: ps) b = sprintAll ps (sprint p b) := rfl

theorem sprintAll_append (ps qs : List Text) (b : OutBuf) : sprintAll (ps ++ qs) b = sprintAll qs (sprintAll ps b) :=
  List.foldl_append

theorem sprintMult_eq (n : Nat) (b : OutBuf) : sprintMult n b = sprintAll (multPieces n) b := by
  unfold sprintMult multPieces
  split <;> rfl

theorem out_sprint (s : Text) (b : OutBuf) : (sprint s b).out = b.out + if written s < b.size then written s else b.size := rfl

theorem size_sprint (s : Text) (b : OutBuf) : (sprint s b).size = if written s < b.size then b.size - written s else 0 := rfl

/-- Nothing is printed to a buffer with no room left. -/
theorem sprint_of_full {b : OutBuf} (h : b.size = 0) (s : Text) : sprint s b = b := by
  obtain ⟨mem, out, size⟩ := b
  simp only at h
  subst h
  simp [sprint, snprintf]

/-! ## The outputs of a spec -/

theorem pos_totalRepeats {es : List BinSpec} (h : ValidList es) (hne : es ≠ []) : 0 < totalRepeats es := by
  obtain ⟨e, es, rfl⟩ := List.exists_cons_of_ne_nil hne
  rw [totalRepeats_cons]
  exact Nat.add_pos_left h.1 _

/-- A separator is printed exactly when elements are left. -/
theorem joinPieces_cons (sep : Text) (p : List Text) (es : List BinSpec) (b : OutBuf) :
    sprintAll (joinPieces sep (p :: piecesList L es)) b =
      sprintAll (joinPieces sep (piecesList L es)) (if es ≠ [] then sprint sep (sprintAll p b) else sprintAll p b) := by
  cases es with
  | nil => rfl
  | cons e es =>
    rw [piecesList, joinPieces, sprintAll_append, sprintAll_cons]
    rfl

theorem joinPieces_cons_pairs (sep : Text) (p : List Text) (kvs : List (BinSpec × BinSpec)) (b : OutBuf) :
    sprintAll (joinPieces sep (p :: piecesPairs L kvs)) b =
      sprintAll (joinPieces sep (piecesPairs L kvs)) (if kvs ≠ [] then sprint sep (sprintAll p b) else sprintAll p b) := by
  cases kvs with
  | nil => rfl
  | cons q kvs =>
    obtain ⟨k, v⟩ := q
    rw [piecesPairs, joinPieces, sprintAll_append, sprintAll_cons]
    rfl

/-- The count of a loop over specs, after one of them: it does not wrap, and it is the whole number exactly at the end. -/
theorem count_next {e : BinSpec} {es : List BinSpec} (hes : ValidList es) {n cnt : Nat} (hlt : n < 2 ^ 32)
    (hsum : cnt + (e.nRepeats + totalRepeats es) = n) :
    (cnt + e.nRepeats) % 2 ^ 32 = cnt + e.nRepeats ∧ (cnt + e.nRepeats ≠ n ↔ es ≠ []) := by
  refine ⟨Nat.mod_eq_of_lt (by omega), ?_, ?_⟩
  · rintro hne rfl
    exact hne hsum
  · intro hne
    have := pos_totalRepeats hes hne
    omega

mutual

/-- `_sprint_bin` makes the outputs of a valid spec. -/
theorem sprintBin_eq : ∀ (e : BinSpec), e.Valid → ∀ b, sprintBin L e b = some (sprintAll (e.pieces L) b)
  | .scalar n s, _, b => by
    rw [sprintBin, BinSpec.pieces, sprintAll_append, sprintMult_eq]
    rfl
  | .list n length es, h, b => by
    obtain ⟨hlength, hlt, hes⟩ := h
    rw [sprintBin, sprintElems_eq es hes hlt (by rw [hlength, Nat.zero_add]), BinSpec.pieces, sprintAll_append, sprintAll_cons,
      sprintAll_append, sprintMult_eq]
    rfl
  | .constList n vs, _, b => by
    rw [sprintBin, BinSpec.pieces, sprintAll_append, sprintMult_eq]
    rfl
  | .map n nEntries length kvs, h, b => by
    obtain ⟨hentries, -, hkvs⟩ := h
    rw [sprintBin, sprintPairs_eq kvs hkvs (by rw [hentries, Nat.zero_add]), BinSpec.pieces, sprintAll_append, sprintAll_cons,
      sprintAll_append, sprintMult_eq]
    rfl
  | .constMap n m, _, b => by
    rw [sprintBin, BinSpec.pieces, sprintAll_append, sprintMult_eq]
    rfl

theorem sprintElems_eq : ∀ (es : List BinSpec), ValidList es → ∀ {length cnt : Nat}, length < 2 ^ 32 →
    cnt + totalRepeats es = length → ∀ b, sprintElems L length cnt es b = some (sprintAll (joinPieces [','] (piecesList L es)) b)
  | [], _, length, cnt, _, hsum, b => by
    rw [totalRepeats_nil] at hsum
    rw [sprintElems, if_neg (by omega)]
    rfl
  | e :: es, ⟨hone, he, hes⟩, length, cnt, hlt, hsum, b => by
    rw [totalRepeats_cons] at hsum
    obtain ⟨hmod, hsep⟩ := count_next hes hlt hsum
    rw [sprintElems, if_pos (by omega), sprintBin_eq e he, piecesList, joinPieces_cons]
    simp only [hmod, hsep, Option.bind_eq_bind, Option.bind_some]
    exact sprintElems_eq es hes hlt (by omega) _

theorem sprintPairs_eq : ∀ (kvs : List (BinSpec × BinSpec)), ValidPairs kvs → ∀ {nEntries idx : Nat}, idx + kvs.length = nEntries →
    ∀ b, sprintPairs L nEntries idx kvs b = some (sprintAll (joinPieces [','] (piecesPairs L kvs)) b)
  | [], _, nEntries, idx, hsum, b => by
    rw [List.length_nil] at hsum
    rw [sprintPairs, if_neg (by omega)]
    rfl
  | (k, v) :: kvs, ⟨hk, hv, hkvs⟩, nEntries, idx, hsum, b => by
    rw [List.length_cons] at hsum
    have hsep : idx < nEntries - 1 ↔ kvs ≠ [] := by
      rw [← List.length_pos_iff]
      omega
    rw [sprintPairs, if_pos (by omega), sprintBin_eq k hk, piecesPairs, joinPieces_cons_pairs]
    simp only [hsep, Option.bind_eq_bind, Option.bind_some, sprintBin_eq v hv, sprintAll_append, sprintAll_cons]
    exact sprintPairs_eq kvs hkvs (by omega) _

end

/-- The loop of `snprint_obj_spec` makes the outputs of the bins. -/
theorem snprintLoop_eq (es : List BinSpec) (hes : ValidList es) {nBinSpecs cnt : Nat} (hlt : nBinSpecs < 2 ^ 32)
    (hsum : cnt + totalRepeats es = nBinSpecs) (b : OutBuf) :
    snprintLoop L nBinSpecs cnt es b = some (sprintAll (joinPieces [',', ' '] (piecesList L es)) b) := by
  induction es generalizing cnt b with
  | nil =>
    rw [totalRepeats_nil] at hsum
    rw [snprintLoop, if_neg (by omega)]
    rfl
  | cons e es ih =>
    obtain ⟨hone, he, hes⟩ := hes
    rw [totalRepeats_cons] at hsum
    obtain ⟨hmod, hsep⟩ := count_next hes hlt hsum
    -- the separator that is left out when there is no room would not be stored
    have hfull (c : OutBuf) : (if es ≠ [] ∧ 0 < c.size then sprint [',', ' '] c else c) =
        if es ≠ [] then sprint [',', ' '] c else c := by
      by_cases hroom : 0 < c.size
      · simp only [hroom, and_true]
      · rw [sprint_of_full (by omega), ite_self, ite_self]
    rw [snprintLoop, if_pos (by omega), sprintBin_eq e he, piecesList, joinPieces_cons]
    simp only [hmod, hsep, Option.bind_eq_bind, Option.bind_some, hfull]
    exact ih hes (by omega) _

/-! ## Outputs that fit -/

/-- The text stands in the buffer, with room left behind it. -/
structure Printed (size : Nat) (s : Text) (b : OutBuf) : Prop where
  fits : s.length < size
  out : b.out = s.length
  left : b.size = size - s.length
  stored : ∀ k < s.length, b.mem k = s[k]?
  clear : ∀ k, s.length < k → b.mem k = none

/-- The text did not fit: `out_str` points to the end of the buffer, which holds as much of the text as fits before a NUL. -/
structure Overrun (size : Nat) (s : Text) (b : OutBuf) : Prop where
  long : size ≤ s.length
  out : b.out = size
  left : b.size = 0
  stored : ∀ k, b.mem k = (s.take (size - 1) ++ ['\x00'])[k]?

variable {size : Nat} {s p : Text} {b : OutBuf}

theorem Printed.step (h : Printed size s b) (hp : p.length < 2 ^ 31) (hfits : (s ++ p).length < size) :
    Printed size (s ++ p) (sprint p b) := by
  have hs := h.fits
  rw [List.length_append] at hfits
  have hw : written p = p.length := if_pos hp
  have hroom : written p < b.size := by rw [hw, h.left]; omega
  have hmem : (sprint p b).mem = store b.mem s.length (p ++ ['\x00']) := by
    rw [sprint, snprintf, if_neg (by omega), h.out, List.take_of_length_le (by omega)]
  refine ⟨by rw [List.length_append]; exact hfits, ?_, ?_, ?_, ?_⟩
  · rw [out_sprint, if_pos hroom, h.out, hw, List.length_append]
  · rw [size_sprint, if_pos hroom, h.left, hw, List.length_append]
    omega
  · intro k hk
    rw [List.length_append] at hk
    rw [hmem, List.getElem?_append]
    split
    next hlt => rw [store_of_lt hlt, h.stored k hlt]
    next hge =>
      obtain ⟨i, rfl⟩ := Nat.exists_eq_add_of_le (Nat.le_of_not_lt hge)
      rw [store_add i (by simp; omega), List.getElem?_append_left (by omega), Nat.add_sub_cancel_left]
  · intro k hk
    rw [List.length_append] at hk
    rw [hmem, store_of_le (by simp; omega), h.clear k (by omega)]

theorem Printed.overrun (h : Printed size s b) (hp : p.length < 2 ^ 31) (hlong : size ≤ (s ++ p).length) :
    Overrun size (s ++ p) (sprint p b) := by
  have hs := h.fits
  rw [List.length_append] at hlong
  have hw : written p = p.length := if_pos hp
  have hroom : ¬ written p < b.size := by rw [hw, h.left]; omega
  have hmem : (sprint p b).mem = store b.mem s.length (p.take (size - 1 - s.length) ++ ['\x00']) := by
    rw [sprint, snprintf, h.left, if_neg (by omega), h.out, Nat.sub_right_comm]
  have htake : (s ++ p).take (size - 1) = s ++ p.take (size - 1 - s.length) := by
    rw [List.take_append, List.take_of_length_le (by omega)]
  refine ⟨by rw [List.length_append]; exact hlong, ?_, ?_, ?_⟩
  · rw [out_sprint, if_neg hroom, h.out, h.left]
    omega
  · rw [size_sprint, if_neg hroom]
  · intro k
    rw [hmem, htake, List.append_assoc, List.getElem?_append]
    split
    next hlt => rw [store_of_lt hlt, h.stored k hlt]
    next hge =>
      obtain ⟨i, rfl⟩ := Nat.exists_eq_add_of_le (Nat.le_of_not_lt hge)
      rw [Nat.add_sub_cancel_left]
      by_cases hi : i < (p.take (size - 1 - s.length) ++ ['\x00']).length
      · rw [store_add i hi]
      · rw [store_of_le (by omega), List.getElem?_eq_none (by omega)]
        rw [List.length_append, List.length_take, List.length_singleton] at hi
        exact h.clear _ (by omega)

theorem Overrun.step (h : Overrun size s b) (p : Text) : Overrun size (s ++ p) (sprint p b) := by
  have hlong := h.long
  rw [sprint_of_full h.left]
  refine ⟨by rw [List.length_append]; omega, h.out, h.left, ?_⟩
  intro k
  rw [h.stored k, List.take_append_of_le_length (by omega)]

end AerospikeBenchmark
