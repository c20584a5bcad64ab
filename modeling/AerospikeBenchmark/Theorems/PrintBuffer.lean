import AerospikeBenchmark.Lemmas.Accepted
import AerospikeBenchmark.Lemmas.Print

/-!
# Printing to a buffer

A spec whose text fits is printed inside the buffer. When the text is cut, `out_str` has been moved to the end of the buffer, and the
NUL that `snprint_obj_spec` stores last lies behind it.
-/

namespace AerospikeBenchmark

open CText Snprintf

variable {L : PrintLib} {size : Nat} {s : Text} {b : OutBuf} {ps : List Text}

/-! ## All outputs -/

theorem Printed.all (h : Printed size s b) (hshort : ∀ p ∈ ps, p.length < 2 ^ 31) (hfits : (s ++ ps.flatten).length < size) :
    Printed size (s ++ ps.flatten) (sprintAll ps b) := by
  induction ps generalizing s b with
  | nil =>
    rw [List.flatten_nil, List.append_nil]
    exact h
  | cons p ps ih =>
    rw [List.flatten_cons, ← List.append_assoc] at hfits ⊢
    have hp : (s ++ p).length < size := by
      rw [List.length_append] at hfits
      omega
    exact ih (h.step (hshort p List.mem_cons_self) hp) (fun q hq => hshort q (List.mem_cons_of_mem _ hq)) hfits

theorem Overrun.all (h : Overrun size s b) : Overrun size (s ++ ps.flatten) (sprintAll ps b) := by
  induction ps generalizing s b with
  | nil =>
    rw [List.flatten_nil, List.append_nil]
    exact h
  | cons p ps ih =>
    rw [List.flatten_cons, ← List.append_assoc]
    exact ih (h.step p)

/-- Outputs of which one does not fit. -/
theorem Printed.cut (h : Printed size s b) (hshort : ∀ p ∈ ps, p.length < 2 ^ 31) (hlong : size ≤ (s ++ ps.flatten).length) :
    Overrun size (s ++ ps.flatten) (sprintAll ps b) := by
  induction ps generalizing s b with
  | nil =>
    rw [List.flatten_nil, List.append_nil] at hlong
    exact absurd h.fits (by omega)
  | cons p ps ih =>
    rw [List.flatten_cons, ← List.append_assoc] at hlong ⊢
    have hp := hshort p List.mem_cons_self
    by_cases hfits : (s ++ p).length < size
    · exact ih (h.step hp hfits) (fun q hq => hshort q (List.mem_cons_of_mem _ hq)) hlong
    · exact (h.overrun hp (by omega)).all

/-- An output that `snprintf` fails on leaves no room, like one that does not fit. -/
theorem Printed.atEnd (h : Printed size s b) (hsize : size < 2 ^ 64) (hlong : ∃ p ∈ ps, 2 ^ 31 ≤ p.length) :
    (sprintAll ps b).out = size := by
  induction ps generalizing s b with
  | nil => simp at hlong
  | cons p ps ih =>
    rw [sprintAll_cons]
    by_cases hp : p.length < 2 ^ 31
    · by_cases hfits : (s ++ p).length < size
      · refine ih (h.step hp hfits) ?_
        obtain ⟨q, hq, hqlong⟩ := hlong
        rcases List.mem_cons.mp hq with rfl | hq
        · omega
        · exact ⟨q, hq, hqlong⟩
      · exact (h.overrun hp (by omega)).all.out
    · have hw : written p = 2 ^ 64 - 1 := if_neg hp
      have hroom : ¬ written p < b.size := by
        rw [hw, h.left]
        omega
      have hfull : (sprint p b).size = 0 := by rw [size_sprint, if_neg hroom]
      have hstays : sprintAll ps (sprint p b) = sprint p b := by
        clear ih hlong
        induction ps with
        | nil => rfl
        | cons q ps ih => rw [sprintAll_cons, sprint_of_full hfull, ih]
      have hfits := h.fits
      rw [hstays, out_sprint, if_neg hroom, h.out, h.left]
      omega

/-! ## The buffer -/

/-- A buffer of `size` characters holds the longest beginning of a text that leaves room for a NUL, and the NUL. -/
structure HoldsText (size : Nat) (text : Text) (mem : Stored) : Prop where
  contents : ∀ k < (text.take (size - 1)).length, mem k = text[k]?
  terminated : mem (text.take (size - 1)).length = some '\x00'

/-- A text has been printed to a buffer: the buffer holds it as far as it fits, and nothing is stored outside. -/
structure PrintedInside (size : Nat) (text : Text) (mem : Stored) : Prop extends HoldsText size text mem where
  inside : ∀ k c, mem k = some c → k < size

theorem Printed.inside (h : Printed size s b) : PrintedInside size s (store b.mem b.out ['\x00']) := by
  have hfits := h.fits
  have htake : s.take (size - 1) = s := List.take_of_length_le (by omega)
  rw [h.out]
  refine ⟨⟨?_, ?_⟩, ?_⟩
  · intro k hk
    rw [htake] at hk
    rw [store_of_lt hk, h.stored k hk]
  · rw [htake]
    exact store_add 0 (by simp)
  · intro k c hk
    by_contra hge
    rw [store_of_le (by simp; omega), h.clear k (by omega)] at hk
    cases hk

theorem Overrun.holdsText (h : Overrun size s b) (hpos : 1 ≤ size) : HoldsText size s (store b.mem b.out ['\x00']) := by
  have hlong := h.long
  have hlen : (s.take (size - 1)).length = size - 1 := by
    rw [List.length_take]
    omega
  rw [h.out]
  refine ⟨?_, ?_⟩
  · intro k hk
    rw [store_of_lt (by omega), h.stored, List.getElem?_append_left hk, List.getElem?_take_of_lt (by omega)]
  · rw [store_of_lt (by omega), h.stored, List.getElem?_append_right (Nat.le_refl _), Nat.sub_self]
    rfl

/-- A NUL behind the end of the buffer is outside. -/
theorem not_inside_of_out (hout : b.out = size) : ¬ PrintedInside size s (store b.mem b.out ['\x00']) := by
  intro h
  have hnul : store b.mem b.out ['\x00'] size = some '\x00' := by
    rw [hout]
    exact store_add 0 (by simp)
  exact Nat.lt_irrefl size (h.inside size '\x00' hnul)

/-- `snprint_obj_spec` returns on every accepted spec. -/
theorem snprintObjSpec_eq {R : AsRandom} {str : Text} {o : ObjSpec} (h : objSpecParse R str = .ok o) (L : PrintLib) (size : Nat) :
    ∃ b, b = sprintAll (o.pieces L) ⟨fun _ => none, 0, size⟩ ∧
      snprintObjSpec L o size = some { b with mem := store b.mem b.out ['\x00'] } := by
  obtain ⟨⟨hcount, hlt, hvalid⟩, -⟩ := valid_of_accepted h
  refine ⟨_, rfl, ?_⟩
  rw [snprintObjSpec, snprintLoop_eq o.binSpecs hvalid hlt (by rw [Nat.zero_add, hcount])]
  rfl

/-- A text that fits is printed inside the buffer. -/
theorem printedInside_of_fits {R : AsRandom} {str : Text} {o : ObjSpec} (h : objSpecParse R str = .ok o)
    (hshort : ∀ p ∈ o.pieces L, p.length < 2 ^ 31) (hfits : (o.text L).length < size) :
    ∃ b, snprintObjSpec L o size = some b ∧ PrintedInside size (o.text L) b.mem := by
  obtain ⟨b, rfl, hprint⟩ := snprintObjSpec_eq h L size
  have hinit : Printed size [] ⟨fun _ => none, 0, size⟩ := ⟨Nat.zero_lt_of_lt hfits, rfl, rfl, nofun, fun _ _ => rfl⟩
  exact ⟨_, hprint, (hinit.all hshort hfits).inside⟩

/-- For every accepted spec and every size: the printer returns; unless an output is longer than `snprintf` can report, the buffer
holds the text as far as it fits; and nothing is stored outside exactly when the whole text fits. -/
theorem printed_inside_iff (R : AsRandom) (L : PrintLib) (str : Text) (o : ObjSpec) (h : objSpecParse R str = .ok o) (size : Nat)
    (hpos : 1 ≤ size) (hsize : size < 2 ^ 64) :
    ∃ b, snprintObjSpec L o size = some b ∧
      ((∀ p ∈ o.pieces L, p.length < 2 ^ 31) → HoldsText size (o.text L) b.mem) ∧
      (PrintedInside size (o.text L) b.mem ↔ (o.text L).length < size ∧ ∀ p ∈ o.pieces L, p.length < 2 ^ 31) := by
  obtain ⟨b, hb, hprint⟩ := snprintObjSpec_eq h L size
  have hinit : Printed size [] ⟨fun _ => none, 0, size⟩ := ⟨hpos, rfl, rfl, nofun, fun _ _ => rfl⟩
  by_cases hshort : ∀ p ∈ o.pieces L, p.length < 2 ^ 31
  · by_cases hfits : (o.text L).length < size
    · obtain ⟨b', hb', hinside⟩ := printedInside_of_fits h hshort hfits
      exact ⟨b', hb', fun _ => hinside.toHoldsText, fun _ => ⟨hfits, hshort⟩, fun _ => hinside⟩
    · have hcut : Overrun size (o.text L) b := hb ▸ hinit.cut hshort (Nat.le_of_not_lt hfits)
      exact ⟨_, hprint, fun _ => hcut.holdsText hpos, fun hin => absurd hin (not_inside_of_out hcut.out), fun hin => absurd hin.1 hfits⟩
  · have hout : b.out = size := hb ▸ hinit.atEnd hsize (by simpa using hshort)
    exact ⟨_, hprint, fun hall => absurd hall hshort, fun hin => absurd hin (not_inside_of_out hout), fun hin => absurd hin.2 hshort⟩

/-- A boolean printed to a buffer of two characters. -/
theorem printed_inside_bool :
    ∃ b, snprintObjSpec ⟨fun _ => [], fun _ => []⟩ ⟨[.scalar 1 .bool], 1⟩ 2 = some b ∧ PrintedInside 2 ['b'] b.mem := by
  obtain ⟨b, hb, -, hinside⟩ := printed_inside_iff .littleEndian ⟨fun _ => [], fun _ => []⟩ ['b'] ⟨[.scalar 1 .bool], 1⟩
    (by decide +kernel) 2 (by decide) (by decide)
  exact ⟨b, hb, hinside.mpr ⟨by decide, by decide⟩⟩

/-- In a buffer of one character the text is cut, and a NUL is stored behind the buffer. -/
theorem cut_text_stored_outside :
    objSpecParse .littleEndian ['b'] = .ok ⟨[.scalar 1 .bool], 1⟩ ∧
    ∃ b, snprintObjSpec ⟨fun _ => [], fun _ => []⟩ ⟨[.scalar 1 .bool], 1⟩ 1 = some b ∧ b.mem 1 = some '\x00' ∧
      ¬ PrintedInside 1 ['b'] b.mem := by
  refine ⟨by decide +kernel, _, rfl, rfl, ?_⟩
  intro h
  exact absurd (h.inside 1 '\x00' rfl) (by decide)

end AerospikeBenchmark
