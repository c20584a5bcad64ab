import Mathlib.Tactic

/-!
# Tilings of an interval

Segments, each given by its start and its width, that fill an interval one after the other. A point of the interval lies in one
segment only.
-/

namespace Tiling

/-- Segments that fill `[lo, hi)` in order, without gap or overlap, none of them empty. -/
def Tiles : Nat → List (Nat × Nat) → Nat → Prop
  | lo, [], hi => lo = hi
  | lo, seg :: segs, hi => seg.1 = lo ∧ 0 < seg.2 ∧ Tiles (lo + seg.2) segs hi

/-- A point lies in a segment. -/
def Within (seg : Nat × Nat) (d : Nat) : Prop := seg.1 ≤ d ∧ d < seg.1 + seg.2

/-- Segments of one width. -/
def blocks (lo width n : Nat) : List (Nat × Nat) := (List.range n).map fun j => (lo + j * width, width)

variable {lo mid hi : Nat} {segs segs' : List (Nat × Nat)}

theorem Tiles.append (h : Tiles lo segs mid) (h' : Tiles mid segs' hi) : Tiles lo (segs ++ segs') hi := by
  induction segs generalizing lo with
  | nil =>
    obtain rfl : lo = mid := h
    exact h'
  | cons seg segs ih =>
    obtain ⟨hstart, hwidth, hrest⟩ := h
    exact ⟨hstart, hwidth, ih hrest⟩

theorem Tiles.start_le (h : Tiles lo segs hi) : ∀ seg ∈ segs, lo ≤ seg.1 := by
  induction segs generalizing lo with
  | nil => simp
  | cons seg segs ih =>
    obtain ⟨rfl, -, hrest⟩ := h
    intro s hs
    rcases List.mem_cons.mp hs with rfl | hs
    · exact Nat.le_refl _
    · exact Nat.le_trans (Nat.le_add_right _ _) (ih hrest s hs)

/-- Every segment ends before the later ones start, and none is empty. -/
theorem Tiles.pairwise (h : Tiles lo segs hi) : segs.Pairwise fun a b => 0 < a.2 ∧ a.1 + a.2 ≤ b.1 := by
  induction segs generalizing lo with
  | nil => exact .nil
  | cons seg segs ih =>
    obtain ⟨rfl, hwidth, hrest⟩ := h
    exact .cons (fun s hs => ⟨hwidth, hrest.start_le s hs⟩) (ih hrest)

theorem Tiles.starts_increasing (h : Tiles lo segs hi) : (segs.map Prod.fst).Pairwise (· < ·) := by
  rw [List.pairwise_map]
  exact h.pairwise.imp fun hab => by omega

/-- A point lies in one segment only. -/
theorem Tiles.within_unique (h : Tiles lo segs hi) {i j d : Nat} {a b : Nat × Nat} (hi : segs[i]? = some a) (hj : segs[j]? = some b)
    (ha : Within a d) (hb : Within b d) : i = j := by
  obtain ⟨hilt, rfl⟩ := List.getElem?_eq_some_iff.mp hi
  obtain ⟨hjlt, rfl⟩ := List.getElem?_eq_some_iff.mp hj
  have hpair := List.pairwise_iff_getElem.mp h.pairwise
  unfold Within at ha hb
  rcases Nat.lt_trichotomy i j with hlt | heq | hlt
  · have := hpair i j hilt hjlt hlt
    omega
  · exact heq
  · have := hpair j i hjlt hilt hlt
    omega

theorem tiles_blocks (lo : Nat) {width : Nat} (hwidth : 0 < width) (n : Nat) : Tiles lo (blocks lo width n) (lo + n * width) := by
  induction n with
  | zero => simp [blocks, Tiles]
  | succ n ih =>
    rw [blocks, List.range_succ, List.map_append, List.map_singleton]
    refine ih.append ⟨rfl, hwidth, ?_⟩
    rw [Tiles, Nat.succ_mul, Nat.add_assoc]

@[simp] theorem length_blocks (lo width n : Nat) : (blocks lo width n).length = n := by
  simp [blocks]

theorem getElem?_blocks (lo width : Nat) {n j : Nat} (hj : j < n) : (blocks lo width n)[j]? = some (lo + j * width, width) := by
  simp [blocks, hj]

/-- The block of a point, by division. -/
theorem within_block {lo width d : Nat} (hwidth : 0 < width) (hd : lo ≤ d) : Within (lo + (d - lo) / width * width, width) d := by
  have hdiv := Nat.div_add_mod' (d - lo) width
  have hmod := Nat.mod_lt (d - lo) hwidth
  unfold Within
  dsimp only
  omega

end Tiling
