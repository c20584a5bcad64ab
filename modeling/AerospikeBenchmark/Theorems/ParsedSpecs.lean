import AerospikeBenchmark.Lemmas.Accepted
import AerospikeBenchmark.Lib.CountLoop
import AerospikeBenchmark.ObjectSpec.Free
import AerospikeBenchmark.ObjectSpec.Layout

/-!
# The layout of parsed specs

Every spec that the parser stores has the counts its arrays need, at every depth; so a loop that counts elements visits exactly the
entries of the array.
-/

namespace AerospikeBenchmark

open CText Words SpecTree CountLoop

/-! ## The loops of the program -/

/-- The loop of `_gen_random_list` counts elements. -/
theorem genRandomList_eq_countLoop (R : AsRandom) (cLen : Nat → Nat) (es : List BinSpec) (length cnt : Nat) (acc : List AsVal) :
    (acc ++ ·) <$> genRandomList R cLen es length cnt =
      countLoop BinSpec.nRepeats (fun vs e => (vs ++ ·) <$> repeatGen (binSpecRandomVal R cLen e) e.nRepeats) (stop .outOfBounds)
        length cnt es acc := by
  induction es generalizing cnt acc with
  | nil =>
    rw [genRandomList, countLoop]
    split
    · rfl
    · rw [map_pure, List.append_nil]
  | cons e es ih =>
    rw [genRandomList, countLoop]
    split
    · rw [bind_map_left, map_bind]
      congr 1
      funext vs
      rw [← ih]
      simp only [map_eq_pure_bind, bind_assoc, pure_bind, List.append_assoc]
    · rw [map_pure, List.append_nil]

/-- So does the loop of `bin_spec_free` over a list and that of `obj_spec_free`. -/
theorem freeLoop_eq_countLoop (es : List BinSpec) (length cnt i : Nat) (acc : List BlockPath) :
    (freeLoop length cnt (elemEntries i es)).map (acc ++ ·) =
      (countLoop BinSpec.nRepeats (fun s e => (binSpecFree e).map fun ps => (s.1 + 1, s.2 ++ ps.map (.elem s.1 :: ·))) none length
        cnt es (i, acc)).map Prod.snd := by
  induction es generalizing cnt i acc with
  | nil =>
    rw [elemEntries, freeLoop, countLoop]
    split <;> simp
  | cons e es ih =>
    rw [elemEntries, freeLoop, countLoop]
    split
    · cases hfree : binSpecFree e with
      | none => rfl
      | some ps =>
        simp only [Option.map_some, Option.bind_eq_bind, Option.bind_some, ← ih]
        cases freeLoop length ((cnt + e.nRepeats) % 2 ^ 32) (elemEntries (i + 1) es) with
        | none => rfl
        | some qs => simp
    · simp

/-! ## Maps -/

theorem keyOk_build {k : Leaf} {ks : List Leaf} (h : KeysOk ks) (hk : k ∈ ks) : k.build.KeyOk :=
  ⟨h.keyType k hk, h.constMult k hk⟩

/-- Keys that are not repeated have different values. -/
theorem constKey_ne {a b : Leaf} (ha : a.type.isKeyType = true) (h : sameConstKey a.type b.type = false) (v w : AsVal)
    (hv : a.build.constKey? = some v) (hw : b.build.constKey? = some w) : v ≠ w := by
  rintro rfl
  have hav : a.type.constVal? = some v := hv
  have hbv : b.type.constVal? = some v := hw
  have heq : leafVal a = leafVal b := by rw [leafVal, leafVal, hav, hbv]
  have hsame := sameConstKey_of_leafVal_eq (by rw [Scalar.isConst, hav]; rfl) (by rw [Scalar.isConst, hbv]; rfl) ha heq
  rw [h] at hsame
  cases hsame

theorem isKey_leafVal {k : Leaf} (hk : k.type.isKeyType = true) (hc : k.type.isConst = true) : (leafVal k).IsKey := by
  obtain ⟨n, s⟩ := k
  cases s with
  | constInt v => trivial
  | constStr v => trivial
  | int | str | bytes => cases hc
  | bool | double | constBool | constDouble => cases hk

/-- The map spec of well-formed pairs. -/
theorem laidOut_map {n : Nat} {kvs : List (Leaf × SpecTree)} (h : (SpecTree.map n kvs).WF) : (build (.map n kvs)).LaidOut := by
  obtain ⟨hpos, -, htot, hkeys, hwf⟩ := h
  rw [build]
  split
  next hconst =>
    have hall := isConst_of_allConstPairs hconst
    rw [constEntries_eq_map]
    refine ⟨hpos, ?_, ?_⟩
    · intro p hp
      obtain ⟨q, hq, rfl⟩ := List.mem_map.mp hp
      exact isKey_leafVal (hkeys.keyType _ (List.mem_map_of_mem hq)) (hall q hq).1
    · have hnodup := nodup_leafVals hkeys (by simpa using fun a b hab => (hall (a, b) hab).1)
      rw [List.map_map] at hnodup ⊢
      exact hnodup
  next =>
    rw [buildPairs_eq_map]
    refine ⟨hpos, ?_, ?_, htot, ?_, ?_⟩
    · rw [List.length_map]
    · rw [totalKeyRepeats, List.map_map]
      rfl
    · intro p hp
      obtain ⟨q, hq, rfl⟩ := List.mem_map.mp hp
      exact ⟨(nRepeats_build q.2).trans (mult_of_mem_pairs hwf q hq), keyOk_build hkeys (List.mem_map_of_mem hq)⟩
    · rw [List.pairwise_map]
      have hdist := hkeys.distinct
      rw [List.pairwise_map] at hdist
      refine hdist.imp_of_mem ?_
      intro p q hp _ hpq
      exact constKey_ne (hkeys.keyType _ (List.mem_map_of_mem hp)) hpq

/-! ## Every depth -/

/-- Whatever occurs in the spec of a well-formed tree is laid out. -/
theorem laidOut_of_occurs {x : BinSpec} (t : SpecTree) (hwf : t.WF) (h : x.Occurs t.build) : x.LaidOut := by
  induction t using SpecTree.induct with
  | leaf l =>
    cases h
    exact LeafOk.pos hwf
  | list n es ih =>
    obtain ⟨hpos, -, htot, hes⟩ := hwf
    rw [build] at h
    split at h
    · cases h
      exact hpos
    · rw [buildList_eq_map] at h
      cases h with
      | here => exact ⟨hpos, (totalRepeats_map_build es).symm, htot⟩
      | elem he h =>
        obtain ⟨t, ht, rfl⟩ := List.mem_map.mp he
        exact ih t ht (wf_of_mem hes t ht) h
  | map n kvs ih =>
    have hmap := laidOut_map hwf
    obtain ⟨-, -, -, -, hkvs⟩ := hwf
    rw [build] at h hmap
    split at h
    next hconst =>
      rw [if_pos hconst] at hmap
      cases h
      exact hmap
    next hconst =>
      rw [if_neg hconst] at hmap
      rw [buildPairs_eq_map] at h hmap
      cases h with
      | here => exact hmap
      | key hp h =>
        obtain ⟨q, hq, rfl⟩ := List.mem_map.mp hp
        cases h
        exact (leafOk_of_mem_pairs hkvs q hq).pos
      | val hp h =>
        obtain ⟨q, hq, rfl⟩ := List.mem_map.mp hp
        exact ih q hq (wf_of_mem_pairs hkvs q hq) h

/-- The multipliers of the elements of a list. -/
theorem pos_of_occurs {n length : Nat} {es : List BinSpec} (h : ∀ x, BinSpec.Occurs x (.list n length es) → x.LaidOut) :
    ∀ e ∈ es, 1 ≤ e.nRepeats := by
  intro e he
  have hlaid := h e (.elem he .here)
  cases e with
  | scalar | constList => exact hlaid
  | list | map | constMap => exact hlaid.1

/-- The representation invariant. In an accepted object spec, taken as the list of its bins, every spec that occurs is laid out; and
every loop over the elements of a list that occurs, the top level included, runs its body on exactly these elements. -/
theorem parsed_specs_laid_out (R : AsRandom) (str : Text) (o : ObjSpec) (h : objSpecParse R str = .ok o) :
    (∀ x, BinSpec.Occurs x (.list 1 o.nBinSpecs o.binSpecs) → x.LaidOut) ∧
    ∀ n length es, BinSpec.Occurs (.list n length es) (.list 1 o.nBinSpecs o.binSpecs) →
      ∀ (m : Type → Type) [Monad m] (σ : Type) (body : σ → BinSpec → m σ) (leave : m σ) (s : σ),
        countLoop BinSpec.nRepeats body leave length 0 es s = es.foldlM body s := by
  obtain ⟨ts, s', hreads, htot, rfl⟩ := objSpecParse_ok_iff.mp h
  have hwf := hreads.wfList
  have hall (x : BinSpec) (hx : x.Occurs (.list 1 (total ts) (ts.map build))) : x.LaidOut := by
    cases hx with
    | here => exact ⟨le_refl 1, (totalRepeats_map_build ts).symm, htot⟩
    | elem he hx =>
      obtain ⟨t, ht, rfl⟩ := List.mem_map.mp he
      exact laidOut_of_occurs t (wf_of_mem hwf t ht) hx
  refine ⟨hall, ?_⟩
  intro n length es hlist m _ σ body leave s
  obtain ⟨-, hlength, hlt⟩ := hall _ hlist
  have hpos := pos_of_occurs fun x hx => hall x (hx.trans hlist)
  exact countLoop_eq_foldlM BinSpec.nRepeats body leave hlt hpos ((Nat.zero_add _).trans hlength.symm) s

/-- Two lists of three integers and a map. -/
def nestedBins : List BinSpec := [.list 2 4 [.scalar 3 (.int 3), .map 1 1 2 [(.scalar 2 (.str 1), .scalar 1 .bool)]]]

theorem parsed_specs_laid_out_nested :
    (∀ x, BinSpec.Occurs x (.list 1 2 nestedBins) → x.LaidOut) ∧
    ∀ n length es, BinSpec.Occurs (.list n length es) (.list 1 2 nestedBins) →
      ∀ (m : Type → Type) [Monad m] (σ : Type) (body : σ → BinSpec → m σ) (leave : m σ) (s : σ),
        countLoop BinSpec.nRepeats body leave length 0 es s = es.foldlM body s :=
  parsed_specs_laid_out .littleEndian "2*[3*I,\x7b2*S1:b\x7d]".toList ⟨nestedBins, 2⟩ (by decide +kernel)

end AerospikeBenchmark
