import AerospikeBenchmark.Lemmas.ConstGen
import AerospikeBenchmark.Lemmas.Token

/-!
# Trees that are read are well-formed
-/

namespace AerospikeBenchmark

open CText SpecTree

theorem repeatConstKey_eq_false_iff {seen : List Leaf} {c : Scalar} :
    repeatConstKey (seen.map Leaf.build) c = false ↔ ∀ a ∈ seen, sameConstKey a.type c = false := by
  simp [repeatConstKey, Leaf.build]

theorem sameConstKey_of_not_const {a c : Scalar} (h : c.isConst = false) : sameConstKey a c = false := by
  cases c <;> simp [Scalar.isConst, Scalar.constVal?] at h <;> cases a <;> rfl

namespace SpecTree

/-- The leaf that `readElement` finds. -/
theorem leafOk_of_readElement {role : Role} {delim : Char} {s s' : Text} {l : Leaf}
    (h : readElement role delim s = .ok (l.mult, .scalar l.type, s')) : LeafOk l := by
  obtain ⟨h1, h2, -, h4, -⟩ := readElement_ok h
  exact ⟨h1, h2, h4.inRange⟩

/-- Every list whose elements are read is well-formed, if each element that is read is. -/
theorem wfList_of_readsElems {delim : Char} {ts : List SpecTree} (ih : ∀ t ∈ ts, ∀ s s', Reads .elem delim t s s' → t.WF) :
    ∀ {s s'}, ReadsElems delim ts s s' → WFList ts := by
  induction ts with
  | nil => exact fun _ => trivial
  | cons t ts ihts =>
    rintro s s' ⟨-, s₁, s₂, ht, -, hts⟩
    exact ⟨ih t List.mem_cons_self _ _ ht, ihts (fun t' h' => ih t' (List.mem_cons_of_mem _ h')) hts⟩

/-- The pairs of a map that are read are well-formed, their keys are `KeysOk`, and no constant key repeats one seen before. -/
theorem wfPairs_of_readsPairs {kvs : List (Leaf × SpecTree)}
    (ih : ∀ p ∈ kvs, ∀ s s', Reads .val '\x7d' p.2 s s' → p.2.WF ∧ p.2.mult = 1) :
    ∀ {seen : List Leaf} {s s' : Text}, ReadsPairs seen kvs s s' →
      WFPairs kvs ∧ KeysOk (kvs.map Prod.fst) ∧ ∀ a ∈ seen, ∀ p ∈ kvs, sameConstKey a.type p.1.type = false := by
  induction kvs with
  | nil => exact fun _ => ⟨trivial, ⟨by simp, by simp, by simp⟩, by simp⟩
  | cons p kvs ihkvs =>
    obtain ⟨k, v⟩ := p
    rintro seen s s' ⟨-, s₁, s₂, hk, -, -, hv, hrest⟩
    obtain ⟨-, -, -, hread, -⟩ := readElement_ok hk
    have hfresh : ∀ a ∈ seen, sameConstKey a.type k.type = false := by
      cases hc : k.type.isConst with
      | false => exact fun a _ => sameConstKey_of_not_const hc
      | true => exact repeatConstKey_eq_false_iff.mp (hread.keyFresh _ rfl hc)
    obtain ⟨hvwf, hvone⟩ := ih (k, v) List.mem_cons_self _ _ hv
    rcases hrest with ⟨rfl, -, -⟩ | ⟨-, hrest⟩
    · refine ⟨⟨leafOk_of_readElement hk, hvwf, hvone, trivial⟩, ⟨?_, ?_, ?_⟩, ?_⟩
      · simpa using hread.keyType rfl
      · simpa using hread.keyMult rfl
      · simp
      · simpa using hfresh
    · obtain ⟨hwf, hkeys, hseen⟩ := ihkvs (fun p hp => ih p (List.mem_cons_of_mem _ hp)) hrest
      refine ⟨⟨leafOk_of_readElement hk, hvwf, hvone, hwf⟩, ⟨?_, ?_, ?_⟩, ?_⟩
      · simp only [List.map_cons, List.mem_cons, forall_eq_or_imp]
        exact ⟨hread.keyType rfl, hkeys.keyType⟩
      · simp only [List.map_cons, List.mem_cons, forall_eq_or_imp]
        exact ⟨hread.keyMult rfl, hkeys.constMult⟩
      · simp only [List.map_cons, List.pairwise_cons]
        refine ⟨?_, hkeys.distinct⟩
        intro b hb
        obtain ⟨q, hq, rfl⟩ := List.mem_map.mp hb
        exact hseen k (by simp) q hq
      · intro a ha q hq
        rcases List.mem_cons.mp hq with rfl | hq
        · exact hfresh a ha
        · exact hseen a (by simp [ha]) q hq

/-- A tree that is read is well-formed, and has no multiplier if it is a map value. -/
theorem wf_of_reads (t : SpecTree) :
    ∀ role delim s s', Reads role delim t s s' → t.WF ∧ (role.isVal = true → t.mult = 1) := by
  induction t using SpecTree.induct with
  | leaf l =>
    intro role delim s s' h
    obtain ⟨-, -, h3, -, -⟩ := readElement_ok h
    exact ⟨leafOk_of_readElement h, h3⟩
  | list n es ih =>
    rintro role delim s s' ⟨s₁, s₂, h, hes, hlt, -⟩
    obtain ⟨h1, h2, h3, -, -⟩ := readElement_ok h
    exact ⟨⟨h1, h2, hlt, wfList_of_readsElems (fun t ht s s' h => (ih t ht _ _ s s' h).1) hes⟩, h3⟩
  | map n kvs ih =>
    rintro role delim s s' ⟨s₁, s₂, h, hkvs, hlt, -⟩
    obtain ⟨h1, h2, h3, -, -⟩ := readElement_ok h
    have hval : ∀ p ∈ kvs, ∀ s s', Reads .val '\x7d' p.2 s s' → p.2.WF ∧ p.2.mult = 1 := by
      intro p hp s s' h
      obtain ⟨hwf, hone⟩ := ih p hp _ _ s s' h
      exact ⟨hwf, hone rfl⟩
    obtain ⟨hwf, hkeys, -⟩ := wfPairs_of_readsPairs hval hkvs
    exact ⟨⟨h1, h2, hlt, hkeys, hwf⟩, h3⟩

/-- The trees of a list that is read are well-formed. -/
theorem ReadsElems.wfList {delim : Char} {ts : List SpecTree} {s s' : Text} (h : ReadsElems delim ts s s') : WFList ts :=
  wfList_of_readsElems (fun t _ s s' h => (wf_of_reads t _ _ s s' h).1) h

/-- The pairs of a map that is read have keys that are `KeysOk`. -/
theorem ReadsPairs.keysOk {seen : List Leaf} {kvs : List (Leaf × SpecTree)} {s s' : Text} (h : ReadsPairs seen kvs s s') :
    KeysOk (kvs.map Prod.fst) := by
  have hval : ∀ p ∈ kvs, ∀ s s', Reads .val '\x7d' p.2 s s' → p.2.WF ∧ p.2.mult = 1 := by
    intro p _ s s' h
    obtain ⟨hwf, hone⟩ := wf_of_reads p.2 _ _ s s' h
    exact ⟨hwf, hone rfl⟩
  exact (wfPairs_of_readsPairs hval h).2.1

theorem ReadsElems.peek_end {delim : Char} : ∀ {ts : List SpecTree} {s s' : Text}, ReadsElems delim ts s s' → peek s' = delim
  | [], _, _, ⟨h, h'⟩ => h' ▸ h
  | _ :: _, _, _, ⟨_, _, _, _, _, h⟩ => h.peek_end

theorem ReadsPairs.peek_end : ∀ {kvs : List (Leaf × SpecTree)} {seen : List Leaf} {s s' : Text},
    ReadsPairs seen kvs s s' → peek s' = '\x7d'
  | [], _, _, _, ⟨_, h, h'⟩ => h' ▸ h
  | _ :: _, _, _, _, ⟨_, _, _, _, _, _, _, .inl ⟨_, h, h'⟩⟩ => h' ▸ h
  | _ :: _, _, _, _, ⟨_, _, _, _, _, _, _, .inr ⟨_, h⟩⟩ => h.peek_end

/-! ## One tree for one text -/

/-- A scalar that is read is the only tree that can be read there. -/
theorem reads_scalar {role : Role} {delim : Char} {t : SpecTree} {s s' r : Text} {n : Nat} {c : Scalar}
    (h : readElement role delim s = .ok (n, .scalar c, r)) (ht : Reads role delim t s s') : t = .leaf ⟨n, c⟩ ∧ s' = r := by
  cases t with
  | leaf l =>
    obtain ⟨rfl, rfl, rfl⟩ : n = l.mult ∧ c = l.type ∧ r = s' := by
      have := h.symm.trans ht
      simpa using this
    exact ⟨rfl, rfl⟩
  | list m es =>
    obtain ⟨s₁, s₂, hopen, -⟩ := ht
    exact absurd (h.symm.trans hopen) (by simp)
  | map m kvs =>
    obtain ⟨s₁, s₂, hopen, -⟩ := ht
    exact absurd (h.symm.trans hopen) (by simp)

/-- Where a list opens, only a list can be read. -/
theorem reads_list {role : Role} {delim : Char} {t : SpecTree} {s s' r : Text} {n : Nat}
    (h : readElement role delim s = .ok (n, .openList, r)) (ht : Reads role delim t s s') :
    ∃ es s₂, t = .list n es ∧ ReadsElems ']' es r s₂ ∧ s' = s₂.tail := by
  cases t with
  | leaf l => exact absurd (h.symm.trans ht) (by simp)
  | list m es =>
    obtain ⟨s₁, s₂, hopen, hes, -, rfl⟩ := ht
    obtain ⟨rfl, rfl⟩ : n = m ∧ r = s₁ := by simpa using h.symm.trans hopen
    exact ⟨es, s₂, rfl, hes, rfl⟩
  | map m kvs =>
    obtain ⟨s₁, s₂, hopen, -⟩ := ht
    exact absurd (h.symm.trans hopen) (by simp)

/-- Where a map opens, only a map can be read. -/
theorem reads_map {role : Role} {delim : Char} {t : SpecTree} {s s' r : Text} {n : Nat}
    (h : readElement role delim s = .ok (n, .openMap, r)) (ht : Reads role delim t s s') :
    ∃ kvs s₂, t = .map n kvs ∧ ReadsPairs [] kvs r s₂ ∧ s' = s₂.tail := by
  cases t with
  | leaf l => exact absurd (h.symm.trans ht) (by simp)
  | list m es =>
    obtain ⟨s₁, s₂, hopen, -⟩ := ht
    exact absurd (h.symm.trans hopen) (by simp)
  | map m kvs =>
    obtain ⟨s₁, s₂, hopen, hkvs, -, rfl⟩ := ht
    obtain ⟨rfl, rfl⟩ : n = m ∧ r = s₁ := by simpa using h.symm.trans hopen
    exact ⟨kvs, s₂, rfl, hkvs, rfl⟩

end SpecTree

end AerospikeBenchmark
