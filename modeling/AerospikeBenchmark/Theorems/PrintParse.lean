import AerospikeBenchmark.Theorems.ParserCompleteness
import AerospikeBenchmark.Theorems.PrintBuffer
import AerospikeBenchmark.ObjectSpec.Layout

/-!
# Printing and parsing

A spec without constants is printed as one of its renderings when no multiplier exceeds `INT_MAX`, so it is parsed to itself. A larger
multiplier is printed as a negative number, which the parser takes for a constant; the star behind it is then an error.
-/

namespace AerospikeBenchmark

open CText Snprintf SpecTree

variable {L : PrintLib}

/-- A spec that is no constant: neither a constant scalar nor a folded collection. -/
def BinSpec.NotConst : BinSpec → Prop
  | .scalar _ s => s.isConst = false
  | .list _ _ _ | .map _ _ _ _ => True
  | .constList _ _ | .constMap _ _ => False

/-- A multiplier that `%d` prints as it is. -/
def BinSpec.SmallMult (e : BinSpec) : Prop := e.nRepeats < 2 ^ 31

/-! ## Texts -/

theorem flatten_joinPieces_cons (sep : Text) (p : List Text) (ps : List (List Text)) :
    (joinPieces sep (p :: ps)).flatten = p.flatten ++ if ps = [] then [] else sep ++ (joinPieces sep ps).flatten := by
  cases ps with
  | nil => simp [joinPieces]
  | cons q ps => simp [joinPieces]

/-- The text of the bins of some trees. -/
def elemsText (L : PrintLib) (sep : Text) (ts : List SpecTree) : Text := (joinPieces sep (piecesList L (ts.map build))).flatten

theorem elemsText_cons (sep : Text) (t : SpecTree) (ts : List SpecTree) :
    elemsText L sep (t :: ts) = t.build.text L ++ if ts = [] then [] else sep ++ elemsText L sep ts := by
  rw [elemsText, List.map_cons, piecesList, flatten_joinPieces_cons]
  cases ts <;> rfl

/-- The text of the pairs of a map. -/
def pairsText (L : PrintLib) (kvs : List (Leaf × SpecTree)) : Text :=
  (joinPieces [','] (piecesPairs L (kvs.map fun p => (p.1.build, p.2.build)))).flatten

theorem pairsText_cons (p : Leaf × SpecTree) (kvs : List (Leaf × SpecTree)) :
    pairsText L (p :: kvs) =
      p.1.build.text L ++ (':' :: p.2.build.text L ++ if kvs = [] then [] else ',' :: pairsText L kvs) := by
  rw [pairsText, List.map_cons, piecesPairs, flatten_joinPieces_cons, List.flatten_append, List.flatten_cons, List.append_assoc]
  cases kvs <;> rfl

theorem text_scalar (n : Nat) (s : Scalar) : BinSpec.text L (.scalar n s) = (multPieces n).flatten ++ scalarText L s := by
  simp [BinSpec.text, BinSpec.pieces]

theorem text_list (n length : Nat) (ts : List SpecTree) :
    BinSpec.text L (.list n length (ts.map build)) = (multPieces n).flatten ++ '[' :: (elemsText L [','] ts ++ [']']) := by
  simp [BinSpec.text, BinSpec.pieces, elemsText]

theorem text_map (n nEntries length : Nat) (kvs : List (Leaf × SpecTree)) :
    BinSpec.text L (.map n nEntries length (kvs.map fun p => (p.1.build, p.2.build))) =
      (multPieces n).flatten ++ '\x7b' :: (pairsText L kvs ++ ['\x7d']) := by
  simp [BinSpec.text, BinSpec.pieces, pairsText]

/-! ## Renderings -/

theorem numeral_toDigits (n : Nat) : Numeral n (Nat.toDigits 10 n) := ⟨isNumeral_toDigits n, digitsVal_toDigits n⟩

theorem multText_of_lt {n : Nat} (h : n < 2 ^ 31) : multText n = Nat.toDigits 10 n ++ ['*'] := by
  rw [multText, asInt32_of_lt h, decimal_natCast]

theorem rendersMult_multPieces {n : Nat} (h : n < 2 ^ 31) : RendersMult n (multPieces n).flatten := by
  unfold multPieces
  split
  next hone => exact .inl ⟨hone, rfl⟩
  next => exact .inr ⟨Nat.toDigits 10 n, [], [], numeral_toDigits n, .inl rfl, .inl rfl, by simp [multText_of_lt h]⟩

theorem rendersScalar_scalarText {s : Scalar} (hs : s.isConst = false) (hin : s.InRange) : RendersScalar s (scalarText L s) := by
  cases s with
  | bool => rfl
  | int range =>
    have hall : ∀ r : Fin 8, Nat.toDigits 10 (r + 1) = [Char.ofNat (r + 49)] := by decide
    have hdigit := hall ⟨range, Nat.lt_succ_of_le hin⟩
    exact .inl (congrArg ('I' :: ·) hdigit)
  | str length => exact ⟨_, numeral_toDigits length, rfl⟩
  | bytes length => exact ⟨_, numeral_toDigits length, rfl⟩
  | double => rfl
  | constBool | constInt | constStr | constDouble => cases hs

theorem rendersLeaf_text {l : Leaf} (hl : LeafOk l) (hc : l.type.isConst = false) (hsmall : l.mult < 2 ^ 31) :
    RendersLeaf l (l.build.text L) :=
  ⟨_, _, rendersMult_multPieces hsmall, rendersScalar_scalarText hc hl.inRange, text_scalar l.mult l.type⟩

theorem rendersElems_text {g : Text} (hg : Gap g) {ts : List SpecTree} (h : ∀ t ∈ ts, Renders t (t.build.text L)) :
    RendersElems ts (elemsText L (',' :: g) ts) := by
  induction ts with
  | nil => rfl
  | cons t ts ih =>
    have hrest := ih fun u hu => h u (List.mem_cons_of_mem _ hu)
    refine ⟨_, _, h t List.mem_cons_self, elemsText_cons _ t ts, ?_⟩
    by_cases hnil : ts = []
    · exact .inl ⟨hnil, .inl (if_pos hnil)⟩
    · exact .inr ⟨hnil, g, _, hg, hrest, if_neg hnil⟩

theorem rendersPairs_text {kvs : List (Leaf × SpecTree)}
    (h : ∀ p ∈ kvs, RendersLeaf p.1 (p.1.build.text L) ∧ Renders p.2 (p.2.build.text L)) : RendersPairs kvs (pairsText L kvs) := by
  induction kvs with
  | nil => rfl
  | cons p kvs ih =>
    have hrest := ih fun q hq => h q (List.mem_cons_of_mem _ hq)
    obtain ⟨hk, hv⟩ := h p List.mem_cons_self
    obtain ⟨k, v⟩ := p
    refine ⟨_, [], [], _, [], _, hk, .inl rfl, .inl rfl, hv, .inl rfl, pairsText_cons _ kvs, ?_⟩
    by_cases hnil : kvs = []
    · exact .inl ⟨hnil, if_pos hnil⟩
    · exact .inr ⟨hnil, [], _, .inl rfl, hrest, if_neg hnil⟩

/-- The spec of a tree without constants is stored as it is, and its parts have no constants either. -/
theorem build_of_notConst {t : SpecTree} (h : t.build.Everywhere BinSpec.NotConst) :
    match t with
    | .leaf l => l.type.isConst = false
    | .list n es => build (.list n es) = .list n (total es) (es.map build) ∧ ∀ e ∈ es, e.build.Everywhere BinSpec.NotConst
    | .map n kvs => build (.map n kvs) = .map n kvs.length (keyTotal kvs) (kvs.map fun p => (p.1.build, p.2.build)) ∧
        ∀ p ∈ kvs, p.1.type.isConst = false ∧ p.2.build.Everywhere BinSpec.NotConst := by
  cases t with
  | leaf l => exact everywhere_scalar.mp h
  | list n es =>
    rw [build] at h
    split at h
    · exact (h _ .here).elim
    next hc =>
      rw [buildList_eq_map] at h
      refine ⟨by rw [build, if_neg hc, buildList_eq_map], ?_⟩
      intro e he
      exact (everywhere_list.mp h).2 _ (List.mem_map_of_mem he)
  | map n kvs =>
    rw [build] at h
    split at h
    · exact (h _ .here).elim
    next hc =>
      rw [buildPairs_eq_map] at h
      refine ⟨by rw [build, if_neg hc, buildPairs_eq_map], ?_⟩
      intro p hp
      obtain ⟨hk, hv⟩ := (everywhere_map.mp h).2 _ (List.mem_map_of_mem hp)
      exact ⟨everywhere_scalar.mp hk, hv⟩

/-- A tree without constants and with small multipliers is printed as a rendering. -/
theorem renders_text (t : SpecTree) (hwf : t.WF) (hc : t.build.Everywhere BinSpec.NotConst)
    (hsmall : t.build.Everywhere BinSpec.SmallMult) : Renders t (t.build.text L) := by
  induction t using SpecTree.induct with
  | leaf l => exact rendersLeaf_text hwf (build_of_notConst hc) (everywhere_scalar.mp hsmall)
  | list n es ih =>
    obtain ⟨-, -, -, hes⟩ := hwf
    obtain ⟨hbuild, hces⟩ := build_of_notConst hc
    rw [hbuild] at hsmall ⊢
    obtain ⟨hn, hsmalls⟩ := everywhere_list.mp hsmall
    have hbody := rendersElems_text (L := L) (g := []) (.inl rfl) fun t ht =>
      ih t ht (wf_of_mem hes t ht) (hces t ht) (hsmalls _ (List.mem_map_of_mem ht))
    exact ⟨_, [], _, rendersMult_multPieces hn, .inl rfl, hbody, text_list n _ es⟩
  | map n kvs ih =>
    obtain ⟨-, -, -, -, hkvs⟩ := hwf
    obtain ⟨hbuild, hckvs⟩ := build_of_notConst hc
    rw [hbuild] at hsmall ⊢
    obtain ⟨hn, hsmalls⟩ := everywhere_map.mp hsmall
    have hbody : RendersPairs kvs (pairsText L kvs) := by
      refine rendersPairs_text fun p hp => ?_
      obtain ⟨hk, hv⟩ := hsmalls _ (List.mem_map_of_mem hp)
      exact ⟨rendersLeaf_text (leafOk_of_mem_pairs hkvs p hp) (hckvs p hp).1 (everywhere_scalar.mp hk),
        ih p hp (wf_of_mem_pairs hkvs p hp) (hckvs p hp).2 hv⟩
    exact ⟨_, [], _, rendersMult_multPieces hn, .inl rfl, hbody, text_map n _ _ kvs⟩

/-! ## Large multipliers -/

theorem multText_of_le {n : Nat} (h : 2 ^ 31 ≤ n) (h' : n < 2 ^ 32) :
    multText n = '-' :: (Nat.toDigits 10 (2 ^ 32 - n) ++ ['*']) := by
  rw [multText, asInt32_of_le h h', decimal_neg (by omega)]
  rfl

/-- A minus in front of a number with a star behind it is no multiplier, but a constant up to the star. -/
theorem parseConstVal_minus (role : Role) (delim : Char) {ds r : Text} (hds : IsNumeral 10 ds) (hv : digitsVal 10 ds ≤ 2 ^ 63)
    (hp : '.' ∉ ds ++ '*' :: r) : ∃ v, parseConstVal role delim ('-' :: (ds ++ '*' :: r)) = .ok (.constInt v, '*' :: r) := by
  have hwindow : '.' ∉ numberWindow delim ('-' :: (ds ++ '*' :: r)) := by
    intro hmem
    have hmem' := (List.takeWhile_sublist _).subset hmem
    rcases List.mem_cons.mp hmem' with hc | hc
    · cases hc
    · exact hp hc
  have hneg : signedVal 10 ['-'] ds = -(digitsVal 10 ds : Int) := if_pos rfl
  have hscan := strtol_numeral (by omega) (by omega) (.inr (.inr rfl)) hds (r := '*' :: r) (by rfl : isDigit 10 '*' = false)
    (by rw [hneg]; omega) (by rw [hneg]; omega)
  rw [List.singleton_append] at hscan
  refine ⟨signedVal 10 ['-'] ds, ?_⟩
  simp only [parseConstVal, peek_cons, hwindow, constInteger, hscan, if_false, Char.reduceEq, false_and, or_self]
  rfl

theorem peek_of_readElement_minus {role : Role} {delim : Char} {ds r s' : Text} {n : Nat} {tok : Token} (hds : IsNumeral 10 ds)
    (hv : digitsVal 10 ds ≤ 2 ^ 63) (hp : '.' ∉ ds ++ '*' :: r)
    (h : readElement role delim ('-' :: (ds ++ '*' :: r)) = .ok (n, tok, s')) : (∃ c, tok = .scalar c) ∧ peek s' = '*' := by
  obtain ⟨v, hconst⟩ := parseConstVal_minus role delim hds hv hp
  have htoken : readToken role delim 1 ('-' :: (ds ++ '*' :: r)) = readConstant role delim 1 ('-' :: (ds ++ '*' :: r)) := by
    simp [readToken]
  have hmult : readMultiplier role ('-' :: (ds ++ '*' :: r)) = .ok (1, '-' :: (ds ++ '*' :: r)) := readMultiplier_of_not_digit rfl role
  obtain ⟨b, hm, h⟩ := readElement_parts h
  cases hmult.symm.trans hm
  rw [htoken] at h
  simp only [readConstant, hconst] at h
  cases role with
  | elem | val =>
    cases h
    exact ⟨⟨_, rfl⟩, rfl⟩
  | key seen =>
    simp only [ne_eq, not_true_eq_false, if_false] at h
    cases hrepeat : repeatConstKey seen (.constInt v) with
    | true => simp [hrepeat] at h
    | false =>
      simp only [hrepeat, Bool.false_eq_true, if_false] at h
      cases h
      exact ⟨⟨_, rfl⟩, rfl⟩

theorem peek_of_readElement_large {role : Role} {delim : Char} {b s' : Text} {n m : Nat} {tok : Token} (hbig : 2 ^ 31 ≤ n)
    (hlt : n < 2 ^ 32) (hp : '.' ∉ (multPieces n).flatten ++ b)
    (h : readElement role delim ((multPieces n).flatten ++ b) = .ok (m, tok, s')) : (∃ c, tok = .scalar c) ∧ peek s' = '*' := by
  have htext : (multPieces n).flatten ++ b = '-' :: (Nat.toDigits 10 (2 ^ 32 - n) ++ '*' :: b) := by
    rw [multPieces, if_neg (by omega), multText_of_le hbig hlt]
    simp
  rw [htext] at hp h
  refine peek_of_readElement_minus (isNumeral_toDigits _) ?_ (fun hmem => hp (List.mem_cons_of_mem _ hmem)) h
  rw [digitsVal_toDigits]
  omega

/-- Where only a scalar can be read, up to a star. -/
theorem peek_of_reads {role : Role} {delim : Char} {u : SpecTree} {s s' : Text}
    (h : ∀ {m tok r}, readElement role delim s = .ok (m, tok, r) → (∃ c, tok = .scalar c) ∧ peek r = '*')
    (hu : Reads role delim u s s') : peek s' = '*' := by
  cases u with
  | leaf l => exact (h hu).2
  | list n es =>
    obtain ⟨s₁, s₂, hopen, -⟩ := hu
    obtain ⟨⟨c, hc⟩, -⟩ := h hopen
    cases hc
  | map n kvs =>
    obtain ⟨s₁, s₂, hopen, -⟩ := hu
    obtain ⟨⟨c, hc⟩, -⟩ := h hopen
    cases hc

/-! ## Reading back -/

/-- What a printed text starts with. -/
theorem peek_mult_ne {n : Nat} (hlt : n < 2 ^ 32) {b : Text} (hb : Starts (peek b)) {c : Char} (hc : Follows c) :
    peek ((multPieces n).flatten ++ b) ≠ c := by
  by_cases hsmall : n < 2 ^ 31
  · exact (opens_mult (rendersMult_multPieces hsmall) hb).peek_ne hc
  · rw [multPieces, if_neg (by omega), multText_of_le (by omega) hlt]
    rintro rfl
    rcases hc with h | h | h | h | h | h <;> cases h

theorem peek_text_ne (t : SpecTree) (hwf : t.WF) (hc : t.build.Everywhere BinSpec.NotConst) (r : Text) {c : Char} (hf : Follows c) :
    peek (t.build.text L ++ r) ≠ c := by
  cases t with
  | leaf l =>
    have hstarts := starts_scalar (rendersScalar_scalarText (L := L) (build_of_notConst hc) (LeafOk.inRange hwf)) r
    rw [build, Leaf.build, text_scalar, List.append_assoc]
    exact peek_mult_ne (LeafOk.lt hwf) hstarts hf
  | list n es =>
    rw [(build_of_notConst hc).1, text_list, List.append_assoc]
    exact peek_mult_ne hwf.2.1 (by simp [Starts]) hf
  | map n kvs =>
    rw [(build_of_notConst hc).1, text_map, List.append_assoc]
    exact peek_mult_ne hwf.2.1 (by simp [Starts]) hf

/-- Whatever the parser reads from a printed tree, it reads up to the end of the text and the multipliers of the tree are small, or
it stops at a star. -/
def ReadsBack (L : PrintLib) (t : SpecTree) : Prop :=
  ∀ (role : Role) (delim : Char) (u : SpecTree) (r s' : Text), role.isKey = false → (role.isVal = true → t.mult = 1) →
    Follows (peek r) → '.' ∉ t.build.text L ++ r → Reads role delim u (t.build.text L ++ r) s' →
    (t.build.Everywhere BinSpec.SmallMult ∧ s' = r) ∨ peek s' = '*'

theorem readsElems_nil {delim : Char} {us : List SpecTree} {s s' : Text} (hs : peek s = delim) (h : ReadsElems delim us s s') :
    s' = s := by
  cases us with
  | nil => exact h.2
  | cons u us => exact absurd hs h.1

/-- One element of a printed list: it ends where its text does, since a star separates nothing. -/
theorem readsBack_elem {t : SpecTree} (hback : ReadsBack L t) {delim : Char} (hstar : delim ≠ '*') {rest : Text}
    (hfollows : Follows (peek rest)) (hp : '.' ∉ t.build.text L ++ rest) {u : SpecTree} {s₁ s₂ : Text}
    (hu : Reads .elem delim u (t.build.text L ++ rest) s₁) (hsep : Separator delim s₁ s₂) :
    t.build.Everywhere BinSpec.SmallMult ∧ s₁ = rest := by
  rcases hback .elem delim u rest s₁ rfl (by simp [Role.isVal]) hfollows hp hu with hdone | hend
  · exact hdone
  · exfalso
    rcases hsep with ⟨hcomma, -⟩ | ⟨-, rfl, hdelim⟩
    · rw [hend] at hcomma
      cases hcomma
    · rw [skipBlank_of_ne (by rw [hend]; decide), hend] at hdelim
      exact hstar hdelim.symm

/-- After the last element the delimiter is read. -/
theorem separator_last {delim : Char} (hd : delim = ']' ∨ delim = '\x00') {r s₂ : Text} (hr : peek r = delim)
    (hsep : Separator delim r s₂) : s₂ = r := by
  rcases hsep with ⟨hcomma, -⟩ | ⟨-, rfl, -⟩
  · rw [hr] at hcomma
    rcases hd with rfl | rfl <;> cases hcomma
  · refine skipBlank_of_ne ?_
    rw [hr]
    rcases hd with rfl | rfl <;> decide

/-- Before another element the comma and the gap are read. -/
theorem separator_more {g : Text} (hg : Gap g) {delim : Char} {s s₂ : Text} (hs : peek s ≠ ' ')
    (hsep : Separator delim (',' :: (g ++ s)) s₂) : s₂ = s := by
  rcases hsep with ⟨-, rfl⟩ | ⟨hcomma, -, -⟩
  · rw [List.tail_cons]
    exact skipBlank_gap hg hs
  · exact absurd rfl hcomma

theorem readsBack_elems {g : Text} (hg : Gap g) {ts : List SpecTree} (ih : ∀ t ∈ ts, ReadsBack L t)
    (hwf : WFList ts) (hc : ∀ t ∈ ts, t.build.Everywhere BinSpec.NotConst) {delim : Char} (hd : delim = ']' ∨ delim = '\x00')
    {r : Text} (hr : peek r = delim) : ∀ {us : List SpecTree} {s' : Text}, '.' ∉ elemsText L (',' :: g) ts ++ r →
      ReadsElems delim us (elemsText L (',' :: g) ts ++ r) s' → (∀ t ∈ ts, t.build.Everywhere BinSpec.SmallMult) ∧ s' = r := by
  have hdf : Follows delim := by rcases hd with rfl | rfl <;> simp [Follows]
  have hstar : delim ≠ '*' := by rcases hd with rfl | rfl <;> decide
  induction ts with
  | nil => exact fun {us s'} _ h => ⟨by simp, readsElems_nil hr h⟩
  | cons t ts ihts =>
    intro us s' hp h
    rw [elemsText_cons, List.append_assoc] at hp h
    cases us with
    | nil => exact absurd h.1 (peek_text_ne t hwf.1 (hc t List.mem_cons_self) _ hdf)
    | cons u us =>
      obtain ⟨-, s₁, s₂, hu, hsep, hus⟩ := h
      simp only [List.mem_cons, forall_eq_or_imp]
      by_cases hnil : ts = []
      · rw [if_pos hnil, List.nil_append] at hp hu
        obtain ⟨hsmall, rfl⟩ := readsBack_elem (ih t List.mem_cons_self) hstar (hr ▸ hdf) hp hu hsep
        obtain rfl := separator_last hd hr hsep
        exact ⟨⟨hsmall, by simp [hnil]⟩, readsElems_nil hr hus⟩
      · rw [if_neg hnil, List.append_assoc, List.cons_append] at hp hu
        obtain ⟨hsmall, rfl⟩ := readsBack_elem (ih t List.mem_cons_self) hstar (by simp [Follows]) hp hu hsep
        have hblank : peek (elemsText L (',' :: g) ts ++ r) ≠ ' ' := by
          obtain ⟨t', ts', rfl⟩ := List.exists_cons_of_ne_nil hnil
          rw [elemsText_cons, List.append_assoc]
          exact peek_text_ne t' hwf.2.1 (hc t' (by simp)) _ (.inl rfl)
        obtain rfl := separator_more hg hblank hsep
        have hp' : '.' ∉ elemsText L (',' :: g) ts ++ r := fun hmem =>
          hp (List.mem_append_right _ (List.mem_cons_of_mem _ (List.mem_append_right _ hmem)))
        obtain ⟨hsmalls, hs'⟩ := ihts (fun t' h' => ih t' (List.mem_cons_of_mem _ h')) hwf.2
          (fun t' h' => hc t' (List.mem_cons_of_mem _ h')) hp' hus
        exact ⟨⟨hsmall, hsmalls⟩, hs'⟩

/-- A scalar that is read back. -/
theorem readElement_text {l : Leaf} (hl : LeafOk l) (hc : l.type.isConst = false) {role : Role} {delim : Char} {r s' : Text} {n : Nat}
    {tok : Token} (hkey : role.isKey = true → l.type.isKeyType = true) (hval : role.isVal = true → l.mult = 1)
    (hr : Follows (peek r)) (hp : '.' ∉ l.build.text L ++ r)
    (h : readElement role delim (l.build.text L ++ r) = .ok (n, tok, s')) :
    (l.mult < 2 ^ 31 ∧ tok = .scalar l.type ∧ s' = r) ∨ ((∃ c, tok = .scalar c) ∧ peek s' = '*') := by
  by_cases hsmall : l.mult < 2 ^ 31
  · rw [readElement_of_renders (rendersLeaf_text hl hc hsmall) hl hkey hval hr] at h
    simp only [Except.ok.injEq, Prod.mk.injEq] at h
    exact .inl ⟨hsmall, h.2.1.symm, h.2.2.symm⟩
  · rw [Leaf.build, text_scalar, List.append_assoc] at hp h
    exact .inr (peek_of_readElement_large (by omega) hl.lt hp h)

/-- One pair of a printed map: the key and the value end where their texts do, and the pairs go on or end there. -/
theorem readsBack_pair {k : Leaf} {v : SpecTree} (hback : ReadsBack L v) (hk : LeafOk k) (hv : v.WF) (hone : v.mult = 1)
    (hkey : k.type.isKeyType = true) (hkc : k.type.isConst = false) (hvc : v.build.Everywhere BinSpec.NotConst) {rest : Text}
    (hafter : peek rest = '\x7d' ∨ peek rest = ',') (hp : '.' ∉ k.build.text L ++ ':' :: (v.build.text L ++ rest)) {seen : List Leaf}
    {ku : Leaf} {vu : SpecTree} {us : List (Leaf × SpecTree)} {s' : Text}
    (h : ReadsPairs seen ((ku, vu) :: us) (k.build.text L ++ ':' :: (v.build.text L ++ rest)) s') :
    (k.build.Everywhere BinSpec.SmallMult ∧ v.build.Everywhere BinSpec.SmallMult) ∧
      ((peek rest = '\x7d' ∧ s' = rest) ∨ (peek rest = ',' ∧ ReadsPairs (seen ++ [ku]) us (skipBlank rest.tail) s')) := by
  obtain ⟨-, s₁, s₂, hku, hcolon, -, hvu, hend⟩ := h
  rcases readElement_text hk hkc (fun _ => hkey) (by simp [Role.isVal]) (by simp [Follows]) hp hku with ⟨hksmall, -, rfl⟩ | ⟨-, hstar⟩
  · have hval : skipBlank (skipBlank (':' :: (v.build.text L ++ rest))).tail = v.build.text L ++ rest := by
      have hcolon : skipBlank (':' :: (v.build.text L ++ rest)) = ':' :: (v.build.text L ++ rest) := skipBlank_of_ne (by simp)
      rw [hcolon, List.tail_cons, skipBlank_of_ne (peek_text_ne v hv hvc _ (.inl rfl))]
    have hpv : '.' ∉ v.build.text L ++ rest := fun hmem => hp (List.mem_append_right _ (List.mem_cons_of_mem _ hmem))
    have hfollows : Follows (peek rest) := by rcases hafter with h | h <;> rw [h] <;> simp [Follows]
    rw [hval] at hvu
    rcases hback .val '\x7d' vu rest s₂ rfl (fun _ => hone) hfollows hpv hvu with ⟨hvsmall, rfl⟩ | hstar
    · have hblank : skipBlank s₂ = s₂ := by
        refine skipBlank_of_ne ?_
        rcases hafter with h | h <;> rw [h] <;> decide
      rw [hblank] at hend
      exact ⟨⟨everywhere_scalar.mpr hksmall, hvsmall⟩, hend.imp_left And.right⟩
    · -- a star separates no pairs
      exfalso
      rw [skipBlank_of_ne (by rw [hstar]; decide), hstar] at hend
      rcases hend with ⟨-, hbrace, -⟩ | ⟨hcomma, -⟩
      · cases hbrace
      · cases hcomma
  · exfalso
    rw [skipBlank_of_ne (by rw [hstar]; decide), hstar] at hcolon
    cases hcolon

theorem readsBack_pairs {kvs : List (Leaf × SpecTree)} (ih : ∀ p ∈ kvs, ReadsBack L p.2) (hwf : WFPairs kvs)
    (hkeys : ∀ p ∈ kvs, p.1.type.isKeyType = true) (hc : ∀ p ∈ kvs, p.1.type.isConst = false ∧ p.2.build.Everywhere BinSpec.NotConst)
    {r : Text} (hr : peek r = '\x7d') : ∀ {seen : List Leaf} {us : List (Leaf × SpecTree)} {s' : Text}, '.' ∉ pairsText L kvs ++ r →
      ReadsPairs seen us (pairsText L kvs ++ r) s' →
      (∀ p ∈ kvs, p.1.build.Everywhere BinSpec.SmallMult ∧ p.2.build.Everywhere BinSpec.SmallMult) ∧ s' = r := by
  induction kvs with
  | nil =>
    intro seen us s' _ h
    cases us with
    | nil => exact ⟨nofun, h.2.2⟩
    | cons u us => exact absurd hr h.1
  | cons p kvs ihkvs =>
    intro seen us s' hp h
    obtain ⟨k, v⟩ := p
    obtain ⟨hkc, hvc⟩ := hc (k, v) List.mem_cons_self
    obtain ⟨hk, hv, hone, hkvs⟩ := hwf
    have hkey := hkeys (k, v) List.mem_cons_self
    have hback := ih (k, v) List.mem_cons_self
    have htext : pairsText L ((k, v) :: kvs) ++ r =
        k.build.text L ++ ':' :: (v.build.text L ++ ((if kvs = [] then [] else ',' :: pairsText L kvs) ++ r)) := by
      rw [pairsText_cons]
      simp
    rw [htext] at hp h
    simp only [List.mem_cons, forall_eq_or_imp]
    cases us with
    | nil => exact absurd h.2.1 (peek_text_ne (.leaf k) hk (everywhere_scalar.mpr hkc) _ (by simp [Follows]))
    | cons u us =>
      by_cases hnil : kvs = []
      · rw [if_pos hnil, List.nil_append] at hp h
        obtain ⟨hsmall, ⟨-, hs'⟩ | ⟨hcomma, -⟩⟩ := readsBack_pair hback hk hv hone hkey hkc hvc (.inl hr) hp h
        · exact ⟨⟨hsmall, by simp [hnil]⟩, hs'⟩
        · rw [hr] at hcomma
          cases hcomma
      · rw [if_neg hnil, List.cons_append] at hp h
        obtain ⟨hsmall, ⟨hbrace, -⟩ | ⟨-, hmore⟩⟩ := readsBack_pair hback hk hv hone hkey hkc hvc (.inr rfl) hp h
        · cases hbrace
        · have hnext : skipBlank (pairsText L kvs ++ r) = pairsText L kvs ++ r := by
            obtain ⟨⟨k', v'⟩, kvs', rfl⟩ := List.exists_cons_of_ne_nil hnil
            refine skipBlank_of_ne ?_
            rw [pairsText_cons, List.append_assoc]
            exact peek_text_ne (.leaf k') hkvs.1 (everywhere_scalar.mpr (hc (k', v') (by simp)).1) _ (.inl rfl)
          have hp' : '.' ∉ pairsText L kvs ++ r := fun hmem =>
            hp (List.mem_append_right _ (List.mem_cons_of_mem _ (List.mem_append_right _ (List.mem_cons_of_mem _ hmem))))
          rw [List.tail_cons, hnext] at hmore
          obtain ⟨hsmalls, hs'⟩ := ihkvs (fun q hq => ih q (List.mem_cons_of_mem _ hq)) hkvs
            (fun q hq => hkeys q (List.mem_cons_of_mem _ hq)) (fun q hq => hc q (List.mem_cons_of_mem _ hq)) hp' hmore
          exact ⟨⟨hsmall, hsmalls⟩, hs'⟩

/-- An opening bracket or brace behind a small multiplier. -/
theorem readElement_open {role : Role} {delim : Char} {n : Nat} {body : Text} (hkey : role.isKey = false) (hsmall : n < 2 ^ 31)
    (hpos : 1 ≤ n) (hval : role.isVal = true → n = 1) (hblank : peek body ≠ ' ') :
    readElement role delim ((multPieces n).flatten ++ '[' :: body) = .ok (n, .openList, body) ∧
    readElement role delim ((multPieces n).flatten ++ '\x7b' :: body) = .ok (n, .openMap, body) := by
  have hmult {b : Text} (hb : Starts (peek b)) : readMultiplier role ((multPieces n).flatten ++ b) = .ok (n, b) :=
    readMultiplier_of_renders (rendersMult_multPieces hsmall) hpos (by omega) hval hb
  have hskip : skipBlank body = body := skipBlank_of_ne hblank
  constructor
  · exact readElement_eq (hmult (by simp [Starts])) (by simp [readToken, unlessKey, hkey, hskip])
  · exact readElement_eq (hmult (by simp [Starts])) (by simp [readToken, unlessKey, hkey, hskip])

/-- A printed tree is read back, or a large multiplier stops the parser. -/
theorem readsBack (t : SpecTree) (hwf : t.WF) (hc : t.build.Everywhere BinSpec.NotConst) : ReadsBack L t := by
  induction t using SpecTree.induct with
  | leaf l =>
    intro role delim u r s' hkey hval hr hp hu
    have hstar {m tok r'} (h : readElement role delim (l.build.text L ++ r) = .ok (m, tok, r')) :=
      readElement_text hwf (build_of_notConst hc) (by simp [hkey]) hval hr hp h
    cases u with
    | leaf l' =>
      rcases hstar hu with ⟨hsmall, -, hs'⟩ | ⟨-, hs'⟩
      · exact .inl ⟨everywhere_scalar.mpr hsmall, hs'⟩
      · exact .inr hs'
    | list n es =>
      obtain ⟨s₁, s₂, hopen, -⟩ := hu
      rcases hstar hopen with ⟨-, htok, -⟩ | ⟨⟨c, htok⟩, -⟩ <;> cases htok
    | map n kvs =>
      obtain ⟨s₁, s₂, hopen, -⟩ := hu
      rcases hstar hopen with ⟨-, htok, -⟩ | ⟨⟨c, htok⟩, -⟩ <;> cases htok
  | list n es ih =>
    intro role delim u r s' hkey hval hr hp hu
    obtain ⟨hpos, hlt, -, hes⟩ := hwf
    obtain ⟨hbuild, hces⟩ := build_of_notConst hc
    rw [hbuild] at hp hu ⊢
    rw [text_list, List.append_assoc, List.cons_append, List.append_assoc, List.singleton_append] at hp hu
    by_cases hsmall : n < 2 ^ 31
    · have hblank : peek (elemsText L [','] es ++ ']' :: r) ≠ ' ' := by
        cases es with
        | nil => exact nofun
        | cons t ts =>
          rw [elemsText_cons, List.append_assoc]
          exact peek_text_ne t hes.1 (hces t List.mem_cons_self) _ (.inl rfl)
      obtain ⟨us, s₂, rfl, hus, rfl⟩ := reads_list (readElement_open hkey hsmall hpos hval hblank).1 hu
      obtain ⟨hsmalls, rfl⟩ := readsBack_elems (g := []) (.inl rfl) (fun t ht => ih t ht (wf_of_mem hes t ht) (hces t ht)) hes hces
        (.inl rfl) rfl (fun hmem => hp (List.mem_append_right _ (List.mem_cons_of_mem _ hmem))) hus
      refine .inl ⟨everywhere_list.mpr ⟨hsmall, ?_⟩, rfl⟩
      simpa using hsmalls
    · exact .inr (peek_of_reads (peek_of_readElement_large (by omega) hlt hp) hu)
  | map n kvs ih =>
    intro role delim u r s' hkey hval hr hp hu
    obtain ⟨hpos, hlt, -, hkeys, hkvs⟩ := hwf
    obtain ⟨hbuild, hckvs⟩ := build_of_notConst hc
    rw [hbuild] at hp hu ⊢
    rw [text_map, List.append_assoc, List.cons_append, List.append_assoc, List.singleton_append] at hp hu
    by_cases hsmall : n < 2 ^ 31
    · have hblank : peek (pairsText L kvs ++ '\x7d' :: r) ≠ ' ' := by
        cases kvs with
        | nil => exact nofun
        | cons p kvs =>
          rw [pairsText_cons, List.append_assoc]
          exact peek_text_ne (.leaf p.1) hkvs.1 (everywhere_scalar.mpr (hckvs p List.mem_cons_self).1) _ (.inl rfl)
      obtain ⟨us, s₂, rfl, hus, rfl⟩ := reads_map (readElement_open hkey hsmall hpos hval hblank).2 hu
      obtain ⟨hsmalls, rfl⟩ := readsBack_pairs (fun p hp => ih p hp (wf_of_mem_pairs hkvs p hp) (hckvs p hp).2) hkvs
        (fun p hp => hkeys.keyType _ (List.mem_map_of_mem hp)) hckvs rfl
        (fun hmem => hp (List.mem_append_right _ (List.mem_cons_of_mem _ hmem))) hus
      refine .inl ⟨everywhere_map.mpr ⟨hsmall, ?_⟩, rfl⟩
      intro q hq
      obtain ⟨p, hp, rfl⟩ := List.mem_map.mp hq
      exact hsmalls p hp
    · exact .inr (peek_of_reads (peek_of_readElement_large (by omega) hlt hp) hu)

/-! ## The outputs of a spec without constants -/

/-- An output that `snprintf` can report, without a point. -/
def PlainPiece (p : Text) : Prop := p.length < 2 ^ 31 ∧ '.' ∉ p

theorem plainPiece_toDigits {n : Nat} (hn : n < 2 ^ 32) (before after : Text) (hb : before.length ≤ 1 ∧ '.' ∉ before)
    (ha : after.length ≤ 1 ∧ '.' ∉ after) : PlainPiece (before ++ (Nat.toDigits 10 n ++ after)) := by
  have hlen : (Nat.toDigits 10 n).length ≤ 10 := (Nat.length_toDigits_le_iff (by decide) (by decide)).mpr (by omega)
  have hpoint : '.' ∉ Nat.toDigits 10 n := by
    intro hmem
    have hdigit := Nat.isDigit_of_mem_toDigits (by decide) (by decide) hmem
    cases hdigit
  refine ⟨?_, ?_⟩
  · simp only [List.length_append]
    omega
  · simp only [List.mem_append, hb.2, hpoint, ha.2, or_self, not_false_eq_true]

theorem plainPiece_mult {n : Nat} (hn : n < 2 ^ 32) : ∀ p ∈ multPieces n, PlainPiece p := by
  intro p hp
  unfold multPieces at hp
  split at hp
  · cases hp
  · rw [List.mem_singleton.mp hp]
    by_cases hsmall : n < 2 ^ 31
    · rw [multText_of_lt hsmall]
      exact plainPiece_toDigits hn [] ['*'] ⟨by decide, by decide⟩ ⟨by decide, by decide⟩
    · rw [multText_of_le (by omega) hn]
      exact plainPiece_toDigits (by omega) ['-'] ['*'] ⟨by decide, by decide⟩ ⟨by decide, by decide⟩

theorem plainPiece_scalar {s : Scalar} (hs : s.isConst = false) (hin : s.InRange) : PlainPiece (scalarText L s) := by
  cases s with
  | bool | double => simp [PlainPiece, scalarText]
  | int range =>
    have hrange : range ≤ 7 := hin
    have hplain := plainPiece_toDigits (n := range + 1) (by omega) ['I'] [] ⟨by decide, by decide⟩ ⟨by decide, by decide⟩
    rwa [List.append_nil] at hplain
  | str length =>
    have hplain := plainPiece_toDigits hin ['S'] [] ⟨by decide, by decide⟩ ⟨by decide, by decide⟩
    rwa [List.append_nil] at hplain
  | bytes length =>
    have hplain := plainPiece_toDigits hin ['B'] [] ⟨by decide, by decide⟩ ⟨by decide, by decide⟩
    rwa [List.append_nil] at hplain
  | constBool | constInt | constStr | constDouble => cases hs

theorem mem_joinPieces {sep p : Text} {pss : List (List Text)} (h : p ∈ joinPieces sep pss) : p = sep ∨ ∃ ps ∈ pss, p ∈ ps := by
  induction pss with
  | nil => cases h
  | cons ps pss ih =>
    cases pss with
    | nil => exact .inr ⟨ps, List.mem_cons_self, h⟩
    | cons qs pss =>
      rw [joinPieces, List.mem_append, List.mem_cons] at h
      rcases h with h | h | h
      · exact .inr ⟨ps, List.mem_cons_self, h⟩
      · exact .inl h
      · rcases ih h with h | ⟨rs, hrs, h⟩
        · exact .inl h
        · exact .inr ⟨rs, List.mem_cons_of_mem _ hrs, h⟩

theorem plainPiece_of_mem_list (sep : Text) (hsep : PlainPiece sep) {ts : List SpecTree}
    (h : ∀ t ∈ ts, ∀ p ∈ t.build.pieces L, PlainPiece p) : ∀ p ∈ joinPieces sep (piecesList L (ts.map build)), PlainPiece p := by
  have hall : ∀ ps ∈ piecesList L (ts.map build), ∀ p ∈ ps, PlainPiece p := by
    induction ts with
    | nil => exact nofun
    | cons t ts ih =>
      intro ps hps
      rw [List.map_cons, piecesList, List.mem_cons] at hps
      rcases hps with rfl | hps
      · exact h t List.mem_cons_self
      · exact ih (fun u hu => h u (List.mem_cons_of_mem _ hu)) ps hps
  intro p hp
  rcases mem_joinPieces hp with rfl | ⟨ps, hps, hp⟩
  · exact hsep
  · exact hall ps hps p hp

theorem plainPiece_leaf {l : Leaf} (hl : LeafOk l) (hc : l.type.isConst = false) : ∀ p ∈ l.build.pieces L, PlainPiece p := by
  intro p hp
  rw [Leaf.build, BinSpec.pieces, List.mem_append, List.mem_singleton] at hp
  rcases hp with hp | rfl
  · exact plainPiece_mult hl.lt p hp
  · exact plainPiece_scalar hc hl.inRange

theorem plainPiece_of_mem_pairs {kvs : List (Leaf × SpecTree)}
    (h : ∀ q ∈ kvs, (∀ p ∈ q.1.build.pieces L, PlainPiece p) ∧ ∀ p ∈ q.2.build.pieces L, PlainPiece p) :
    ∀ p ∈ joinPieces [','] (piecesPairs L (kvs.map fun q => (q.1.build, q.2.build))), PlainPiece p := by
  have hall : ∀ ps ∈ piecesPairs L (kvs.map fun q => (q.1.build, q.2.build)), ∀ p ∈ ps, PlainPiece p := by
    induction kvs with
    | nil => exact nofun
    | cons q kvs ih =>
      intro ps hps
      rw [List.map_cons, piecesPairs, List.mem_cons] at hps
      rcases hps with rfl | hps
      · intro p hp
        rw [List.mem_append, List.mem_cons] at hp
        rcases hp with hp | rfl | hp
        · exact (h q List.mem_cons_self).1 p hp
        · exact ⟨by decide, by decide⟩
        · exact (h q List.mem_cons_self).2 p hp
      · exact ih (fun u hu => h u (List.mem_cons_of_mem _ hu)) ps hps
  intro p hp
  rcases mem_joinPieces hp with rfl | ⟨ps, hps, hp⟩
  · exact ⟨by decide, by decide⟩
  · exact hall ps hps p hp

/-- A multiplier and a body in brackets. -/
theorem plainPiece_bracketed {n : Nat} (hn : n < 2 ^ 32) {opening closing : Text} (hopening : PlainPiece opening)
    (hclosing : PlainPiece closing) {body : List Text} (hbody : ∀ p ∈ body, PlainPiece p) :
    ∀ p ∈ multPieces n ++ opening :: (body ++ [closing]), PlainPiece p := by
  intro p hp
  simp only [List.mem_append, List.mem_cons, List.not_mem_nil, or_false] at hp
  rcases hp with hp | rfl | hp | rfl
  · exact plainPiece_mult hn p hp
  · exact hopening
  · exact hbody p hp
  · exact hclosing

theorem plainPiece_of_mem (t : SpecTree) (hwf : t.WF) (hc : t.build.Everywhere BinSpec.NotConst) :
    ∀ p ∈ t.build.pieces L, PlainPiece p := by
  induction t using SpecTree.induct with
  | leaf l => exact plainPiece_leaf hwf (build_of_notConst hc)
  | list n es ih =>
    obtain ⟨-, hlt, -, hes⟩ := hwf
    obtain ⟨hbuild, hces⟩ := build_of_notConst hc
    have hbody := plainPiece_of_mem_list [','] ⟨by decide, by decide⟩ fun t ht => ih t ht (wf_of_mem hes t ht) (hces t ht)
    rw [hbuild, BinSpec.pieces]
    exact plainPiece_bracketed hlt ⟨by decide, by decide⟩ ⟨by decide, by decide⟩ hbody
  | map n kvs ih =>
    obtain ⟨-, hlt, -, -, hkvs⟩ := hwf
    obtain ⟨hbuild, hckvs⟩ := build_of_notConst hc
    have hbody := plainPiece_of_mem_pairs fun q hq => ⟨plainPiece_leaf (leafOk_of_mem_pairs hkvs q hq) (hckvs q hq).1,
      ih q hq (wf_of_mem_pairs hkvs q hq) (hckvs q hq).2⟩
    rw [hbuild, BinSpec.pieces]
    exact plainPiece_bracketed hlt ⟨by decide, by decide⟩ ⟨by decide, by decide⟩ hbody

/-! ## The whole text -/

/-- For every accepted spec without constants: into every buffer that is large enough the whole text is printed, and the parser
accepts this text and yields the spec again exactly when every multiplier is at most `INT_MAX`. -/
theorem print_parse_iff (R : AsRandom) (L : PrintLib) (str : Text) (o : ObjSpec) (h : objSpecParse R str = .ok o)
    (hconst : BinSpec.Everywhere BinSpec.NotConst (.list 1 o.nBinSpecs o.binSpecs)) :
    (∀ size, (o.text L).length < size → ∃ b, snprintObjSpec L o size = some b ∧ PrintedInside size (o.text L) b.mem) ∧
    (objSpecParse R (o.text L) = .ok o ↔ BinSpec.Everywhere BinSpec.SmallMult (.list 1 o.nBinSpecs o.binSpecs)) := by
  obtain ⟨ts, s', hreads, htot, rfl⟩ := objSpecParse_ok_iff.mp h
  have hwf := hreads.wfList
  have hc : ∀ t ∈ ts, t.build.Everywhere BinSpec.NotConst := fun t ht => (everywhere_list.mp hconst).2 _ (List.mem_map_of_mem ht)
  have hplain := plainPiece_of_mem_list (L := L) [',', ' '] ⟨by decide, by decide⟩ fun t ht =>
    plainPiece_of_mem t (wf_of_mem hwf t ht) (hc t ht)
  refine ⟨fun size hsize => printedInside_of_fits h (fun p hp => (hplain p hp).1) hsize, ?_, ?_⟩
  · intro hparse
    obtain ⟨us, s'', hus, -, -⟩ := objSpecParse_ok_iff.mp hparse
    have htext : ObjSpec.text L ⟨ts.map build, total ts⟩ = elemsText L [',', ' '] ts ++ [] := (List.append_nil _).symm
    rw [htext] at hus
    have hpoint : '.' ∉ elemsText L [',', ' '] ts ++ [] := by
      rw [List.append_nil]
      intro hmem
      obtain ⟨p, hp, hmem⟩ := List.mem_flatten.mp hmem
      exact (hplain p hp).2 hmem
    obtain ⟨hsmall, -⟩ := readsBack_elems (g := [' ']) (.inr rfl) (fun t ht => readsBack t (wf_of_mem hwf t ht) (hc t ht)) hwf hc
      (.inr rfl) rfl hpoint hus
    refine everywhere_list.mpr ⟨(by decide : 1 < 2 ^ 31), ?_⟩
    simpa using hsmall
  · intro hsmall
    have hrenders := rendersElems_text (L := L) (g := [' ']) (.inr rfl) fun t ht =>
      renders_text t (wf_of_mem hwf t ht) (hc t ht) ((everywhere_list.mp hsmall).2 _ (List.mem_map_of_mem ht))
    have htext := readsElems_of_renders (fun t _ => reads_of_renders t) (r := []) hrenders hwf (.inr rfl) rfl
    rw [List.append_nil] at htext
    exact objSpecParse_ok_iff.mpr ⟨ts, [], htext, htot, rfl⟩

/-- The printer with libraries that print nothing; they are not asked for specs without constants. -/
def noLibTexts : PrintLib := ⟨fun _ => [], fun _ => []⟩

/-- Two integers and a map. -/
theorem print_parse_pair :
    ObjSpec.text noLibTexts ⟨[.scalar 2 (.int 3), .map 1 1 1 [(.scalar 1 (.str 5), .scalar 1 .bool)]], 3⟩ = "2*I4, \x7bS5:b\x7d".toList ∧
    objSpecParse .littleEndian "2*I4, \x7bS5:b\x7d".toList =
      .ok ⟨[.scalar 2 (.int 3), .map 1 1 1 [(.scalar 1 (.str 5), .scalar 1 .bool)]], 3⟩ := by
  have htext : ObjSpec.text noLibTexts ⟨[.scalar 2 (.int 3), .map 1 1 1 [(.scalar 1 (.str 5), .scalar 1 .bool)]], 3⟩ =
      "2*I4, \x7bS5:b\x7d".toList := by decide +kernel
  refine ⟨htext, ?_⟩
  rw [← htext]
  refine (print_parse_iff .littleEndian noLibTexts "2*I,\x7bS5:b\x7d".toList _ (by decide +kernel) ?_).2.mpr ?_
  · simp [BinSpec.NotConst, Scalar.isConst, Scalar.constVal?]
  · simp [BinSpec.SmallMult, BinSpec.nRepeats]

/-- A multiplier of `2^31` is printed as a negative number, which is rejected. -/
theorem large_multiplier_not_parsed :
    objSpecParse .littleEndian "2147483648*b".toList = .ok ⟨[.scalar 2147483648 .bool], 2147483648⟩ ∧
    BinSpec.Everywhere BinSpec.NotConst (.list 1 2147483648 [.scalar 2147483648 .bool]) ∧
    ObjSpec.text noLibTexts ⟨[.scalar 2147483648 .bool], 2147483648⟩ = "-2147483648*b".toList ∧
    (objSpecParse .littleEndian "-2147483648*b".toList).toOption = none := by
  refine ⟨by decide +kernel, ?_, by decide +kernel, by decide +kernel⟩
  simp [BinSpec.NotConst, Scalar.isConst, Scalar.constVal?]

end AerospikeBenchmark
