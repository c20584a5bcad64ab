import AerospikeBenchmark.Lemmas.Literal
import AerospikeBenchmark.Theorems.ParserCompleteness

/-!
# When a constant integer is classified by its own token

`_parse_const_val` takes a number for a double when a point comes before the next comma or the closing delimiter. For a map key
that stretch holds the whole value after the colon, so an integer key is rejected exactly when a point comes before the first
comma or brace of the value.
-/

namespace AerospikeBenchmark

open CText SpecTree

/-! ## Integer tokens -/

theorem Follows.endsNumber {c : Char} (h : Follows c) : EndsNumber c := by
  rcases h with rfl | rfl | rfl | rfl | rfl | rfl <;> exact ⟨by decide, by decide, by decide, by decide, by decide⟩

/-- The characters of an integer token. -/
def IsTokenChar (c : Char) : Prop := isDigit 16 c = true ∨ c = '+' ∨ c = '-' ∨ c = 'x' ∨ c = 'X'

theorem isDigit16_of_isDigit10 {c : Char} (h : isDigit 10 c = true) : isDigit 16 c = true := by
  simp only [isDigit, decide_eq_true_eq] at h ⊢
  omega

theorem IntToken.chars {k : Int} {tok : Text} (h : IntToken k tok) : ∀ c ∈ tok, IsTokenChar c := by
  intro c hc
  rcases h with ⟨sign, ds, hs, hds, rfl, -, -, -⟩ | ⟨x, ds, hx, hds, -, rfl, -⟩
  · rcases List.mem_append.mp hc with hc | hc
    · rcases hs with rfl | rfl | rfl <;> simp at hc <;> simp [IsTokenChar, hc]
    · exact Or.inl (isDigit16_of_isDigit10 (hds.all c hc))
  · simp only [List.mem_cons] at hc
    rcases hc with rfl | rfl | hc
    · exact Or.inl (by decide)
    · rcases hx with rfl | rfl <;> simp [IsTokenChar]
    · exact Or.inl (hds.all c hc)

theorem IsTokenChar.ne {c d : Char} (h : IsTokenChar c) (hd : ¬ IsTokenChar d) : c ≠ d := by
  rintro rfl
  exact hd h

/-- The delimiters of the collections. -/
def IsDelimiter (d : Char) : Prop := d = ']' ∨ d = '\x7d' ∨ d = '\x00'

/-- A point is in the stretch after a token exactly when it is in the stretch of what follows it. -/
theorem point_mem_window_iff {k : Int} {tok : Text} (h : IntToken k tok) {delim : Char} (hd : IsDelimiter delim) (r : Text) :
    '.' ∈ numberWindow delim (tok ++ r) ↔ '.' ∈ numberWindow delim r := by
  have hchars := h.chars
  have hcomma : ¬ IsTokenChar ',' := by unfold IsTokenChar; decide
  have hdelim : ¬ IsTokenChar delim := by rcases hd with rfl | rfl | rfl <;> unfold IsTokenChar <;> decide
  have hpoint : '.' ∉ tok := by
    intro hmem
    exact absurd (hchars '.' hmem) (by unfold IsTokenChar; decide)
  have hall : ∀ c ∈ tok, (c != ',' && c != delim) = true := by
    intro c hc
    simp [(hchars c hc).ne hcomma, (hchars c hc).ne hdelim]
  simp [numberWindow, List.takeWhile_append_of_pos hall, hpoint]

/-- The characters an integer token starts with. -/
def IsFirstChar (c : Char) : Prop := isDigit 10 c = true ∨ c = '+' ∨ c = '-'

theorem IntToken.first {k : Int} {tok : Text} (h : IntToken k tok) (r : Text) : IsFirstChar (peek (tok ++ r)) := by
  rcases h with ⟨sign, ds, hs, hds, rfl, -, -, -⟩ | ⟨x, ds, -, -, -, rfl, -⟩
  · rcases hs with rfl | rfl | rfl
    · exact Or.inl (peek_numeral hds r)
    · exact Or.inr (Or.inl rfl)
    · exact Or.inr (Or.inr rfl)
  · exact Or.inl (by rfl)

theorem IsFirstChar.ne {c d : Char} (h : IsFirstChar c) (hd : ¬ IsFirstChar d) : c ≠ d := by
  rintro rfl
  exact hd h

/-- An integer token does not start like a boolean or a string. -/
theorem parseConstVal_number {k : Int} {tok : Text} (h : IntToken k tok) (role : Role) (delim : Char) (r : Text) :
    parseConstVal role delim (tok ++ r) =
      if '.' ∈ numberWindow delim (tok ++ r) then constDouble role (tok ++ r) else constInteger (tok ++ r) := by
  have hne : ∀ d, ¬ IsFirstChar d → peek (tok ++ r) ≠ d := fun d hd => (h.first r).ne hd
  simp only [parseConstVal, hne 'T' (by unfold IsFirstChar; decide), hne 't' (by unfold IsFirstChar; decide),
    hne 'F' (by unfold IsFirstChar; decide), hne 'f' (by unfold IsFirstChar; decide), hne '"' (by unfold IsFirstChar; decide),
    false_and, or_self, if_false]

/-- Without a point in the stretch ahead, the token is its integer. -/
theorem constInteger_token {k : Int} {tok : Text} (h : IntToken k tok) {r : Text} (hr : Follows (peek r)) :
    constInteger (tok ++ r) = .ok (.constInt k, r) := by
  rcases h with ⟨sign, ds, hs, hds, rfl, rfl, hlo, hhi⟩ | ⟨x, ds, hx, hds, hv, rfl, rfl⟩
  · have hnothex : ¬ (peek (sign ++ ds ++ r) = '0' ∧ (peek (sign ++ ds ++ r).tail = 'x' ∨ peek (sign ++ ds ++ r).tail = 'X')) := by
      rcases hs with rfl | rfl | rfl
      · obtain ⟨d, ds', rfl⟩ := List.exists_cons_of_ne_nil hds.ne_nil
        have hx : ∀ c, peek (ds' ++ r) = c → c ≠ 'x' ∧ c ≠ 'X' := by
          intro c hc
          cases ds' with
          | nil =>
            rw [List.nil_append] at hc
            rw [← hc]
            exact ⟨fun h => hr.endsNumber.mark (by rw [h]; rfl), fun h => hr.endsNumber.mark (by rw [h]; rfl)⟩
          | cons d' ds' =>
            have hd' := hds.all d' (by simp)
            simp only [List.cons_append, peek_cons] at hc
            rw [hc] at hd'
            constructor <;> rintro rfl <;> exact absurd hd' (by decide)
        simp only [List.nil_append, List.cons_append, peek_cons, List.tail_cons, not_and, not_or]
        exact fun _ => hx _ rfl
      · simp
      · simp
    have hscan := strtol_numeral (by omega) (by omega) hs hds hr.not_digit hlo hhi
    rw [← List.append_assoc] at hscan
    simp only [constInteger, if_neg hnothex, hscan, Bool.false_eq_true, if_false]
  · have hhex : peek ('0' :: x :: ds ++ r) = '0' ∧ (peek ('0' :: x :: ds ++ r).tail = 'x' ∨ peek ('0' :: x :: ds ++ r).tail = 'X') :=
      ⟨rfl, hx⟩
    have hscan := strtoul_hex hx hds hr.endsNumber.digit hv
    have htext : '0' :: x :: ds ++ r = '0' :: x :: (ds ++ r) := rfl
    simp only [constInteger, if_pos hhex]
    rw [htext, hscan]
    simp only [Option.map_some, Bool.false_eq_true, if_false]

/-- With a point in the stretch ahead, the token is never an integer, and what it is does not depend on what follows. -/
theorem constDouble_token {k : Int} {tok : Text} (h : IntToken k tok) (role : Role) :
    ∃ res : Option Scalar, (∀ v, res ≠ some (.constInt v)) ∧
      ∀ r, Follows (peek r) → (constDouble role (tok ++ r)).toOption.map Prod.fst = res := by
  have key : ∀ bits erange, (∀ r, Follows (peek r) → strtod (tok ++ r) = some ⟨bits, r, erange⟩) →
      ∃ res : Option Scalar, (∀ v, res ≠ some (.constInt v)) ∧
        ∀ r, Follows (peek r) → (constDouble role (tok ++ r)).toOption.map Prod.fst = res := by
    intro bits erange hscan
    refine ⟨if erange then none else if role.isKey then none else some (.constDouble bits), ?_, ?_⟩
    · intro v
      split
      · simp
      · split <;> simp
    · intro r hr
      simp only [constDouble, hscan r hr]
      split
      · rfl
      · split <;> rfl
  rcases h with ⟨sign, ds, hs, hds, rfl, -, -, -⟩ | ⟨x, ds, hx, hds, -, rfl, -⟩
  · exact key _ _ fun r hr => (congrArg strtod (List.append_assoc sign ds r)).trans (strtod_decimal hs hds hr.endsNumber)
  · exact key _ _ fun r hr => strtod_hex hx hds hr.endsNumber

/-- What `_parse_const_val` makes of a text: the type and the value, if it accepts. -/
def constResult (role : Role) (delim : Char) (s : Text) : Option Scalar := (parseConstVal role delim s).toOption.map Prod.fst

/-- Two continuations give one integer token the same type and value exactly when both have a point in the stretch ahead or
neither has. -/
theorem constResult_eq_iff {k : Int} {tok : Text} (h : IntToken k tok) (role : Role) {delim : Char} (hd : IsDelimiter delim)
    {r r' : Text} (hr : Follows (peek r)) (hr' : Follows (peek r')) :
    constResult role delim (tok ++ r) = constResult role delim (tok ++ r') ↔
      ('.' ∈ numberWindow delim r ↔ '.' ∈ numberWindow delim r') := by
  obtain ⟨res, hres, hdouble⟩ := constDouble_token h role
  have hint : ∀ r, Follows (peek r) → (constInteger (tok ++ r)).toOption.map Prod.fst = some (.constInt k) := by
    intro r hr
    rw [constInteger_token h hr]
    rfl
  simp only [constResult, parseConstVal_number h, point_mem_window_iff h hd]
  by_cases hp : '.' ∈ numberWindow delim r <;> by_cases hp' : '.' ∈ numberWindow delim r'
  · simp [hp, hp', hdouble r hr, hdouble r' hr']
  · simp only [hp, hp', if_true, if_false, hdouble r hr, hint r' hr', iff_false, not_true]
    exact hres k
  · simp only [hp, hp', if_true, if_false, hdouble r' hr', hint r hr, iff_true]
    exact iff_of_false (fun e => hres k e.symm) (by simp)
  · simp [hp, hp', hint r hr, hint r' hr']

/-! ## Integer keys -/

/-- The text of a map entry in braces. -/
def entryText (key v : Text) : Text := '\x7b' :: (key ++ ':' :: (v ++ ['\x7d']))

/-- The text of a map with the entry `"s":I1` in front of an entry. -/
def secondEntryText (key v : Text) : Text :=
  '\x7b' :: '"' :: 's' :: '"' :: ':' :: 'I' :: '1' :: ',' :: (key ++ ':' :: (v ++ ['\x7d']))

/-- The parser accepts `v` as the value part of a map entry: the map with the key `I1` and the value `v` is one bin with one
pair. -/
def AcceptsValue (R : AsRandom) (v : Text) : Prop :=
  ∃ val, objSpecParse R (entryText ['I', '1'] v) = .ok ⟨[.map 1 1 1 [(.scalar 1 (.int 0), val)]], 1⟩

/-- A map spec with an entry whose key is the constant integer `k`. -/
def HasIntKey (k : Int) : BinSpec → Prop
  | .map _ _ _ kvs => ∃ p ∈ kvs, p.1 = .scalar 1 (.constInt k)
  | .constMap _ m => ∃ p ∈ m, p.1 = .int k
  | _ => False

/-- A text is accepted as one map with the constant integer key `k`. -/
def AcceptedWithKey (R : AsRandom) (s : Text) (k : Int) : Prop :=
  ∃ spec, objSpecParse R s = .ok ⟨[spec], 1⟩ ∧ HasIntKey k spec

/-- An opening brace before something that is not a blank. -/
theorem readElement_brace {role : Role} (hk : role.isKey = false) (delim : Char) {s : Text} (hs : peek s ≠ ' ') :
    readElement role delim ('\x7b' :: s) = .ok (1, .openMap, s) := by
  refine readElement_eq (readMultiplier_of_not_digit rfl _) ?_
  simp [readToken, unlessKey, hk, skipBlank_of_ne hs]

/-- `I1` before a colon or a comma. -/
theorem readElement_I1 {role : Role} {delim : Char} {s : Text} : readElement role delim ('I' :: '1' :: s) = .ok (1, .scalar (.int 0), s) := by
  refine readElement_eq (readMultiplier_of_not_digit rfl _) ?_
  simp [readToken]

/-- A number before a colon is no multiplier. -/
theorem readMultiplier_token {k : Int} {tok : Text} (h : DecimalToken k tok) (role : Role) (r : Text) :
    readMultiplier role (tok ++ ':' :: r) = .ok (1, tok ++ ':' :: r) := by
  obtain ⟨sign, ds, hs, hds, rfl, -, -, -⟩ := h
  have hr : isDigit 10 (peek (':' :: r)) = false := by rfl
  have hnum : readNumber 10 (sign ++ ds ++ ':' :: r) = some (decide (sign = ['-']), digitsVal 10 ds, ':' :: r) := by
    rw [List.append_assoc]
    exact readNumber_numeral (by omega) (by omega) hs hds hr
  have hscan : ∃ v e, strtoul 10 (sign ++ ds ++ ':' :: r) = some ⟨v, ':' :: r, e⟩ := by
    rw [strtoul, hnum]
    simp only [Option.map_some]
    split
    · exact ⟨_, _, rfl⟩
    · exact ⟨_, _, rfl⟩
  obtain ⟨v, e, hscan⟩ := hscan
  have hcolon : peek (skipBlank (':' :: r)) ≠ '*' := by simp [skipBlank]
  simp only [readMultiplier, hscan, if_neg hcolon, ite_self]

/-- The stretch ends at the delimiter at the latest. -/
theorem numberWindow_append_delim (delim : Char) (v r : Text) : numberWindow delim (v ++ delim :: r) = numberWindow delim v := by
  unfold numberWindow
  induction v with
  | nil => simp
  | cons c v ih =>
    simp only [List.cons_append, List.takeWhile_cons]
    rw [ih]

/-- A decimal key: the constant integer when no point comes before the first comma or brace of the value, else an error. -/
theorem readElement_key {k : Int} {tok : Text} (h : DecimalToken k tok) {seen : List BinSpec}
    (hseen : repeatConstKey seen (.constInt k) = false) (v : Text) :
    ('.' ∉ numberWindow '\x7d' v → readElement (.key seen) '\x7d' (tok ++ ':' :: (v ++ ['\x7d'])) =
      .ok (1, .scalar (.constInt k), ':' :: (v ++ ['\x7d']))) ∧
    ('.' ∈ numberWindow '\x7d' v → ∀ res, readElement (.key seen) '\x7d' (tok ++ ':' :: (v ++ ['\x7d'])) ≠ .ok res) := by
  have htok : IntToken k tok := Or.inl h
  have hfirst := htok.first (':' :: (v ++ ['\x7d']))
  have hwin : '.' ∈ numberWindow '\x7d' (tok ++ ':' :: (v ++ ['\x7d'])) ↔ '.' ∈ numberWindow '\x7d' v := by
    rw [point_mem_window_iff htok (by simp [IsDelimiter])]
    have hcolon : numberWindow '\x7d' (':' :: (v ++ ['\x7d'])) = ':' :: numberWindow '\x7d' (v ++ ['\x7d']) := by
      simp [numberWindow]
    rw [hcolon, numberWindow_append_delim]
    simp
  have htoken : readToken (.key seen) '\x7d' 1 (tok ++ ':' :: (v ++ ['\x7d'])) =
      readConstant (.key seen) '\x7d' 1 (tok ++ ':' :: (v ++ ['\x7d'])) := by
    have hne : ∀ d, ¬ IsFirstChar d → peek (tok ++ ':' :: (v ++ ['\x7d'])) ≠ d := fun d hd => hfirst.ne hd
    simp only [readToken, hne 'b' (by unfold IsFirstChar; decide), hne 'I' (by unfold IsFirstChar; decide),
      hne 'S' (by unfold IsFirstChar; decide), hne 'B' (by unfold IsFirstChar; decide), hne 'D' (by unfold IsFirstChar; decide),
      hne '[' (by unfold IsFirstChar; decide), hne '\x7b' (by unfold IsFirstChar; decide), if_false]
  have hm := readMultiplier_token h (.key seen) (v ++ ['\x7d'])
  constructor
  · intro hp
    refine readElement_eq hm ?_
    rw [htoken]
    simp only [readConstant, parseConstVal_number htok, hwin, if_neg hp, constInteger_token htok (r := ':' :: (v ++ ['\x7d']))
      (by simp [Follows]), ne_eq, not_true_eq_false, if_false, hseen, Bool.false_eq_true]
  · rintro hp ⟨n, t, r⟩ hres
    obtain ⟨b, hm', hres⟩ := readElement_parts hres
    cases hm.symm.trans hm'
    rw [htoken] at hres
    simp only [readConstant, parseConstVal_number htok, hwin, if_pos hp] at hres
    cases hc : constDouble (.key seen) (tok ++ ':' :: (v ++ ['\x7d'])) with
    | error e => simp [hc] at hres
    | ok p =>
      have := (constDouble_ok hc).1
      simp [Role.isKey] at this

/-- The value of an accepted value part, as it is read after the colon. -/
theorem AcceptsValue.reads {R : AsRandom} {v : Text} (h : AcceptsValue R v) :
    ∃ t s₂ s₃, peek (skipBlank (v ++ ['\x7d'])) ≠ '\x7d' ∧ Reads .val '\x7d' t (skipBlank (v ++ ['\x7d'])) s₂ ∧
      peek (skipBlank s₂) = '\x7d' ∧ Separator '\x00' (skipBlank s₂).tail s₃ ∧ peek s₃ = '\x00' := by
  obtain ⟨val, hval⟩ := h
  obtain ⟨ts, s', hreads, -, ho⟩ := objSpecParse_ok_iff.mp hval
  obtain ⟨hts, -⟩ : [BinSpec.map 1 1 1 [(.scalar 1 (.int 0), val)]] = ts.map build ∧ 1 = total ts := by simpa using ho
  obtain ⟨t, rfl⟩ : ∃ t, ts = [t] := List.length_eq_one_iff.mp (by simpa using (congrArg List.length hts).symm)
  obtain ⟨-, s₁, s₃, ht, hsep, hend, -⟩ := hreads
  have hopen : readElement .elem '\x00' ('\x7b' :: 'I' :: '1' :: ':' :: (v ++ ['\x7d'])) = .ok (1, .openMap, _) :=
    readElement_brace rfl '\x00' (by simp)
  obtain ⟨kvs, s₂, rfl, hkvs, rfl⟩ := reads_map hopen ht
  -- the map has one pair, since its spec has one
  have hone : kvs.length = 1 := by
    simp only [List.map_cons, List.map_nil, List.cons.injEq, and_true, build] at hts
    split at hts
    · simp at hts
    · simp only [BinSpec.map.injEq] at hts
      exact hts.2.1.symm
  obtain ⟨⟨k, t⟩, rfl⟩ := List.length_eq_one_iff.mp hone
  obtain ⟨-, r₁, r₂, hk, -, hne, hv, hrest⟩ := hkvs
  rw [readElement_I1] at hk
  obtain ⟨-, -, rfl⟩ : 1 = k.mult ∧ Scalar.int 0 = k.type ∧ ':' :: (v ++ ['\x7d']) = r₁ := by simpa using hk
  have hskip : skipBlank (':' :: (v ++ ['\x7d'])) = ':' :: (v ++ ['\x7d']) := skipBlank_of_ne (by simp)
  rw [hskip, List.tail_cons] at hne hv
  rcases hrest with ⟨-, hbrace, rfl⟩ | ⟨-, hfalse⟩
  · exact ⟨t, r₂, s₃, hne, hv, hbrace, hsep, hend⟩
  · simp [ReadsPairs] at hfalse

/-- The spec of a map whose last key is the constant `k` has that key. -/
theorem hasIntKey_build {k : Int} {kvs : List (Leaf × SpecTree)} {t : SpecTree} (hmem : (⟨1, .constInt k⟩, t) ∈ kvs) :
    HasIntKey k (build (.map 1 kvs)) := by
  have hentries : ∀ kvs : List (Leaf × SpecTree), (⟨1, .constInt k⟩, t) ∈ kvs → (AsVal.int k, t.constVal) ∈ constEntries kvs := by
    intro kvs
    induction kvs with
    | nil => simp
    | cons p kvs ih =>
      intro hp
      obtain ⟨l, t'⟩ := p
      rcases List.mem_cons.mp hp with hp | hp
      · obtain ⟨rfl, rfl⟩ : l = ⟨1, .constInt k⟩ ∧ t' = t := by simpa [eq_comm] using hp
        simp [constEntries, leafVal, Scalar.constVal?]
      · exact List.mem_cons_of_mem _ (ih hp)
  simp only [build]
  split
  · exact ⟨_, hentries kvs hmem, rfl⟩
  · refine ⟨(Leaf.build ⟨1, .constInt k⟩, t.build), ?_, rfl⟩
    rw [buildPairs_eq_map]
    exact List.mem_map.mpr ⟨_, hmem, rfl⟩

/-- One map over the whole text is accepted. -/
theorem acceptedWithKey_of_readsPairs {R : AsRandom} {k : Int} {kvs : List (Leaf × SpecTree)} {t : SpecTree} {s s₂ s₃ : Text}
    (hs : peek s ≠ ' ') (hkvs : ReadsPairs [] kvs s s₂) (htot : keyTotal kvs < 2 ^ 32) (hsep : Separator '\x00' s₂.tail s₃)
    (hend : peek s₃ = '\x00') (hmem : (⟨1, .constInt k⟩, t) ∈ kvs) : AcceptedWithKey R ('\x7b' :: s) k := by
  refine ⟨build (.map 1 kvs), objSpecParse_ok_iff.mpr ⟨[.map 1 kvs], s₃, ?_, by simp [total, mult], ?_⟩, hasIntKey_build hmem⟩
  · exact ⟨by simp, s₂.tail, s₃, ⟨s, s₂, readElement_brace rfl _ hs, hkvs, htot, rfl⟩, hsep, hend, rfl⟩
  · simp [total, mult]

/-- Nothing is accepted when the pairs after the brace cannot be read. -/
theorem not_acceptedWithKey_of_readsPairs {R : AsRandom} {k : Int} {s : Text} (hs : peek s ≠ ' ')
    (hno : ∀ kvs s₂, ¬ ReadsPairs [] kvs s s₂) : ¬ AcceptedWithKey R ('\x7b' :: s) k := by
  intro h
  obtain ⟨spec, hparse, -⟩ := h
  obtain ⟨ts, s', hreads, -, ho⟩ := objSpecParse_ok_iff.mp hparse
  cases ts with
  | nil => simp at ho
  | cons t ts =>
    obtain ⟨-, s₁, s₃, ht, -⟩ := hreads
    obtain ⟨kvs, s₂, -, hkvs, -⟩ := reads_map (readElement_brace rfl _ hs) ht
    exact hno kvs s₂ hkvs

theorem DecimalToken.peek_ne {k : Int} {tok : Text} (h : DecimalToken k tok) (r : Text) {d : Char} (hd : ¬ IsFirstChar d) :
    peek (tok ++ r) ≠ d :=
  (IntToken.first (Or.inl h) r).ne hd

/-- The pairs `k:v` after the keys `seen`, with a value part that is accepted. -/
theorem readsPairs_entry {k : Int} {tok v : Text} (hk : DecimalToken k tok) (hp : '.' ∉ numberWindow '\x7d' v) {seen : List Leaf}
    (hseen : repeatConstKey (seen.map Leaf.build) (.constInt k) = false) {t : SpecTree} {s₂ : Text}
    (hne : peek (skipBlank (v ++ ['\x7d'])) ≠ '\x7d') (hv : Reads .val '\x7d' t (skipBlank (v ++ ['\x7d'])) s₂)
    (hend : peek (skipBlank s₂) = '\x7d') :
    ReadsPairs seen [(⟨1, .constInt k⟩, t)] (tok ++ ':' :: (v ++ ['\x7d'])) (skipBlank s₂) := by
  have hskip : skipBlank (':' :: (v ++ ['\x7d'])) = ':' :: (v ++ ['\x7d']) := skipBlank_of_ne (by simp)
  refine ⟨hk.peek_ne _ (by unfold IsFirstChar; decide), _, s₂, (readElement_key hk hseen v).1 hp, ?_, ?_, ?_,
    Or.inl ⟨rfl, hend, rfl⟩⟩
  · rw [hskip]; rfl
  · rw [hskip]; exact hne
  · rw [hskip]; exact hv

/-- With a point in the way, no pair can be read at the key. -/
theorem not_readsPairs_entry {k : Int} {tok v : Text} (hk : DecimalToken k tok) (hp : '.' ∈ numberWindow '\x7d' v) {seen : List Leaf}
    (hseen : repeatConstKey (seen.map Leaf.build) (.constInt k) = false) (kvs : List (Leaf × SpecTree)) (s₂ : Text) :
    ¬ ReadsPairs seen kvs (tok ++ ':' :: (v ++ ['\x7d'])) s₂ := by
  intro h
  cases kvs with
  | nil => exact hk.peek_ne _ (by unfold IsFirstChar; decide) h.2.1
  | cons p kvs =>
    obtain ⟨-, s₁, r₂, hread, -⟩ := h
    exact (readElement_key hk hseen v).2 hp _ hread

/-! ## The two shapes of entries -/

theorem acceptedWithKey_entry_iff {R : AsRandom} {k : Int} {tok v : Text} (hk : DecimalToken k tok) (hv : AcceptsValue R v) :
    AcceptedWithKey R (entryText tok v) k ↔ '.' ∉ numberWindow '\x7d' v := by
  have hblank : peek (tok ++ ':' :: (v ++ ['\x7d'])) ≠ ' ' := hk.peek_ne _ (by unfold IsFirstChar; decide)
  have hseen : repeatConstKey (([] : List Leaf).map Leaf.build) (.constInt k) = false := rfl
  constructor
  · intro h hp
    exact not_acceptedWithKey_of_readsPairs hblank (not_readsPairs_entry hk hp hseen) h
  · intro hp
    obtain ⟨t, s₂, s₃, hne, ht, hend, hsep, hnul⟩ := hv.reads
    exact acceptedWithKey_of_readsPairs hblank (readsPairs_entry hk hp hseen hne ht hend) (by simp) hsep hnul List.mem_cons_self

/-- The key `"s"` before a colon. -/
theorem readElement_s (r : Text) :
    readElement (.key []) '\x7d' ('"' :: 's' :: '"' :: ':' :: r) = .ok (1, .scalar (.constStr ['s']), ':' :: r) :=
  readElement_literalKey (.plain (by decide) (by decide) .nil) rfl (':' :: r)

/-- After the entry `"s":I1` the pairs that are left are read. -/
theorem readsPairs_second_iff {kvs : List (Leaf × SpecTree)} {s s₂ : Text} (hs : peek s ≠ ' ') :
    ReadsPairs [] kvs ('"' :: 's' :: '"' :: ':' :: 'I' :: '1' :: ',' :: s) s₂ ↔
      ∃ kvs', kvs = (⟨1, .constStr ['s']⟩, .leaf ⟨1, .int 0⟩) :: kvs' ∧ ReadsPairs [⟨1, .constStr ['s']⟩] kvs' s s₂ := by
  have hskip1 : skipBlank (':' :: 'I' :: '1' :: ',' :: s) = ':' :: 'I' :: '1' :: ',' :: s := skipBlank_of_ne (by simp)
  have hskip2 : skipBlank ('I' :: '1' :: ',' :: s) = 'I' :: '1' :: ',' :: s := skipBlank_of_ne (by simp)
  have hskip3 : skipBlank (',' :: s) = ',' :: s := skipBlank_of_ne (by simp)
  constructor
  · intro h
    cases kvs with
    | nil => simp [ReadsPairs] at h
    | cons p kvs =>
      obtain ⟨k, v⟩ := p
      obtain ⟨-, s₁, r₂, hk, -, -, hv, hrest⟩ := h
      simp only [List.map_nil] at hk
      rw [readElement_s] at hk
      obtain ⟨hmult, htype, rfl⟩ : 1 = k.mult ∧ Scalar.constStr ['s'] = k.type ∧ ':' :: 'I' :: '1' :: ',' :: s = s₁ := by
        simpa using hk
      obtain rfl : k = ⟨1, .constStr ['s']⟩ := by rw [hmult, htype]
      rw [hskip1, List.tail_cons, hskip2] at hv
      obtain ⟨rfl, rfl⟩ := reads_scalar readElement_I1 hv
      rw [hskip3, List.tail_cons, skipBlank_of_ne hs] at hrest
      rcases hrest with ⟨-, hbrace, -⟩ | ⟨-, hrest⟩
      · simp at hbrace
      · exact ⟨kvs, rfl, hrest⟩
  · intro h
    obtain ⟨kvs', rfl, hrest⟩ := h
    refine ⟨by simp, ':' :: 'I' :: '1' :: ',' :: s, ',' :: s, readElement_s _, ?_, ?_, ?_, Or.inr ⟨?_, ?_⟩⟩
    · rw [hskip1]; rfl
    · rw [hskip1, List.tail_cons, hskip2]; simp
    · rw [hskip1, List.tail_cons, hskip2]
      exact readElement_I1
    · rw [hskip3]; rfl
    · rw [hskip3, List.tail_cons, skipBlank_of_ne hs]
      exact hrest

theorem acceptedWithKey_second_iff {R : AsRandom} {k : Int} {tok v : Text} (hk : DecimalToken k tok) (hv : AcceptsValue R v) :
    AcceptedWithKey R (secondEntryText tok v) k ↔ '.' ∉ numberWindow '\x7d' v := by
  have hblank : peek (tok ++ ':' :: (v ++ ['\x7d'])) ≠ ' ' := hk.peek_ne _ (by unfold IsFirstChar; decide)
  have hseen : repeatConstKey ([⟨1, .constStr ['s']⟩].map Leaf.build) (.constInt k) = false := rfl
  constructor
  · intro h hp
    refine not_acceptedWithKey_of_readsPairs (by simp) ?_ h
    intro kvs s₂ hkvs
    obtain ⟨kvs', -, hrest⟩ := (readsPairs_second_iff hblank).mp hkvs
    exact not_readsPairs_entry hk hp hseen kvs' s₂ hrest
  · intro hp
    obtain ⟨t, s₂, s₃, hne, ht, hend, hsep, hnul⟩ := hv.reads
    have hentry := readsPairs_entry hk hp hseen hne ht hend
    exact acceptedWithKey_of_readsPairs (by simp) ((readsPairs_second_iff hblank).mpr ⟨_, rfl, hentry⟩) (by simp) hsep hnul
      (List.mem_cons_of_mem _ List.mem_cons_self)

/-- When a constant integer is classified by its own token. An integer key is accepted as such, alone or after another entry,
exactly when no point comes before the first comma or closing brace of the value; and two continuations give one integer token
the same type and value exactly when both have a point before their next comma or delimiter or neither has. -/
theorem constant_classified_iff (R : AsRandom) :
    (∀ k tok v, DecimalToken k tok → AcceptsValue R v →
      (AcceptedWithKey R (entryText tok v) k ↔ '.' ∉ numberWindow '\x7d' v) ∧
      (AcceptedWithKey R (secondEntryText tok v) k ↔ '.' ∉ numberWindow '\x7d' v)) ∧
    (∀ k tok role delim r r', IntToken k tok → IsDelimiter delim → Follows (peek r) → Follows (peek r') →
      (constResult role delim (tok ++ r) = constResult role delim (tok ++ r') ↔
        ('.' ∈ numberWindow delim r ↔ '.' ∈ numberWindow delim r'))) := by
  refine ⟨?_, ?_⟩
  · intro k tok v hk hv
    exact ⟨acceptedWithKey_entry_iff hk hv, acceptedWithKey_second_iff hk hv⟩
  · intro k tok role delim r r' htok hd hr hr'
    exact constResult_eq_iff htok role hd hr hr'

/-- The value `7` leaves the key 10 an integer. -/
theorem constant_classified_seven : AcceptedWithKey .littleEndian "\x7b10:7\x7d".toList 10 := by
  have htok : DecimalToken 10 ['1', '0'] :=
    ⟨[], ['1', '0'], Or.inl rfl, ⟨by simp, by simp; decide⟩, rfl, by decide, by decide, by decide⟩
  have hval : AcceptsValue .littleEndian ['7'] := ⟨.scalar 1 (.constInt 7), by decide +kernel⟩
  exact ((constant_classified_iff .littleEndian).1 10 ['1', '0'] ['7'] htok hval).1.mpr (by decide)

/-- The value `3.14` is accepted after a key `I1`, but after the key 10 the text is rejected. -/
theorem integer_key_rejected : AcceptsValue .littleEndian "3.14".toList ∧
    entryText ['1', '0'] "3.14".toList = "\x7b10:3.14\x7d".toList ∧
    ¬ AcceptedWithKey .littleEndian "\x7b10:3.14\x7d".toList 10 := by
  refine ⟨⟨.scalar 1 (.constDouble 0x40091eb851eb851f), by decide +kernel⟩, by decide, ?_⟩
  intro h
  obtain ⟨spec, hparse, -⟩ := h
  have hno : (objSpecParse .littleEndian "\x7b10:3.14\x7d".toList).toBool = false := by decide +kernel
  rw [hparse] at hno
  exact Bool.noConfusion hno

end AerospikeBenchmark
