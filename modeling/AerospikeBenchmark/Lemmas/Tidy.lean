import AerospikeBenchmark.ObjectSpec.Grammar

/-!
# Documented texts are tidy

A documented text of a bin type is passed over by the scan: in front of what can stand behind a bin type, the whole text is tidy
exactly when what stands behind is.
-/

namespace AerospikeBenchmark

open CText SpecTree

/-- The characters that can stand behind a bin type or a multiplier, after a blank. -/
def stopChars : Text := [',', ':', ']', '\x7d', '*', '\x00']

/-- A character behind a bin type or a multiplier. -/
def Stops (c : Char) : Prop := c ∈ stopChars

instance (c : Char) : Decidable (Stops c) := inferInstanceAs (Decidable (c ∈ _))

/-- A text that a bin type stands in front of. -/
structure Begins (s : Text) : Prop extends Opening s where
  goesOn : ¬ Stops (peek s)

theorem begins_cons {c : Char} (hspace : isSpace c = false) (hplus : c ≠ '+') (hstops : ¬ Stops c) (s : Text) : Begins (c :: s) :=
  ⟨⟨hspace, hplus⟩, hstops⟩

theorem Stops.opening {s : Text} (h : Stops (peek s)) : Opening s := by
  have hall : ∀ c ∈ stopChars, isSpace c = false ∧ c ≠ '+' := forall_mem_of_all (by decide)
  exact ⟨(hall _ h).1, (hall _ h).2⟩

theorem Opening.ne_blank {s : Text} (h : Opening s) : peek s ≠ ' ' := by
  intro hc
  have hspace := h.space
  rw [hc] at hspace
  exact absurd hspace (by decide)

theorem Opening.skipBlank_eq {g s : Text} (h : Opening s) (hg : Gap g) : skipBlank (g ++ s) = s := skipBlank_gap hg h.ne_blank

/-- What stands behind a bin type starts with a blank or with a separator. -/
theorem stops_cases {r : Text} (h : Stops (peek (skipBlank r))) : peek r = ' ' ∨ Stops (peek r) := by
  by_cases hb : peek r = ' '
  · exact Or.inl hb
  · rw [skipBlank_of_ne hb] at h
    exact Or.inr h

/-! ## Words -/

/-- A text behind a character of a word: no plus, and no number behind blanks or a sign. -/
structure Quiet (s : Text) : Prop where
  plus : peek s ≠ '+'
  length : strtoul 10 s ≠ none → isDigit 10 (peek s) = true

/-- The characters that have a meaning of their own in a constant. -/
def markChars : Text := ['"', 'x', 'X', '+', '-']

/-- The characters of a word: a bin type, a numeral or a boolean. -/
structure WordChar (c : Char) : Prop where
  space : isSpace c = false
  other : c ∉ markChars
  goesOn : ¬ Stops c

theorem strtoul_none {s : Text} (h : Opening s) (hm : peek s ≠ '-') (hd : isDigit 10 (peek s) = false) : strtoul 10 s = none := by
  simp [strtoul, readNumber, skipSpace_of_not h.space, readSign_of_ne hm h.plus, skipHexMark_of_ne, hd]

theorem Opening.quiet {s : Text} (h : Opening s) (hm : peek s ≠ '-') : Quiet s := by
  refine ⟨h.plus, fun hs => ?_⟩
  by_contra hd
  exact hs (strtoul_none h hm (by simpa using hd))

/-- A blank and a separator are quiet. -/
theorem quiet_of_stops {r : Text} (h : Stops (peek (skipBlank r))) : Quiet r := by
  have hmark : ∀ c ∈ stopChars, c ≠ '-' ∧ isDigit 10 c = false := forall_mem_of_all (by decide)
  obtain ⟨g, hg, hr⟩ := exists_gap r
  rcases hg with rfl | rfl
  · rw [hr]
    exact h.opening.quiet (hmark _ h).1
  · have hskip : skipSpace r = skipSpace (skipBlank r) := by
      rw [hr]
      rfl
    have hnone : strtoul 10 r = strtoul 10 (skipBlank r) := by
      simp only [strtoul, readNumber, hskip, skipSpace_of_not h.opening.space]
    refine ⟨by rw [hr]; simp, fun hs => ?_⟩
    rw [hnone] at hs
    exact absurd (strtoul_none h.opening (hmark _ h).1 (hmark _ h).2) hs

theorem tidy_cons {c : Char} (hc : c ≠ '"') (s : Text) : TidyFrom .outside (c :: s) ↔ PlainAt c s ∧ TidyFrom .outside s := by
  simp [TidyFrom, hc]

/-- A character that only a plus may not follow. -/
theorem plainAt_of_ne {c : Char} {s : Text} (hspace : isSpace c = false) (hc : c ∉ [',', 'S', 'B', 'x', 'X']) (hs : peek s ≠ '+') :
    PlainAt c s := by
  simp only [List.mem_cons, List.not_mem_nil, or_false, not_or] at hc
  exact ⟨by simp [hspace], by simp [hc], by simp [hc], by simp [hc], fun h => absurd h hs⟩

theorem WordChar.plainAt {c : Char} {s : Text} (hc : WordChar c) (hs : Quiet s) : PlainAt c s := by
  have hother := hc.other
  have hcomma : c ≠ ',' := by
    rintro rfl
    exact hc.goesOn (by decide)
  simp only [markChars, List.mem_cons, List.not_mem_nil, or_false, not_or] at hother
  exact ⟨by simp [hc.space], by simp [hcomma], fun _ => hs.length, by simp [hother], fun h => absurd h hs.plus⟩

theorem WordChar.begins {c : Char} (hc : WordChar c) (s : Text) : Begins (c :: s) := by
  have hother := hc.other
  simp only [markChars, List.mem_cons, List.not_mem_nil, or_false, not_or] at hother
  exact begins_cons hc.space hother.2.2.2.1 hc.goesOn s

theorem WordChar.quiet {c : Char} (hc : WordChar c) (s : Text) : Quiet (c :: s) := by
  have hother := hc.other
  simp only [markChars, List.mem_cons, List.not_mem_nil, or_false, not_or] at hother
  exact (hc.begins s).quiet hother.2.2.2.2

theorem WordChar.tidy {c : Char} {s : Text} (hc : WordChar c) (hs : Quiet s) :
    TidyFrom .outside (c :: s) ↔ TidyFrom .outside s := by
  have hother := hc.other
  simp only [markChars, List.mem_cons, List.not_mem_nil, or_false, not_or] at hother
  rw [tidy_cons hother.1]
  exact and_iff_right (hc.plainAt hs)

theorem quiet_word {a r : Text} (ha : ∀ c ∈ a, WordChar c) (hr : Quiet r) : Quiet (a ++ r) := by
  cases a with
  | nil => exact hr
  | cons c a => exact (ha c List.mem_cons_self).quiet _

/-- A word is passed over. -/
theorem tidy_word {a r : Text} (ha : ∀ c ∈ a, WordChar c) (hr : Quiet r) :
    TidyFrom .outside (a ++ r) ↔ TidyFrom .outside r := by
  induction a with
  | nil => rfl
  | cons c a ih =>
    have ha' : ∀ d ∈ a, WordChar d := fun d hd => ha d (List.mem_cons_of_mem _ hd)
    rw [List.cons_append, (ha c List.mem_cons_self).tidy (quiet_word ha' hr)]
    exact ih ha'

theorem wordChar_of_isDigit {c : Char} (h : isDigit 16 c = true) : WordChar c := by
  have hother : ∀ d ∈ markChars, isDigit 16 d = false := forall_mem_of_all (by decide)
  have hstops : ∀ d ∈ stopChars, isDigit 16 d = false := forall_mem_of_all (by decide)
  refine ⟨isSpace_of_isDigit (by omega) h, fun hc => ?_, fun hc => ?_⟩
  · rw [hother c hc] at h
    exact Bool.noConfusion h
  · rw [hstops c hc] at h
    exact Bool.noConfusion h

/-- The characters of a numeral. -/
theorem wordChar_decimal {ds : Text} (h : ∀ c ∈ ds, isDigit 10 c = true) : ∀ c ∈ ds, WordChar c := by
  intro c hc
  have h10 := h c hc
  refine wordChar_of_isDigit ?_
  simp only [isDigit, decide_eq_true_eq] at h10 ⊢
  omega

instance (c : Char) : Decidable (WordChar c) :=
  decidable_of_iff (isSpace c = false ∧ c ∉ markChars ∧ ¬ Stops c)
    ⟨fun h => ⟨h.1, h.2.1, h.2.2⟩, fun h => ⟨h.space, h.other, h.goesOn⟩⟩

/-- The letters of the boolean words. -/
def booleanLetters : Text := ['t', 'r', 'u', 'e', 'f', 'a', 'l', 's']

theorem wordChar_of_toLower {c : Char} (h : c.toLower ∈ booleanLetters) : WordChar c := by
  have hspace : isSpace c = false := by
    by_contra hs
    simp only [Bool.not_eq_false, isSpace, Bool.or_eq_true, beq_iff_eq] at hs
    rcases hs with ((((rfl | rfl) | rfl) | rfl) | rfl) | rfl <;> exact absurd h (by decide)
  have hother : ∀ d ∈ markChars, d.toLower ∉ booleanLetters := forall_mem_of_all (by decide)
  have hstops : ∀ d ∈ stopChars, d.toLower ∉ booleanLetters := forall_mem_of_all (by decide)
  exact ⟨hspace, fun hc => hother c hc h, fun hc => hstops c hc h⟩

/-! ## String literals -/

theorem tidy_inside {c : Char} (hq : c ≠ '"') (hb : c ≠ '\\') (s : Text) : TidyFrom .inside (c :: s) ↔ TidyFrom .inside s := by
  simp [TidyFrom, hq, hb]

theorem tidy_escape (e : Char) (s : Text) : TidyFrom .inside ('\\' :: e :: s) ↔ EscapeAt (e :: s) ∧ TidyFrom .inside s := by
  simp [TidyFrom]

theorem tidy_inside_digit {base : Nat} (hb : base ≤ 36) {c : Char} (h : isDigit base c = true) (s : Text) :
    TidyFrom .inside (c :: s) ↔ TidyFrom .inside s := by
  have hno : ∀ d ∈ ['"', '\\'], digitOf d = 36 := forall_mem_of_all (by decide)
  refine tidy_inside ?_ ?_ s <;> rintro rfl <;> simp [isDigit, hno] at h <;> omega

theorem isDigit_of_isOctal {c : Char} (h : isOctal c = true) : isDigit 10 c = true := by
  simp only [isOctal, Bool.and_eq_true, decide_eq_true_eq] at h
  have h0 : '0'.toNat ≤ c.toNat := h.1
  have h7 : c.toNat ≤ '7'.toNat := h.2
  have hdigit : '0' ≤ c ∧ c ≤ '9' := ⟨h.1, Char.le_trans h.2 (by decide)⟩
  have h48 : '0'.toNat = 48 := rfl
  have h55 : '7'.toNat = 55 := rfl
  simp only [isDigit, digitOf, if_pos hdigit, decide_eq_true_eq]
  omega

/-- The content of a literal is passed over. -/
theorem tidy_literalBody {s t : Text} (h : LiteralBody s t) (q : Text) : TidyFrom .inside (s ++ q) ↔ TidyFrom .inside q := by
  induction h with
  | nil => rfl
  | plain hq hb _ ih => rw [List.cons_append, tidy_inside hq hb, ih]
  | @simple e d s t hd _ ih =>
    have hnone : simpleEscapes.lookup 'x' = none := by decide
    have hx : e ≠ 'x' := by
      rintro rfl
      simp [hnone] at hd
    rw [List.cons_append, List.cons_append, tidy_escape, ih]
    exact and_iff_right fun h => absurd h hx
  | @octal e a b s t he ha hb _ ih =>
    have hx : e ≠ 'x' := by
      rintro rfl
      exact absurd he (by decide)
    simp only [List.cons_append]
    rw [tidy_escape, tidy_inside_digit (by omega) (isDigit_of_isOctal ha), tidy_inside_digit (by omega) (isDigit_of_isOctal hb), ih]
    exact and_iff_right fun h => absurd h hx
  | @hex a b s t ha hb _ ih =>
    simp only [List.cons_append]
    rw [tidy_escape, tidy_inside_digit (by omega) ha, tidy_inside_digit (by omega) hb, ih]
    exact and_iff_right fun _ => ⟨ha, hb⟩

/-! ## Scalars -/

theorem begins_word {a : Text} (ha : ∀ c ∈ a, WordChar c) (hne : a ≠ []) (r : Text) : Begins (a ++ r) := by
  obtain ⟨c, a', rfl⟩ := List.exists_cons_of_ne_nil hne
  exact (ha c List.mem_cons_self).begins _

/-- What the scan does with the text of a bin type in front of `r`. -/
structure PassedOver (a r : Text) : Prop where
  begins : Begins (a ++ r)
  tidy : TidyFrom .outside (a ++ r) ↔ TidyFrom .outside r

theorem passedOver_word {a r : Text} (ha : ∀ c ∈ a, WordChar c) (hne : a ≠ []) (hr : Quiet r) : PassedOver a r :=
  ⟨begins_word ha hne r, tidy_word ha hr⟩

/-- A minus in front of a bin type that is passed over. -/
theorem passedOver_minus {a r : Text} (h : PassedOver a r) : PassedOver ('-' :: a) r := by
  refine ⟨begins_cons (by decide) (by decide) (by decide) _, ?_⟩
  rw [List.cons_append, tidy_cons (by decide), h.tidy]
  exact and_iff_right (plainAt_of_ne (by decide) (by decide) h.begins.plus)

theorem passedOver_numeral {ds r : Text} (hds : IsNumeral 10 ds) (hr : Quiet r) : PassedOver ds r :=
  passedOver_word (wordChar_decimal hds.all) hds.ne_nil hr

theorem passedOver_decimal {k : Int} {a r : Text} (h : DecimalToken k a) (hplus : peek a ≠ '+') (hr : Quiet r) : PassedOver a r := by
  obtain ⟨sign, ds, hs, hds, rfl, -⟩ := h
  rcases hs with rfl | rfl | rfl
  · exact passedOver_numeral hds hr
  · exact absurd rfl hplus
  · exact passedOver_minus (passedOver_numeral hds hr)

theorem passedOver_hex {k : Int} {a r : Text} (h : HexToken k a) (hr : Stops (peek (skipBlank r))) : PassedOver a r := by
  obtain ⟨x, ds, hx, hds, -, rfl, -⟩ := h
  have hend : isDigit 16 (peek r) = false ∧ peek r ≠ '.' := by
    have hall : ∀ c ∈ stopChars, isDigit 16 c = false ∧ c ≠ '.' := forall_mem_of_all (by decide)
    rcases stops_cases hr with h | h
    · rw [h]
      decide
    · exact hall _ h
  have hchars : ∀ c ∈ ds, WordChar c := fun c hc => wordChar_of_isDigit (hds.all c hc)
  have hmark : isSpace x = false ∧ x ≠ ',' ∧ ¬ (x = 'S' ∨ x = 'B') ∧ x ≠ '"' ∧ x ≠ '+' ∧ x ≠ '-' := by
    rcases hx with rfl | rfl <;> decide
  have hplain : PlainAt x (ds ++ r) := by
    refine ⟨by simp [hmark.1], fun h => absurd h hmark.2.1, fun h => absurd h hmark.2.2.1, fun _ => ?_,
      fun h => absurd h (quiet_word hchars (quiet_of_stops hr)).plus⟩
    rw [afterDigits_append hds.all hend.1]
    exact hend.2
  have hquiet : Quiet (x :: (ds ++ r)) := Opening.quiet ⟨hmark.1, hmark.2.2.2.2.1⟩ hmark.2.2.2.2.2
  refine ⟨begins_cons (by decide) (by decide) (by decide) _, ?_⟩
  rw [List.cons_append, List.cons_append, WordChar.tidy (by decide) hquiet, tidy_cons hmark.2.2.2.1,
    tidy_word hchars (quiet_of_stops hr)]
  exact and_iff_right hplain

/-- An exponent part is passed over. -/
theorem tidy_exponent {k : Int} {e r : Text} (h : ExponentPart 'e' 'E' k e) (hr : Quiet r) :
    Quiet (e ++ r) ∧ (TidyFrom .outside (e ++ r) ↔ TidyFrom .outside r) := by
  rcases h with ⟨-, rfl⟩ | ⟨m, sign, ds, hm, hs, hds, rfl, -⟩
  · exact ⟨hr, Iff.rfl⟩
  have hmark : WordChar m ∧ m ∉ [',', 'S', 'B', 'x', 'X'] ∧ m ≠ '"' := by rcases hm with rfl | rfl <;> decide
  have hdigits := tidy_word (wordChar_decimal hds.all) hr
  have hquiet := quiet_word (wordChar_decimal hds.all) hr
  refine ⟨hmark.1.quiet _, ?_⟩
  -- a plus is allowed behind the mark, and only there
  have hplain : PlainAt m (sign ++ (ds ++ r)) := by
    simp only [List.mem_cons, List.not_mem_nil, or_false, not_or] at hmark
    exact ⟨by simp [hmark.1.space], by simp [hmark], by simp [hmark], by simp [hmark], fun _ => by tauto⟩
  have hsign : TidyFrom .outside (sign ++ (ds ++ r)) ↔ TidyFrom .outside (ds ++ r) := by
    rcases hs with rfl | rfl | rfl
    · rfl
    · rw [List.singleton_append, tidy_cons (by decide)]
      exact and_iff_right (plainAt_of_ne (by decide) (by decide) hquiet.plus)
    · rw [List.singleton_append, tidy_cons (by decide)]
      exact and_iff_right (plainAt_of_ne (by decide) (by decide) hquiet.plus)
  rw [List.cons_append, List.append_assoc, tidy_cons hmark.2.2, hsign, hdigits]
  exact and_iff_right hplain

theorem passedOver_pointed (d : PointedDecimal) {r : Text} (hr : Quiet r) : PassedOver d.text r := by
  obtain ⟨hquiet, htidy⟩ := tidy_exponent d.exponent_part hr
  have hnumber : ∀ c ∈ d.whole ++ '.' :: d.frac, WordChar c := by
    intro c hc
    simp only [List.mem_append, List.mem_cons] at hc
    rcases hc with hc | rfl | hc
    · exact wordChar_decimal d.whole_digits c hc
    · decide
    · exact wordChar_decimal d.frac_digits c hc
  have htext : d.text ++ r = (d.whole ++ '.' :: d.frac) ++ (d.exponent ++ r) := by simp [PointedDecimal.text]
  refine ⟨?_, ?_⟩ <;> rw [htext]
  · exact begins_word hnumber (by simp) _
  · rw [tidy_word hnumber hquiet, htidy]

theorem passedOver_double (d : DoubleLiteral) {r : Text} (hr : Quiet r) : PassedOver d.literal r := by
  have hf : ∀ c ∈ (if d.marked then ['f'] else []), WordChar c := by
    split
    · exact forall_mem_of_all (by decide)
    · simp
  have hnumber := passedOver_pointed d.toPointedDecimal (quiet_word hf hr)
  have hmarked : PassedOver (d.text ++ if d.marked then ['f'] else []) r := by
    refine ⟨?_, ?_⟩ <;> rw [List.append_assoc]
    · exact hnumber.begins
    · exact hnumber.tidy.trans (tidy_word hf hr)
  unfold DoubleLiteral.literal
  cases d.neg
  · exact hmarked
  · exact passedOver_minus hmarked

theorem passedOver_string {body buf : Text} (h : LiteralBody body buf) (r : Text) : PassedOver ('"' :: (body ++ ['"'])) r := by
  refine ⟨begins_cons (by decide) (by decide) (by decide) _, ?_⟩
  have hplain : PlainAt '"' (body ++ '"' :: r) := ⟨fun h => absurd h (by decide), fun h => absurd h (by decide),
    fun h => absurd h (by decide), fun h => absurd h (by decide), fun _ => Or.inr (Or.inr rfl)⟩
  have htext : '"' :: (body ++ ['"']) ++ r = '"' :: (body ++ '"' :: r) := by simp
  rw [htext]
  calc TidyFrom .outside ('"' :: (body ++ '"' :: r))
      ↔ PlainAt '"' (body ++ '"' :: r) ∧ TidyFrom .inside (body ++ '"' :: r) := by simp [TidyFrom]
    _ ↔ TidyFrom .inside (body ++ '"' :: r) := and_iff_right hplain
    _ ↔ TidyFrom .inside ('"' :: r) := tidy_literalBody h _
    _ ↔ TidyFrom .outside r := by simp [TidyFrom]

/-- A scalar is passed over. -/
theorem passedOver_scalar {c : Scalar} {a r : Text} (h : WrittenScalar c a) (hin : c.InRange) (hr : Stops (peek (skipBlank r))) :
    PassedOver a r := by
  have hq := quiet_of_stops hr
  have hword : ∀ {w : Text}, (∀ d ∈ w, d ∈ booleanLetters) → w ≠ [] → a.map Char.toLower = w →
      PassedOver a r := by
    rintro w hw hne rfl
    refine passedOver_word (fun d hd => wordChar_of_toLower (hw _ (List.mem_map_of_mem hd))) ?_ hq
    rintro rfl
    exact hne rfl
  cases c with
  | bool =>
    obtain rfl : a = ['b'] := h
    exact passedOver_word (forall_mem_of_all (by decide)) (by simp) hq
  | int k =>
    rcases h with rfl | ⟨-, rfl⟩
    · have hall : ∀ k : Fin 8, ∀ c ∈ ['I', Char.ofNat (k + 49)], WordChar c := fun k =>
        forall_mem_of_all (by revert k; decide)
      have hk : k < 8 := by simp only [Scalar.InRange] at hin; omega
      exact passedOver_word (hall ⟨k, hk⟩) (by simp) hq
    · exact passedOver_word (forall_mem_of_all (by decide)) (by simp) hq
  | str n | bytes n =>
    obtain ⟨ds, hds, rfl⟩ := h
    refine passedOver_word ?_ (by simp) hq
    simp only [List.mem_cons, forall_eq_or_imp]
    exact ⟨by decide, wordChar_decimal hds.isNumeral.all⟩
  | double =>
    obtain rfl : a = ['D'] := h
    exact passedOver_word (forall_mem_of_all (by decide)) (by simp) hq
  | constBool b =>
    cases b with
    | true =>
      rcases h with rfl | h
      · exact passedOver_word (forall_mem_of_all (by decide)) (by simp) hq
      · exact hword (forall_mem_of_all (by decide)) (by simp) h
    | false =>
      rcases h with rfl | h
      · exact passedOver_word (forall_mem_of_all (by decide)) (by simp) hq
      · exact hword (forall_mem_of_all (by decide)) (by simp) h
  | constInt k =>
    obtain ⟨h | h, hplus⟩ := h
    · exact passedOver_decimal h hplus hq
    · exact passedOver_hex h hr
  | constDouble v =>
    obtain ⟨d, rfl, -⟩ := h
    exact passedOver_double d hq
  | constStr t =>
    obtain ⟨body, buf, h, rfl, -⟩ := h
    exact passedOver_string h r

/-! ## Blanks, separators and multipliers -/

theorem peek_gap_ne_plus {g s : Text} (hg : Gap g) (hs : Opening s) : peek (g ++ s) ≠ '+' := by
  rcases peek_gap (s := s) hg with h | h <;> rw [h]
  · decide
  · exact hs.plus

theorem tidy_gap {g s : Text} (hg : Gap g) (hs : Opening s) : TidyFrom .outside (g ++ s) ↔ TidyFrom .outside s := by
  rcases hg with rfl | rfl
  · rfl
  · have hplain : PlainAt ' ' s :=
      ⟨fun _ => ⟨rfl, hs.space⟩, fun h => absurd h (by decide), fun h => absurd h (by decide), fun h => absurd h (by decide),
        fun h => absurd h hs.plus⟩
    rw [List.singleton_append, tidy_cons (by decide)]
    exact and_iff_right hplain

/-- A mark and the blank behind it. -/
theorem tidy_mark {c : Char} {g s : Text} (hspace : isSpace c = false) (hc : c ∉ [',', 'S', 'B', 'x', 'X', '"']) (hg : Gap g)
    (hs : Opening s) : TidyFrom .outside (c :: (g ++ s)) ↔ TidyFrom .outside s := by
  have hmark : c ∉ [',', 'S', 'B', 'x', 'X'] := fun h => hc (List.mem_append_left ['"'] h)
  rw [tidy_cons (by rintro rfl; simp at hc), tidy_gap hg hs]
  exact and_iff_right (plainAt_of_ne hspace hmark (peek_gap_ne_plus hg hs))

/-- A comma and the blank behind it, in front of another bin type. -/
theorem tidy_comma {g s : Text} (hg : Gap g) (hs : Begins s) : TidyFrom .outside (',' :: (g ++ s)) ↔ TidyFrom .outside s := by
  have hgoes : peek s ≠ ']' ∧ peek s ≠ '\x00' := by
    constructor <;> intro h <;> exact hs.goesOn (h ▸ by decide)
  have hplain : PlainAt ',' (g ++ s) := by
    refine ⟨fun h => absurd h (by decide), fun _ => ?_, fun h => absurd h (by decide), fun h => absurd h (by decide),
      fun h => absurd h (peek_gap_ne_plus hg hs.toOpening)⟩
    rw [hs.skipBlank_eq hg]
    exact hgoes
  rw [tidy_cons (by decide), tidy_gap hg hs.toOpening]
  exact and_iff_right hplain

/-- A multiplier is passed over, in front of a bin type. -/
theorem passedOver_mult {n : Nat} {m b : Text} (h : RendersMult n m) (hb : Begins b) : PassedOver m b := by
  rcases h with ⟨-, rfl⟩ | ⟨ds, g, g', hds, hg, hg', rfl⟩
  · exact ⟨hb, Iff.rfl⟩
  have hstar : Opening ('*' :: (g' ++ b)) := ⟨by rfl, by simp⟩
  have hstops : Stops (peek (skipBlank (g ++ '*' :: (g' ++ b)))) := by
    rw [hstar.skipBlank_eq hg]
    exact (by decide : Stops '*')
  have hdigits := passedOver_numeral hds.isNumeral (quiet_of_stops hstops)
  have htext : ds ++ (g ++ '*' :: g') ++ b = ds ++ (g ++ '*' :: (g' ++ b)) := by simp
  refine ⟨htext ▸ hdigits.begins, ?_⟩
  rw [htext, hdigits.tidy, tidy_gap hg hstar, tidy_mark (by decide) (by decide) hg' hb.toOpening]

theorem PassedOver.mult {n : Nat} {m a r : Text} (h : PassedOver a r) (hm : RendersMult n m) : PassedOver (m ++ a) r := by
  have hpass := passedOver_mult hm h.begins
  refine ⟨?_, ?_⟩ <;> rw [List.append_assoc]
  · exact hpass.begins
  · exact hpass.tidy.trans h.tidy

theorem passedOver_leaf {l : Leaf} {a r : Text} (h : WrittenLeaf l a) (hin : l.type.InRange) (hr : Stops (peek (skipBlank r))) :
    PassedOver a r := by
  obtain ⟨m, b, hm, hb, rfl⟩ := h
  exact (passedOver_scalar hb hin hr).mult hm

/-! ## Trees -/

/-- Every documented text of the tree is passed over. -/
def TreePassedOver (t : SpecTree) : Prop :=
  ∀ a r, Written t a → t.WF → Stops (peek (skipBlank r)) → PassedOver a r

/-- The elements up to what ends them, by induction on their number. -/
theorem tidy_elems {ts : List SpecTree} (ih : ∀ t ∈ ts, TreePassedOver t) :
    ∀ {body r : Text}, WrittenElems ts body → WFList ts → Stops (peek r) →
      (ts ≠ [] → Begins (body ++ r)) ∧ (TidyFrom .outside (body ++ r) ↔ TidyFrom .outside r) := by
  induction ts with
  | nil =>
    rintro body r rfl - -
    exact ⟨fun h => absurd rfl h, Iff.rfl⟩
  | cons t ts ihts =>
    rintro body r ⟨a, b, ha, rfl, hb⟩ ⟨ht, hts⟩ hr
    have hpass := ih t List.mem_cons_self a (b ++ r) ha ht
    rw [List.append_assoc]
    rcases hb with ⟨rfl, hg⟩ | ⟨hne, g, c, hg, hc, rfl⟩
    · have hnext := hpass (by rw [hr.opening.skipBlank_eq hg]; exact hr)
      exact ⟨fun _ => hnext.begins, hnext.tidy.trans (tidy_gap hg hr.opening)⟩
    · obtain ⟨hbegins, htidy⟩ := ihts (fun t' h' => ih t' (List.mem_cons_of_mem _ h')) hc hts hr
      have hnext := hpass (by decide : Stops ',')
      refine ⟨fun _ => hnext.begins, hnext.tidy.trans ?_⟩
      rw [List.cons_append, List.append_assoc, tidy_comma hg (hbegins hne)]
      exact htidy

/-- The pairs up to the brace, by induction on their number. -/
theorem tidy_pairs {kvs : List (Leaf × SpecTree)} (ih : ∀ p ∈ kvs, TreePassedOver p.2) :
    ∀ {body r : Text}, WrittenPairs kvs body → WFPairs kvs → peek r = '\x7d' →
      (kvs ≠ [] → Begins (body ++ r)) ∧ (TidyFrom .outside (body ++ r) ↔ TidyFrom .outside r) := by
  induction kvs with
  | nil =>
    rintro body r rfl - -
    exact ⟨fun h => absurd rfl h, Iff.rfl⟩
  | cons p kvs ihkvs =>
    obtain ⟨k, v⟩ := p
    rintro body r ⟨a, g, g', b, g'', c, ha, hg, hg', hb, hg'', rfl, hc⟩ ⟨hk, hv, -, hwf⟩ hr
    -- what stands behind the value, behind the colon and behind the key
    have hcr : Stops (peek (c ++ r)) ∧ (TidyFrom .outside (c ++ r) ↔ TidyFrom .outside r) := by
      rcases hc with ⟨-, rfl⟩ | ⟨hne, h, d, hh, hd, rfl⟩
      · refine ⟨?_, Iff.rfl⟩
        rw [List.nil_append, hr]
        decide
      · obtain ⟨hbegins, htidy⟩ := ihkvs (fun p hp => ih p (List.mem_cons_of_mem _ hp)) hd hwf hr
        refine ⟨(by decide : Stops ','), ?_⟩
        rw [List.cons_append, List.append_assoc, tidy_comma hh (hbegins hne)]
        exact htidy
    have hvalue := ih (k, v) List.mem_cons_self b (g'' ++ (c ++ r)) hb hv
      (by rw [hcr.1.opening.skipBlank_eq hg'']; exact hcr.1)
    have hcolon : Opening (':' :: (g' ++ (b ++ (g'' ++ (c ++ r))))) := ⟨by rfl, by simp⟩
    have hkey := passedOver_leaf (r := g ++ ':' :: (g' ++ (b ++ (g'' ++ (c ++ r))))) ha hk.inRange
      (by rw [hcolon.skipBlank_eq hg]; exact (by decide : Stops ':'))
    have htext : a ++ (g ++ ':' :: (g' ++ (b ++ (g'' ++ c)))) ++ r = a ++ (g ++ ':' :: (g' ++ (b ++ (g'' ++ (c ++ r))))) := by
      simp
    rw [htext]
    refine ⟨fun _ => hkey.begins, ?_⟩
    calc TidyFrom .outside (a ++ (g ++ ':' :: (g' ++ (b ++ (g'' ++ (c ++ r))))))
        ↔ TidyFrom .outside (g ++ ':' :: (g' ++ (b ++ (g'' ++ (c ++ r))))) := hkey.tidy
      _ ↔ TidyFrom .outside (':' :: (g' ++ (b ++ (g'' ++ (c ++ r))))) := tidy_gap hg hcolon
      _ ↔ TidyFrom .outside (b ++ (g'' ++ (c ++ r))) := tidy_mark (by decide) (by decide) hg' hvalue.begins.toOpening
      _ ↔ TidyFrom .outside (g'' ++ (c ++ r)) := hvalue.tidy
      _ ↔ TidyFrom .outside (c ++ r) := tidy_gap hg'' hcr.1.opening
      _ ↔ TidyFrom .outside r := hcr.2

/-- Brackets around a body that is passed over. -/
theorem passedOver_brackets {n : Nat} {l e : Char} {m g body r : Text} (hm : RendersMult n m) (hg : Gap g)
    (hl : l ∉ [',', 'S', 'B', 'x', 'X', '"'] ∧ isSpace l = false ∧ l ≠ '+' ∧ ¬ Stops l)
    (he : e ∉ [',', 'S', 'B', 'x', 'X', '"'] ∧ Stops e) (hr : Stops (peek (skipBlank r)))
    (hopen : body = [] ∨ Begins (body ++ e :: r))
    (hbody : TidyFrom .outside (body ++ e :: r) ↔ TidyFrom .outside (e :: r)) :
    PassedOver (m ++ l :: (g ++ (body ++ [e]))) r := by
  refine PassedOver.mult ⟨begins_cons hl.2.1 hl.2.2.1 hl.2.2.2 _, ?_⟩ hm
  have hclose : Opening (e :: r) := Stops.opening (s := e :: r) he.2
  have hopening : Opening (body ++ e :: r) := by
    rcases hopen with rfl | h
    · exact hclose
    · exact h.toOpening
  have hlast : TidyFrom .outside (e :: r) ↔ TidyFrom .outside r := by
    rw [tidy_cons (by rintro rfl; simp at he)]
    refine and_iff_right (plainAt_of_ne hclose.space (fun h => he.1 (List.mem_append_left ['"'] h)) ?_)
    exact (quiet_of_stops hr).plus
  have htext : l :: (g ++ (body ++ [e])) ++ r = l :: (g ++ (body ++ e :: r)) := by simp
  rw [htext, tidy_mark hl.2.1 hl.1 hg hopening, hbody, hlast]

/-- Documented texts of trees are passed over. -/
theorem treePassedOver (t : SpecTree) : TreePassedOver t := by
  induction t using SpecTree.induct with
  | leaf l =>
    intro a r ha hl hr
    exact passedOver_leaf ha (LeafOk.inRange hl) hr
  | list n es ih =>
    rintro a r ⟨m, g, body, hm, hg, hbody, rfl⟩ ⟨-, -, -, hes⟩ hr
    obtain ⟨hbegins, htidy⟩ := tidy_elems ih (r := ']' :: r) hbody hes (by decide : Stops ']')
    refine passedOver_brackets hm hg (by decide) (by decide) hr ?_ htidy
    rcases eq_or_ne es [] with rfl | hne
    · exact Or.inl hbody
    · exact Or.inr (hbegins hne)
  | map n kvs ih =>
    rintro a r ⟨m, g, body, hm, hg, hbody, rfl⟩ ⟨-, -, -, -, hkvs⟩ hr
    obtain ⟨hbegins, htidy⟩ := tidy_pairs ih (r := '\x7d' :: r) hbody hkvs rfl
    refine passedOver_brackets hm hg (by decide) (by decide) hr ?_ htidy
    rcases eq_or_ne kvs [] with rfl | hne
    · exact Or.inl hbody
    · exact Or.inr (hbegins hne)

/-- A documented text is tidy. -/
theorem tidy_of_written {ts : List SpecTree} {text : Text} (h : WrittenElems ts text) (hwf : WFList ts) : Tidy text := by
  obtain ⟨hbegins, htidy⟩ := tidy_elems (fun t _ => treePassedOver t) (r := []) h hwf (by decide : Stops '\x00')
  rw [List.append_nil] at hbegins htidy
  refine ⟨?_, htidy.mpr trivial⟩
  rcases eq_or_ne ts [] with rfl | hne
  · obtain rfl : text = [] := h
    decide
  · exact (hbegins hne).toOpening

end AerospikeBenchmark
