import AerospikeBenchmark.Lemmas.Checked
import AerospikeBenchmark.Lemmas.Tidy
import AerospikeBenchmark.ObjectSpec.Literal

/-!
# The two passes agree

Where the first pass has counted a character the second one stores one, and both go on at the same place. So the second pass stays
below the length that was counted, and what the two accept is `AcceptedBody`.
-/

namespace AerospikeBenchmark

open CText Results

/-! ## Hexadecimal escapes -/

theorem strtoul_hexPair {a b : Char} (ha : isDigit 16 a = true) (hb : isDigit 16 b = true) :
    strtoul 16 [a, b] = some ⟨digitOf a * 16 + digitOf b, [], false⟩ := by
  have hspace : skipSpace [a, b] = [a, b] := skipSpace_of_not (isSpace_of_isDigit (by omega) ha)
  have hsign : readSign [a, b] = (false, [a, b]) := readSign_of_digit (by omega : 16 ≤ 36) ha
  have hmark : skipHexMark 16 [a, b] = [a, b] := by
    unfold skipHexMark
    split
    · next h => simp at h
    · rfl
  have hva : digitOf a < 16 := by simpa [isDigit] using ha
  have hvb : digitOf b < 16 := by simpa [isDigit] using hb
  have hval : digitsVal 16 [a, b] = digitOf a * 16 + digitOf b := by simp [digitsVal]
  simp only [strtoul, readNumber, hspace, hsign, hmark, peek_cons, ha, if_true, Option.map_some]
  simp only [digits, afterDigits, List.takeWhile, List.dropWhile, ha, hb, hval]
  rw [if_pos (by omega)]
  simp

theorem decodeEscape_x (r : Text) : decodeEscape ('x' :: r) = hexEscape r := by
  have hlookup : simpleEscapes.lookup 'x' = none := by decide
  simp only [decodeEscape, hlookup, show ¬ ('0' ≤ 'x' ∧ 'x' ≤ '3') by decide, if_false, if_true]

theorem ne_of_simpleEscape {e d : Char} (h : simpleEscapes.lookup e = some d) : e ≠ 'x' ∧ ¬ ('0' ≤ e ∧ e ≤ '3') := by
  constructor
  · rintro rfl
    have hlookup : simpleEscapes.lookup 'x' = none := by decide
    cases hlookup.symm.trans h
  · intro he
    cases (lookup_octal he).symm.trans h

theorem ne_of_octal {e : Char} (he : '0' ≤ e ∧ e ≤ '3') : e ≠ 'x' := by
  rintro rfl
  exact absurd he (by decide)

/-! ## What is accepted is read -/

theorem oneMore_literalEnd {r q : Text} {n : Nat} (h : literalEnd r = .ok (n, q)) : oneMore (literalEnd r) = .ok (n + 1, q) := by
  rw [h]
  rfl

/-- The first pass over what is accepted. -/
theorem literalEnd_accepted {body t : Text} (h : AcceptedBody body t) (r : Text) :
    literalEnd (body ++ '"' :: r) = .ok (t.length, '"' :: r) := by
  induction h with
  | nil => exact literalEnd_quote r
  | plain hq hb _ ih => rw [List.cons_append, literalEnd_plain hq hb, oneMore_literalEnd ih, List.length_cons]
  | simple hd _ ih =>
    obtain ⟨hx, he⟩ := ne_of_simpleEscape hd
    rw [List.cons_append, List.cons_append, literalEnd.eq_def]
    simp only [hx, he, if_false, if_true, show ¬ '\\' = '"' by decide]
    rw [oneMore_literalEnd ih, List.length_cons]
  | octal he ha hb _ ih =>
    have hx := ne_of_octal he
    simp only [List.cons_append, literalEnd, hx, he, ha, hb, and_self, Bool.and_self, if_false, if_true, show ¬ '\\' = '"' by decide]
    rw [oneMore_literalEnd ih, List.length_cons]
  | hex _ _ _ ih =>
    simp only [List.cons_append, literalEnd, if_false, if_true, show ¬ '\\' = '"' by decide]
    rw [oneMore_literalEnd ih, List.length_cons]

/-- One iteration of the second pass over a plain character. -/
theorem decodeLiteral_plain {stop fuel : Nat} {c : Char} {r t : Text} (hb : c ≠ '\\') (hlt : stop ≤ r.length)
    (h : decodeLiteral stop fuel r = .ok t) : decodeLiteral stop (fuel + 1) (c :: r) = .ok (c :: t) := by
  have hne : (c :: r).length ≠ stop := by
    rw [List.length_cons]
    omega
  rw [decodeLiteral, if_neg hne, peek_cons, if_neg hb, List.tail_cons, h]
  rfl

/-- One iteration of the second pass over an escape. -/
theorem decodeLiteral_escape {stop fuel : Nat} {d : Char} {w r t : Text} (hd : decodeEscape (w ++ r) = .ok (d, r)) (hlt : stop ≤ r.length)
    (h : decodeLiteral stop fuel r = .ok t) : decodeLiteral stop (fuel + 1) ('\\' :: w ++ r) = .ok (d :: t) := by
  have hne : ('\\' :: w ++ r).length ≠ stop := by
    rw [List.cons_append, List.length_cons, List.length_append]
    omega
  rw [decodeLiteral, if_neg hne, List.cons_append, peek_cons, if_pos rfl, List.tail_cons, hd]
  rw [ok_bind, h]
  rfl

/-- The second pass over what is accepted. -/
theorem decodeLiteral_accepted {body t : Text} (h : AcceptedBody body t) (r : Text) {fuel : Nat} (hfuel : body.length ≤ fuel) :
    decodeLiteral ('"' :: r).length fuel (body ++ '"' :: r) = .ok t := by
  have hle : ∀ s : Text, ('"' :: r).length ≤ (s ++ '"' :: r).length := fun s => by
    rw [List.length_append]
    omega
  induction h generalizing fuel with
  | nil => cases fuel <;> simp [decodeLiteral]
  | plain hq hb _ ih =>
    obtain ⟨fuel, rfl⟩ : ∃ k, fuel = k + 1 := ⟨fuel - 1, by simp at hfuel; omega⟩
    exact decodeLiteral_plain hb (hle _) (ih (by simp at hfuel; omega))
  | @simple e d s t hd _ ih =>
    obtain ⟨fuel, rfl⟩ : ∃ k, fuel = k + 1 := ⟨fuel - 1, by simp at hfuel; omega⟩
    refine decodeLiteral_escape (w := [e]) ?_ (hle _) (ih (by simp at hfuel; omega))
    simp only [List.cons_append, List.nil_append, decodeEscape, hd]
  | @octal e a b s t he _ _ _ ih =>
    obtain ⟨fuel, rfl⟩ : ∃ k, fuel = k + 1 := ⟨fuel - 1, by simp at hfuel; omega⟩
    refine decodeLiteral_escape (w := [e, a, b]) ?_ (hle _) (ih (by simp at hfuel; omega))
    simp only [List.cons_append, List.nil_append, decodeEscape, lookup_octal he, he, and_self, if_true, octalEscape]
  | @hex a b v s t hv hrest _ ih =>
    obtain ⟨fuel, rfl⟩ : ∃ k, fuel = k + 1 := ⟨fuel - 1, by simp at hfuel; omega⟩
    refine decodeLiteral_escape (w := ['x', a, b]) ?_ (hle _) (ih (by simp at hfuel; omega))
    rw [List.cons_append, decodeEscape_x, List.cons_append, List.cons_append, List.nil_append, hexEscape_some hv, if_pos hrest]

theorem parseStringLiteral_accepted {body t : Text} (h : AcceptedBody body t) (r : Text) :
    parseStringLiteral ('"' :: (body ++ '"' :: r)) = .ok (t, r) := by
  have hfuel : body.length ≤ ('"' :: (body ++ '"' :: r)).length := by
    rw [List.length_cons, List.length_append]
    omega
  have hdecode := decodeLiteral_accepted h r hfuel
  rw [parseStringLiteral, peek_cons, if_pos rfl, List.tail_cons, literalEnd_accepted h r]
  rw [ok_bind, hdecode]
  rfl

/-! ## What is read is accepted -/

/-- The two passes take the same way from `s` to the closing quote. -/
def ReadsAccepted (s : Text) : Prop :=
  ∀ (p : Nat × Text) (fuel : Nat) (t : Text), literalEnd s = .ok p → decodeLiteral p.2.length fuel s = .ok t →
    peek p.2 = '"' ∧ ∃ body, s = body ++ p.2 ∧ AcceptedBody body t

/-- One iteration of the second pass, before the closing quote. -/
theorem decodeLiteral_ok {stop fuel : Nat} {s t : Text} (h : decodeLiteral stop fuel s = .ok t) (hs : stop < s.length) :
    ∃ fuel' t', (peek s = '\\' ∧ ∃ p, decodeEscape s.tail = .ok p ∧ decodeLiteral stop fuel' p.2 = .ok t' ∧ t = p.1 :: t') ∨
      (peek s ≠ '\\' ∧ decodeLiteral stop fuel' s.tail = .ok t' ∧ t = peek s :: t') := by
  have hne : s.length ≠ stop := by omega
  cases fuel with
  | zero => simp [decodeLiteral, hne] at h
  | succ fuel =>
    rw [decodeLiteral, if_neg hne] at h
    split at h
    · next hb =>
      obtain ⟨p, hp, h⟩ := bind_eq_ok.mp h
      obtain ⟨t', ht, h⟩ := bind_eq_ok.mp h
      exact ⟨fuel, t', Or.inl ⟨hb, p, hp, ht, (Except.ok.inj h).symm⟩⟩
    · next hb =>
      obtain ⟨t', ht, h⟩ := bind_eq_ok.mp h
      exact ⟨fuel, t', Or.inr ⟨hb, ht, (Except.ok.inj h).symm⟩⟩

/-- One iteration of the second pass where the first one has counted one character and gone on behind `a`. -/
theorem decodeLiteral_counted {a r t : Text} (ha : a ≠ []) {p : Nat × Text} {fuel : Nat} (h : oneMore (literalEnd r) = .ok p)
    (hd : decodeLiteral p.2.length fuel (a ++ r) = .ok t) :
    ∃ n fuel' t', literalEnd r = .ok (n, p.2) ∧
      ((peek (a ++ r) = '\\' ∧ ∃ d, decodeEscape (a ++ r).tail = .ok d ∧ decodeLiteral p.2.length fuel' d.2 = .ok t' ∧ t = d.1 :: t') ∨
        (peek (a ++ r) ≠ '\\' ∧ decodeLiteral p.2.length fuel' (a ++ r).tail = .ok t' ∧ t = peek (a ++ r) :: t')) := by
  obtain ⟨n, hr, -⟩ := oneMore_ok h
  have hlt : p.2.length < (a ++ r).length := by
    have hle : p.2.length ≤ r.length := (literalEnd_suffix r _ hr).1.length_le
    have hpos := List.length_pos_iff.mpr ha
    rw [List.length_append]
    omega
  obtain ⟨fuel', t', hcases⟩ := decodeLiteral_ok hd hlt
  exact ⟨n, fuel', t', hr, hcases⟩

/-- An escape that the second pass decodes up to where the first one goes on. -/
theorem accepted_escape {w r t : Text} {p : Nat × Text} {fuel : Nat} (ih : ReadsAccepted r) (h : oneMore (literalEnd r) = .ok p)
    (hd : decodeLiteral p.2.length fuel ('\\' :: w ++ r) = .ok t)
    (hescape : ∀ d, decodeEscape (w ++ r) = .ok d →
      d.2 = r ∧ ∀ {b t : Text}, AcceptedBody b t → AcceptedBody ('\\' :: w ++ b) (d.1 :: t)) :
    peek p.2 = '"' ∧ ∃ body, '\\' :: w ++ r = body ++ p.2 ∧ AcceptedBody body t := by
  obtain ⟨n, fuel', t', hr, ⟨-, d, hdec, ht, rfl⟩ | ⟨hb, -, -⟩⟩ := decodeLiteral_counted (List.cons_ne_nil _ _) h hd
  · obtain ⟨hrest, hbody⟩ := hescape d hdec
    rw [hrest] at ht
    obtain ⟨hquote, body, htext, hacc⟩ := ih (n, p.2) fuel' t' hr ht
    exact ⟨hquote, '\\' :: w ++ body, by rw [List.append_assoc, ← htext], hbody hacc⟩
  · exact absurd rfl hb

theorem readsAccepted (s : Text) : ReadsAccepted s := by
  unfold ReadsAccepted
  -- the induction follows the first pass; each case is a kind of character
  fun_induction literalEnd s with
  | case1 | case3 | case5 | case7 | case8 => intro p fuel t h; simp at h
  | case2 r =>
    intro p fuel t h hd
    obtain rfl := Except.ok.inj h
    obtain rfl : t = [] := by cases fuel <;> simpa [decodeLiteral] using hd.symm
    exact ⟨rfl, [], rfl, .nil⟩
  | case4 a b r _ ih =>
    intro p fuel t h hd
    refine accepted_escape (w := ['x', a, b]) ih h hd fun d hdec => ?_
    rw [List.cons_append, decodeEscape_x, List.cons_append, List.cons_append, List.nil_append] at hdec
    cases hscan : strtoul 16 [a, b] with
    | none =>
      rw [hexEscape_none hscan] at hdec
      cases hdec
    | some v =>
      rw [hexEscape_some hscan] at hdec
      split at hdec
      · next hrest =>
        obtain rfl := Except.ok.inj hdec
        exact ⟨rfl, .hex hscan hrest⟩
      · cases hdec
  | case6 e hx he a b r hoct _ ih =>
    intro p fuel t h hd
    obtain ⟨ha, hb⟩ : isOctal a = true ∧ isOctal b = true := by simpa using hoct
    refine accepted_escape (w := [e, a, b]) ih h hd fun d hdec => ?_
    simp only [List.cons_append, List.nil_append, decodeEscape, lookup_octal he, he, and_self, if_true, octalEscape] at hdec
    obtain rfl := Except.ok.inj hdec
    exact ⟨rfl, .octal he ha hb⟩
  | case9 e r hx he _ ih =>
    intro p fuel t h hd
    refine accepted_escape (w := [e]) ih h hd fun d hdec => ?_
    simp only [List.cons_append, List.nil_append, decodeEscape, hx, he, if_false] at hdec
    split at hdec
    · next c hc =>
      obtain rfl := Except.ok.inj hdec
      exact ⟨rfl, .simple hc⟩
    · cases hdec
  | case10 c r hq hb ih =>
    intro p fuel t h hd
    obtain ⟨n, fuel', t', hr, ⟨hc, -⟩ | ⟨-, ht, rfl⟩⟩ := decodeLiteral_counted (a := [c]) (by simp) h hd
    · exact absurd hc hb
    · obtain ⟨hquote, body, htext, hacc⟩ := ih (n, p.2) fuel' t' hr ht
      exact ⟨hquote, c :: body, by rw [List.cons_append, ← htext], .plain hq hb hacc⟩

/-- The literals that are read. -/
theorem parseStringLiteral_ok_iff {s t r : Text} :
    parseStringLiteral s = .ok (t, r) ↔ ∃ body, s = '"' :: (body ++ '"' :: r) ∧ AcceptedBody body t := by
  refine ⟨fun h => ?_, ?_⟩
  · obtain ⟨hq, q, hend, hdecode, rfl⟩ := parseStringLiteral_passes h
    obtain ⟨hquote, body, htext, hacc⟩ := readsAccepted _ q _ t hend hdecode
    have hclose := eq_cons_of_peek hquote (by decide)
    refine ⟨body, ?_, hacc⟩
    calc s = '"' :: s.tail := eq_cons_of_peek hq (by decide)
      _ = '"' :: (body ++ '"' :: q.2.tail) := by rw [← hclose, ← htext]
  · rintro ⟨body, rfl, hacc⟩
    exact parseStringLiteral_accepted hacc r

/-! ## Accepted and documented literals -/

theorem AcceptedBody.of_literal {body t : Text} (h : LiteralBody body t) : AcceptedBody body t := by
  induction h with
  | nil => exact .nil
  | plain hq hb _ ih => exact .plain hq hb ih
  | simple hd _ ih => exact .simple hd ih
  | octal he ha hb _ ih => exact .octal he ha hb ih
  | @hex a b _ _ ha hb _ ih =>
    have hva : digitOf a < 16 := by simpa [isDigit] using ha
    have hvb : digitOf b < 16 := by simpa [isDigit] using hb
    have hhex := AcceptedBody.hex (strtoul_hexPair ha hb) rfl ih
    rwa [Nat.mod_eq_of_lt (by simp only; omega)] at hhex

/-- What is accepted is documented if every `\x` in it has two hexadecimal digits behind it. -/
theorem AcceptedBody.literal {body t : Text} (h : AcceptedBody body t) {r : Text} (htidy : TidyFrom .inside (body ++ r)) :
    LiteralBody body t := by
  induction h with
  | nil => exact .nil
  | plain hq hb _ ih => exact .plain hq hb (ih ((tidy_inside hq hb _).mp htidy))
  | simple hd _ ih => exact .simple hd (ih ((tidy_escape _ _).mp htidy).2)
  | octal he ha hb _ ih =>
    simp only [List.cons_append] at htidy
    have htail := ((tidy_escape _ _).mp htidy).2
    rw [tidy_inside_digit (by omega) (isDigit_of_isOctal ha), tidy_inside_digit (by omega) (isDigit_of_isOctal hb)] at htail
    exact .octal he ha hb (ih htail)
  | @hex a b v s t hv hrest _ ih =>
    simp only [List.cons_append] at htidy
    obtain ⟨hhex, htail⟩ := (tidy_escape _ _).mp htidy
    obtain ⟨ha, hb⟩ : isDigit 16 a = true ∧ isDigit 16 b = true := hhex rfl
    rw [tidy_inside_digit (by omega) ha, tidy_inside_digit (by omega) hb] at htail
    have hva : digitOf a < 16 := by simpa [isDigit] using ha
    have hvb : digitOf b < 16 := by simpa [isDigit] using hb
    obtain rfl := Option.some.inj ((strtoul_hexPair ha hb).symm.trans hv)
    rw [Nat.mod_eq_of_lt (by simp only; omega)]
    exact .hex ha hb (ih htail)

/-! ## Literals as constants -/

theorem parseConstVal_literal {body t : Text} (h : LiteralBody body t) (role : Role) (delim : Char) (r : Text) :
    parseConstVal role delim ('"' :: (body ++ '"' :: r)) = .ok (.constStr (cString t), r) := by
  have hparse : parseStringLiteral ('"' :: (body ++ '"' :: r)) = .ok (t, r) := parseStringLiteral_accepted (.of_literal h) r
  simp [parseConstVal, hparse]

theorem readToken_quote (role : Role) (delim : Char) (mult : Nat) (s : Text) :
    readToken role delim mult ('"' :: s) = readConstant role delim mult ('"' :: s) := by
  simp [readToken]

/-- A literal is read as a key that was not there before. -/
theorem readElement_literalKey {body t : Text} (h : LiteralBody body t) {seen : List BinSpec}
    (hfresh : repeatConstKey seen (.constStr (cString t)) = false) (r : Text) :
    readElement (.key seen) '\x7d' ('"' :: (body ++ '"' :: r)) = .ok (1, .scalar (.constStr (cString t)), r) := by
  refine readElement_eq (readMultiplier_of_not_digit rfl _) ?_
  rw [readToken_quote, readConstant, parseConstVal_literal h]
  simp [hfresh]

end AerospikeBenchmark
