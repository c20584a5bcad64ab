import AerospikeBenchmark.Lib.Float

/-!
# What the numeric conversions consume

The inverse direction of the specs of `strtoul`, `strtol` and `strtod`: from a conversion that succeeds, how the text in front of
`*endptr` is made up.
-/

namespace CText

/-! ## Integers -/

/-- The sign that is read. -/
theorem readSign_eq (s : Text) : ∃ sign, IsSign sign ∧ s = sign ++ (readSign s).2 ∧ (readSign s).1 = decide (sign = ['-']) := by
  unfold readSign
  split
  · exact ⟨['-'], by simp [IsSign], rfl, rfl⟩
  · exact ⟨['+'], by simp [IsSign], rfl, rfl⟩
  · exact ⟨[], by simp [IsSign], rfl, rfl⟩

/-- A number that is read is white space, a sign and a numeral. -/
theorem readNumber_some {base : Nat} (hb : base ≤ 36) (hb' : base ≠ 16) {s : Text} {neg : Bool} {m : Nat} {rest : Text}
    (h : readNumber base s = some (neg, m, rest)) :
    ∃ space sign ds, (∀ c ∈ space, isSpace c = true) ∧ IsSign sign ∧ IsNumeral base ds ∧ s = space ++ (sign ++ (ds ++ rest)) ∧
      neg = decide (sign = ['-']) ∧ m = digitsVal base ds := by
  simp only [readNumber, skipHexMark_of_ne hb'] at h
  split at h
  · next hd =>
    simp only [Option.some.injEq, Prod.mk.injEq] at h
    obtain ⟨rfl, rfl, rfl⟩ := h
    obtain ⟨sign, hs, htext, hneg⟩ := readSign_eq (skipSpace s)
    have hne : (readSign (skipSpace s)).2 ≠ [] := by
      intro hnil
      rw [hnil, peek_nil, not_isDigit_nul hb] at hd
      exact Bool.noConfusion hd
    refine ⟨s.takeWhile isSpace, sign, _, fun c hc => List.mem_takeWhile_imp hc, hs, isNumeral_digits hd hne, ?_, hneg, rfl⟩
    rw [digits_append_afterDigits, ← htext]
    exact List.takeWhile_append_dropWhile.symm
  · exact absurd h (by simp)

/-- The spec of `strtol` on a number that is read and in range. -/
theorem strtol_some {base : Nat} (hb : base ≤ 36) (hb' : base ≠ 16) {s : Text} {r : Scan Int} (h : strtol base s = some r)
    (hr : r.erange = false) :
    ∃ space sign ds, (∀ c ∈ space, isSpace c = true) ∧ IsSign sign ∧ IsNumeral base ds ∧ s = space ++ (sign ++ (ds ++ r.rest)) ∧
      signedVal base sign ds = r.value ∧ -2 ^ 63 ≤ r.value ∧ r.value < 2 ^ 63 := by
  simp only [strtol, Option.map_eq_some_iff, Prod.exists] at h
  obtain ⟨neg, m, rest, hread, rfl⟩ := h
  obtain ⟨space, sign, ds, hspace, hs, hds, htext, rfl, rfl⟩ := readNumber_some hb hb' hread
  refine ⟨space, sign, ds, hspace, hs, hds, ?_⟩
  by_cases hm : sign = ['-']
  · simp only [hm, decide_true, signedVal, if_true] at hr htext ⊢
    split at hr
    · next hle =>
      simp only [if_pos hle]
      exact ⟨htext, trivial, by omega, by omega⟩
    · exact absurd hr (by simp)
  · simp only [hm, decide_false, signedVal, if_false] at hr htext ⊢
    split at hr
    · next hlt =>
      simp only [if_pos hlt]
      exact ⟨htext, trivial, by omega, by omega⟩
    · exact absurd hr (by simp)

/-- The spec of `strtoul` on a number that starts with a digit and is in range. -/
theorem strtoul_some {base : Nat} (hb : base ≤ 36) (hb' : base ≠ 16) {s : Text} {r : Scan Nat} (h : strtoul base s = some r)
    (hd : isDigit base (peek s) = true) (hr : r.value < 2 ^ 64 - 1) :
    ∃ ds, IsNumeral base ds ∧ s = ds ++ r.rest ∧ digitsVal base ds = r.value := by
  have hs : s ≠ [] := by
    rintro rfl
    rw [peek_nil, not_isDigit_nul hb] at hd
    exact Bool.noConfusion hd
  rw [strtoul, readNumber_of_digit hb hb' hd] at h
  simp only [Option.map_some, Option.some.injEq] at h
  refine ⟨digits base s, isNumeral_digits hd hs, ?_⟩
  split at h
  · subst h
    exact ⟨(digits_append_afterDigits base s).symm, rfl⟩
  · subst h
    exact absurd hr (by simp)

/-- The spec of `strtoul` behind `0x`: the hexadecimal digits are read or, without any, the zero. -/
theorem strtoul_hex_some {x : Char} (hx : x = 'x' ∨ x = 'X') {s : Text} {r : Scan Nat} (h : strtoul 16 ('0' :: x :: s) = some r)
    (hr : r.erange = false) :
    (∃ ds, IsNumeral 16 ds ∧ s = ds ++ r.rest ∧ digitsVal 16 ds = r.value ∧ r.value < 2 ^ 64) ∨ peek r.rest = x := by
  have hspace : skipSpace ('0' :: x :: s) = '0' :: x :: s := skipSpace_of_not (by rfl)
  have hsign : readSign ('0' :: x :: s) = (false, '0' :: x :: s) := readSign_of_ne (by simp) (by simp)
  simp only [strtoul, readNumber, hspace, hsign, Option.map_eq_some_iff, Prod.exists] at h
  obtain ⟨neg, m, rest, hread, rfl⟩ := h
  by_cases hd : isDigit 16 (peek s) = true
  · have hs : s ≠ [] := by
      rintro rfl
      exact absurd hd (by decide)
    have hmark : skipHexMark 16 ('0' :: x :: s) = s := by
      obtain ⟨c, s', rfl⟩ := List.exists_cons_of_ne_nil hs
      rw [peek_cons] at hd
      simp [skipHexMark, hx, hd]
    simp only [hmark, hd, if_true, Option.some.injEq, Prod.mk.injEq] at hread
    obtain ⟨rfl, rfl, rfl⟩ := hread
    split at hr
    · next hlt =>
      simp only [if_pos hlt]
      exact Or.inl ⟨digits 16 s, isNumeral_digits hd hs, (digits_append_afterDigits 16 s).symm, by simp, by simpa using hlt⟩
    · exact absurd hr (by simp)
  · have hmark : skipHexMark 16 ('0' :: x :: s) = '0' :: x :: s := by
      cases s with
      | nil => rfl
      | cons c s =>
        rw [peek_cons] at hd
        simp [skipHexMark, hd]
    have hxd : isDigit 16 x = false := by rcases hx with rfl | rfl <;> decide
    have hrest : afterDigits 16 ('0' :: x :: s) = x :: s := by
      simp [afterDigits, hxd, show isDigit 16 '0' = true by decide]
    rw [hmark] at hread
    simp only [hrest] at hread
    split at hread
    · simp only [Option.some.injEq, Prod.mk.injEq] at hread
      obtain ⟨-, -, rfl⟩ := hread
      right
      split <;> rfl
    · exact absurd hread (by simp)

/-! ## Floating-point numbers -/

/-- A word that is dropped, in any case. -/
theorem dropWord_some : ∀ {w s r : Text}, dropWord w s = some r → ∃ a, s = a ++ r ∧ a.map Char.toLower = w
  | [], s, r, h => ⟨[], Option.some.inj h, rfl⟩
  | w :: ws, [], r, h => by simp [dropWord] at h
  | w :: ws, c :: s, r, h => by
    simp only [dropWord] at h
    split at h
    · next hc =>
      obtain ⟨a, rfl, ha⟩ := dropWord_some h
      exact ⟨c :: a, rfl, by rw [List.map_cons, hc, ha]⟩
    · simp at h

/-- The characters with a given lower case. -/
theorem eq_of_toLower {c d : Char} (h : c.toLower = d) : c = d ∨ (65 ≤ c.toNat ∧ c.toNat ≤ 90 ∧ c.toNat + 32 = d.toNat) := by
  unfold Char.toLower at h
  split at h
  · next hc =>
    right
    have h1 : 65 ≤ c.toNat := hc.1
    have h2 : c.toNat ≤ 90 := hc.2
    refine ⟨h1, h2, ?_⟩
    rw [← h]
    have hval : c.val.toNat = c.toNat := rfl
    simp only [Char.toNat, UInt32.toNat_add]
    have h32 : ('a'.val - 'A'.val).toNat = 32 := rfl
    omega
  · exact Or.inl h

theorem dropWord_hexMark {s body : Text} (h : dropWord ['0', 'x'] s = some body) :
    ∃ x, (x = 'x' ∨ x = 'X') ∧ s = '0' :: x :: body := by
  match s, h with
  | z :: x :: s, h =>
    simp only [dropWord, Option.ite_none_right_eq_some, Option.some.injEq] at h
    obtain ⟨hz, hx, rfl⟩ := h
    have hzero : z = '0' := by
      rcases eq_of_toLower hz with h | ⟨h1, -, h3⟩
      · exact h
      · have : '0'.toNat = 48 := rfl
        omega
    refine ⟨x, ?_, by rw [hzero]⟩
    rcases eq_of_toLower hx with h | ⟨-, -, h3⟩
    · exact Or.inl h
    · right
      have h120 : 'x'.toNat = 120 := rfl
      have h88 : x.toNat = 'X'.toNat := by
        have : 'X'.toNat = 88 := rfl
        omega
      exact Char.toNat_inj.mp h88
  | [], h => simp [dropWord] at h
  | [z], h => simp [dropWord] at h

/-- The exponent part of a number, nothing for 0: a mark, a sign and a numeral. -/
def ExponentPart (lower upper : Char) (k : Int) (e : Text) : Prop :=
  (k = 0 ∧ e = []) ∨ ∃ m sign ds, (m = lower ∨ m = upper) ∧ IsSign sign ∧ IsNumeral 10 ds ∧ e = m :: (sign ++ ds) ∧
    k = signedVal 10 sign ds

theorem readExponent_some {lower upper : Char} (hl : lower ≠ '\x00') (hu : upper ≠ '\x00') (s : Text) :
    ∃ e, s = e ++ (readExponent lower upper s).2 ∧ ExponentPart lower upper (readExponent lower upper s).1 e := by
  unfold readExponent
  split
  · next hm =>
    dsimp only
    split
    · next hd =>
      obtain ⟨sign, hs, htext, hneg⟩ := readSign_eq s.tail
      have hne : (readSign s.tail).2 ≠ [] := by
        intro hnil
        rw [hnil] at hd
        exact absurd hd (by decide)
      have hpeek : peek s ≠ '\x00' := by rcases hm with h | h <;> rw [h] <;> assumption
      have hcons := eq_cons_of_peek (s := s) rfl hpeek
      refine ⟨peek s :: (sign ++ digits 10 (readSign s.tail).2), ?_, Or.inr ⟨peek s, sign, _, hm, hs, isNumeral_digits hd hne, rfl, ?_⟩⟩
      · rw [List.cons_append, List.append_assoc, digits_append_afterDigits, ← htext]
        exact hcons
      · by_cases h : sign = ['-'] <;> simp [signedVal, hneg, h]
    · exact ⟨[], rfl, Or.inl ⟨rfl, rfl⟩⟩
  · exact ⟨[], rfl, Or.inl ⟨rfl, rfl⟩⟩

/-- A decimal number with a point and at least one digit. -/
structure PointedDecimal where
  whole : Text
  frac : Text
  exponent : Text
  power : Int
  whole_digits : ∀ c ∈ whole, isDigit 10 c = true
  frac_digits : ∀ c ∈ frac, isDigit 10 c = true
  has_digit : whole ≠ [] ∨ frac ≠ []
  exponent_part : ExponentPart 'e' 'E' power exponent

namespace PointedDecimal

/-- The text of the number. -/
def text (d : PointedDecimal) : Text := d.whole ++ '.' :: (d.frac ++ d.exponent)

/-- The value of the number. -/
def magnitude (d : PointedDecimal) : Magnitude := scaled (digitsVal 10 (d.whole ++ d.frac)) 10 (d.power - d.frac.length)

end PointedDecimal

/-- The characters in front of `r` hold no point. -/
def PointFree (s r : Text) : Prop := ∃ tok, s = tok ++ r ∧ '.' ∉ tok

theorem PointFree.append {s t r : Text} (h : PointFree t r) {a : Text} (hs : s = a ++ t) (ha : '.' ∉ a) : PointFree s r := by
  obtain ⟨tok, rfl, htok⟩ := h
  exact ⟨a ++ tok, by rw [hs, List.append_assoc], by simp [ha, htok]⟩

theorem point_not_mem_digits {base : Nat} (hb : base ≤ 36) {ds : Text} (h : ∀ c ∈ ds, isDigit base c = true) : '.' ∉ ds := by
  intro hmem
  have h36 : digitOf '.' = 36 := by decide
  have := h '.' hmem
  simp [isDigit, h36] at this
  omega

theorem point_not_mem_word {a w : Text} (h : a.map Char.toLower = w) (hw : '.' ∉ w) : '.' ∉ a := by
  intro hmem
  refine hw ?_
  rw [← h]
  exact List.mem_map_of_mem (f := Char.toLower) hmem

theorem pointFree_exponent {lower upper : Char} (hl : lower ∉ ['\x00', '.']) (hu : upper ∉ ['\x00', '.']) (s : Text) :
    PointFree s (readExponent lower upper s).2 := by
  simp only [List.mem_cons, List.not_mem_nil, or_false, not_or] at hl hu
  obtain ⟨e, htext, hpart⟩ := readExponent_some hl.1 hu.1 s
  refine ⟨e, htext, ?_⟩
  rcases hpart with ⟨-, rfl⟩ | ⟨m, sign, ds, hm, hs, hds, rfl, -⟩
  · simp
  · have hmark : m ≠ '.' := by rcases hm with rfl | rfl <;> [exact hl.2; exact hu.2]
    have hsign : '.' ∉ sign := by rcases hs with rfl | rfl | rfl <;> decide
    simp [hmark.symm, hsign, point_not_mem_digits (by omega) hds.all]

/-- The digits that are read, with a point or without. -/
theorem readFraction_some {base : Nat} {s : Text} {whole frac r : Text} (h : readFraction base s = some (whole, frac, r)) :
    (∀ c ∈ whole, isDigit base c = true) ∧ (∀ c ∈ frac, isDigit base c = true) ∧ (whole ≠ [] ∨ frac ≠ []) ∧
      ((s = whole ++ '.' :: (frac ++ r) ∧ peek (afterDigits base s) = '.') ∨ (s = whole ++ r ∧ frac = [])) := by
  have hdigits : ∀ t : Text, ∀ c ∈ digits base t, isDigit base c = true := fun t c hc => List.mem_takeWhile_imp hc
  unfold readFraction at h
  simp only at h
  split at h
  · next hp =>
    split at h
    · simp at h
    · next hne =>
      simp only [Option.some.injEq, Prod.mk.injEq] at h
      obtain ⟨rfl, rfl, rfl⟩ := h
      refine ⟨hdigits _, hdigits _, by tauto, Or.inl ⟨?_, hp⟩⟩
      rw [digits_append_afterDigits, ← eq_cons_of_peek hp (by decide), digits_append_afterDigits]
  · split at h
    · simp at h
    · next hne =>
      simp only [Option.some.injEq, Prod.mk.injEq] at h
      obtain ⟨rfl, rfl, rfl⟩ := h
      exact ⟨hdigits _, by simp, Or.inl hne, Or.inr ⟨(digits_append_afterDigits base s).symm, rfl⟩⟩

/-- A decimal number that is read has a point between its digits, or no point at all. -/
theorem readDecimal_some {s : Text} {m : Magnitude} {r : Text} (h : readDecimal s = some (m, r)) :
    (∃ d : PointedDecimal, s = d.text ++ r ∧ m = d.magnitude) ∨ PointFree s r := by
  simp only [readDecimal, Option.map_eq_some_iff, Prod.exists] at h
  obtain ⟨whole, frac, t, hfrac, heq⟩ := h
  simp only [Prod.mk.injEq] at heq
  obtain ⟨rfl, rfl⟩ := heq
  obtain ⟨hw, hf, hne, ⟨rfl, -⟩ | ⟨rfl, rfl⟩⟩ := readFraction_some hfrac
  · obtain ⟨e, htext, he⟩ := readExponent_some (by decide : 'e' ≠ '\x00') (by decide : 'E' ≠ '\x00') t
    refine Or.inl ⟨⟨whole, frac, e, _, hw, hf, hne, he⟩, ?_, rfl⟩
    simp only [PointedDecimal.text, List.append_assoc, List.cons_append, ← htext]
  · exact Or.inr ((pointFree_exponent (by decide) (by decide) t).append rfl (point_not_mem_digits (by omega) hw))

theorem pointFree_nanTag (s : Text) : PointFree s (dropNanTag s) := by
  unfold dropNanTag
  split
  · next r =>
    split
    · next r' hr' =>
      refine ⟨'(' :: (r.takeWhile (fun c => c.isAlphanum || c == '_') ++ [')']), ?_, ?_⟩
      · have hsplit := List.takeWhile_append_dropWhile (p := fun c : Char => c.isAlphanum || c == '_') (l := r)
        rw [hr'] at hsplit
        simp [hsplit]
      · have htag : '.' ∉ r.takeWhile (fun c => c.isAlphanum || c == '_') := by
          intro hmem
          exact absurd (List.mem_takeWhile_imp hmem) (by decide)
        simp [htag]
    · exact ⟨[], rfl, by simp⟩
  · exact ⟨[], rfl, by simp⟩

/-- A magnitude that is read is a decimal number with a point, a hexadecimal number with a point, or has no point. -/
theorem readMagnitude_some {s : Text} {m : Magnitude} {r : Text} (h : readMagnitude s = some (m, r)) :
    (∃ d : PointedDecimal, s = d.text ++ r ∧ m = d.magnitude) ∨
      (∃ x body, (x = 'x' ∨ x = 'X') ∧ s = '0' :: x :: body ∧ peek (afterDigits 16 body) = '.') ∨ PointFree s r := by
  unfold readMagnitude at h
  split at h
  · next body hb =>
    obtain ⟨x, hmark, htext⟩ := dropWord_hexMark hb
    cases hx : readHex body with
    | none =>
      rcases readDecimal_some (by simpa [hx] using h) with hd | hd
      · exact Or.inl hd
      · exact Or.inr (Or.inr hd)
    | some q =>
      obtain rfl : q = (m, r) := by simpa [hx] using h
      simp only [readHex, Option.map_eq_some_iff, Prod.exists] at hx
      obtain ⟨whole, frac, t, hfrac, heq⟩ := hx
      simp only [Prod.mk.injEq] at heq
      obtain ⟨-, rfl⟩ := heq
      obtain ⟨hw, -, -, ⟨-, hp⟩ | ⟨rfl, -⟩⟩ := readFraction_some hfrac
      · exact Or.inr (Or.inl ⟨x, body, hmark, htext, hp⟩)
      · have hbody := (pointFree_exponent (by decide : 'p' ∉ ['\x00', '.']) (by decide : 'P' ∉ ['\x00', '.']) t).append rfl
          (point_not_mem_digits (by omega) hw)
        have hfree : '.' ∉ ['0', x] := by rcases hmark with rfl | rfl <;> decide
        exact Or.inr (Or.inr (hbody.append htext hfree))
  · split at h
    · next r' hi =>
      simp only [Option.some.injEq, Prod.mk.injEq] at h
      obtain ⟨-, rfl⟩ := h
      obtain ⟨a, htext, ha⟩ := dropWord_some hi
      refine Or.inr (Or.inr (PointFree.append ?_ htext (point_not_mem_word ha (by decide))))
      cases hy : dropWord ['i', 'n', 'i', 't', 'y'] r' with
      | none => exact ⟨[], rfl, by simp⟩
      | some r'' =>
        obtain ⟨b, hb, hb'⟩ := dropWord_some hy
        exact ⟨b, hb, point_not_mem_word hb' (by decide)⟩
    · next r' _ hn =>
      simp only [Option.some.injEq, Prod.mk.injEq] at h
      obtain ⟨-, rfl⟩ := h
      obtain ⟨a, htext, ha⟩ := dropWord_some hn
      exact Or.inr (Or.inr ((pointFree_nanTag r').append htext (point_not_mem_word ha (by decide))))
    · rcases readDecimal_some h with hd | hd
      · exact Or.inl hd
      · exact Or.inr (Or.inr hd)

end CText
