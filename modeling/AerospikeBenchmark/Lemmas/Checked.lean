import AerospikeBenchmark.Lemmas.ParseRun
import AerospikeBenchmark.ObjectSpec.Checked

/-!
# The parser stays inside its string

Every function of `ObjectSpec.Checked` returns on a string without a NUL, and returns what its counterpart on texts returns: no read
is beyond the terminating NUL.
-/

namespace AerospikeBenchmark

open CText

/-- A result with the text that is left, as a result with the pointer to it. -/
def ptrResult {ε α : Type} : Except ε (α × Text) → Except ε (α × Ptr) := Except.map fun p => (p.1, .ahead p.2)

@[simp] theorem ptrResult_ok {ε α : Type} (p : α × Text) : ptrResult (.ok p : Except ε (α × Text)) = .ok (p.1, .ahead p.2) := rfl

@[simp] theorem ptrResult_error {ε α : Type} (e : ε) : ptrResult (.error e : Except ε (α × Text)) = .error e := rfl

theorem ptrResult_oneMore (x : Except String (Nat × Text)) : Checked.oneMore (ptrResult x) = ptrResult (oneMore x) := by
  cases x <;> rfl

/-! ## String literals -/

/-- The first pass finds the closing quote, or an error, before the NUL. -/
theorem checked_literalEnd (s : Text) : ∀ {fuel : Nat}, s.length ≤ fuel → '\x00' ∉ s →
    Checked.literalEnd (fuel + 1) (.ahead s) = some (ptrResult (literalEnd s)) := by
  have further {r s : Text} {fuel : Nat} (hr : Advances s r) (hfuel : s.length ≤ fuel) (hnul : '\x00' ∉ s)
      (ih : ∀ {fuel : Nat}, r.length ≤ fuel → '\x00' ∉ r →
        Checked.literalEnd (fuel + 1) (.ahead r) = some (ptrResult (literalEnd r))) :
      (Checked.literalEnd fuel (.ahead r)).map Checked.oneMore = some (ptrResult (oneMore (literalEnd r))) := by
    have hlt := hr.length_lt
    obtain ⟨fuel, rfl⟩ := Nat.exists_eq_succ_of_ne_zero (by omega : fuel ≠ 0)
    rw [ih (by omega) fun h => hnul (hr.suffix.subset h), Option.map_some, ptrResult_oneMore]
  have hnotOctal : isOctal '\x00' = false := by decide
  have hne {e : Char} (he : '0' ≤ e ∧ e ≤ '3') : e ≠ '\x00' := by
    rintro rfl
    exact absurd he (by decide)
  fun_induction literalEnd s with
  | case1 | case2 | case3 =>
    intro fuel _ _
    rfl
  | case4 a b r _ ih =>
    intro fuel hfuel hnul
    obtain ⟨ha, hb, -⟩ : '\x00' ≠ a ∧ '\x00' ≠ b ∧ '\x00' ∉ r := by simpa using hnul
    simp only [Checked.literalEnd, Ptr.load_ahead, Ptr.add_succ, Ptr.add_zero, Ptr.succ_cons, peek_cons, Option.bind_eq_bind,
      Option.bind_some, if_false, if_true, ha.symm, hb.symm]
    exact further ⟨by simp, ⟨['x', a, b], rfl⟩⟩ hfuel hnul ih
  | case5 r hshort =>
    intro fuel hfuel hnul
    rcases r with _ | ⟨a, _ | ⟨b, r⟩⟩
    · rfl
    · simp [Checked.literalEnd]
    · exact absurd rfl (hshort a b r)
  | case6 e hx he a b r hoctal _ ih =>
    intro fuel hfuel hnul
    have he0 := hne he
    obtain ⟨ha, hb⟩ : isOctal a = true ∧ isOctal b = true := by simpa using hoctal
    simp only [Checked.literalEnd, Ptr.load_ahead, Ptr.add_succ, Ptr.add_zero, Ptr.succ_cons, peek_cons, Option.bind_eq_bind,
      Option.bind_some, if_false, if_true, hx, he, he0, ha, hb]
    exact further ⟨by simp, ⟨[e, a, b], rfl⟩⟩ hfuel hnul ih
  | case7 e hx he a b r hoctal =>
    intro fuel hfuel hnul
    have he0 := hne he
    cases ha : isOctal a with
    | false => simp [Checked.literalEnd, Checked.invalidOctal, hx, he, he0, ha]
    | true =>
      have hb : isOctal b = false := by simpa [ha] using hoctal
      simp [Checked.literalEnd, Checked.invalidOctal, hx, he, he0, hb]
  | case8 e r hx he hshort =>
    intro fuel hfuel hnul
    have he0 := hne he
    rcases r with _ | ⟨a, _ | ⟨b, r⟩⟩
    · simp [Checked.literalEnd, Checked.invalidOctal, hx, he, he0, hnotOctal]
    · simp [Checked.literalEnd, Checked.invalidOctal, hx, he, he0, hnotOctal]
    · exact absurd rfl (hshort a b r)
  | case9 e r hx he _ ih =>
    intro fuel hfuel hnul
    obtain ⟨he0, -⟩ : '\x00' ≠ e ∧ '\x00' ∉ r := by simpa using hnul
    simp only [Checked.literalEnd, Ptr.load_ahead, Ptr.add_succ, Ptr.add_zero, Ptr.succ_cons, peek_cons, Option.bind_eq_bind,
      Option.bind_some, if_false, if_true, hx, he, he0.symm]
    exact further ⟨by simp, ⟨[e], rfl⟩⟩ hfuel hnul ih
  | case10 c r hq hb ih =>
    intro fuel hfuel hnul
    obtain ⟨hc, -⟩ : '\x00' ≠ c ∧ '\x00' ∉ r := by simpa using hnul
    simp only [Checked.literalEnd, Ptr.load_ahead, Ptr.succ_cons, peek_cons, Option.bind_eq_bind, Option.bind_some, if_false, hq, hb,
      hc.symm]
    exact further ⟨by simp, List.suffix_rfl⟩ hfuel hnul ih

/-- An escape that ends before `r`, if it is none in error, and is read inside the string. -/
structure EscapeBefore (s r : Text) : Prop where
  rest : ∀ p, decodeEscape s.tail = .ok p → p.2 = r
  checked : Checked.decodeEscape (.ahead s) = some (ptrResult (decodeEscape s.tail))

theorem escapeBefore_hex {a b : Char} (ha : a ≠ '\x00') (hb : b ≠ '\x00') (r : Text) : EscapeBefore ('\\' :: 'x' :: a :: b :: r) r := by
  have hlookup : simpleEscapes.lookup 'x' = none := by decide
  have hoctal : ¬ ('0' ≤ 'x' ∧ 'x' ≤ '3') := by decide
  have hbuf : cString [a, b] = [a, b] := by simp [cString, ha, hb]
  have hdecode : decodeEscape ('x' :: a :: b :: r) = hexEscape (a :: b :: r) := by
    simp only [decodeEscape, hlookup, hoctal, if_false, if_true]
  have hchecked : Checked.decodeEscape (.ahead ('\\' :: 'x' :: a :: b :: r)) = some (ptrResult (hexEscape (a :: b :: r))) := by
    simp only [Checked.decodeEscape, Ptr.add_succ, Ptr.add_zero, Ptr.succ_cons, Ptr.load_ahead, peek_cons, Option.bind_eq_bind,
      Option.bind_some, hlookup, hoctal, hbuf, if_false, if_true]
    cases hscan : strtoul 16 [a, b] with
    | none => simp only [hexEscape_none hscan, ptrResult_error, Option.pure_def]
    | some v =>
      rw [hexEscape_some hscan]
      by_cases hrest : v.rest = []
      · simp only [hrest, if_true, ptrResult_ok, Option.pure_def]
      · simp only [hrest, if_false, ptrResult_error, Option.pure_def]
  refine ⟨fun p hp => ?_, hdecode ▸ hchecked⟩
  rw [List.tail_cons, hdecode] at hp
  cases hscan : strtoul 16 [a, b] with
  | none =>
    rw [hexEscape_none hscan] at hp
    cases hp
  | some v =>
    rw [hexEscape_some hscan] at hp
    split at hp
    · rw [← Except.ok.inj hp]
    · cases hp

theorem escapeBefore_octal {e : Char} (he : '0' ≤ e ∧ e ≤ '3') (a b : Char) (r : Text) : EscapeBefore ('\\' :: e :: a :: b :: r) r := by
  have hdecode : decodeEscape (e :: a :: b :: r) = octalEscape e (a :: b :: r) := by
    simp only [decodeEscape, lookup_octal he, he, and_self, if_true]
  refine ⟨fun p hp => ?_, ?_⟩
  · rw [List.tail_cons, hdecode, octalEscape] at hp
    rw [← Except.ok.inj hp]
  · rw [List.tail_cons, hdecode]
    simp only [Checked.decodeEscape, Ptr.add_succ, Ptr.add_zero, Ptr.succ_cons, Ptr.load_ahead, peek_cons, Option.bind_eq_bind,
      Option.bind_some, lookup_octal he, he, and_self, if_true]
    rfl

theorem escapeBefore_other {e : Char} (hx : e ≠ 'x') (he : ¬ ('0' ≤ e ∧ e ≤ '3')) (r : Text) : EscapeBefore ('\\' :: e :: r) r := by
  refine ⟨fun p hp => ?_, ?_⟩
  · simp only [List.tail_cons, decodeEscape, hx, he, if_false] at hp
    split at hp
    · rw [← Except.ok.inj hp]
    · cases hp
  · simp only [Checked.decodeEscape, decodeEscape, Ptr.add_succ, Ptr.add_zero, Ptr.succ_cons, Ptr.load_ahead, peek_cons, List.tail_cons,
      Option.bind_eq_bind, Option.bind_some, hx, he, if_false]
    cases simpleEscapes.lookup e <;> rfl

/-- The second pass over an escape. -/
theorem EscapeBefore.decode {s r stop : Text} (h : EscapeBefore s r) (hs : peek s = '\\') {fuel : Nat}
    (hrest : Checked.decodeLiteral (.ahead stop) fuel (.ahead r) = some (decodeLiteral stop.length fuel r))
    (hne : s.length ≠ stop.length) :
    Checked.decodeLiteral (.ahead stop) (fuel + 1) (.ahead s) = some (decodeLiteral stop.length (fuel + 1) s) := by
  simp only [Checked.decodeLiteral, decodeLiteral, Ptr.same_ahead, Ptr.load_ahead, beq_iff_eq, hne, hs, h.checked, if_false,
    if_true, Option.bind_eq_bind, Option.bind_some]
  cases hdecode : decodeEscape s.tail with
  | error msg => rfl
  | ok p =>
    obtain ⟨d, q⟩ := p
    obtain rfl : q = r := h.rest _ hdecode
    simp only [ptrResult_ok, hrest, Option.map_some, bind, Except.bind, pure, Except.pure]
    cases decodeLiteral stop.length fuel q <;> rfl

/-- The second pass reads what the first one has gone over. -/
theorem checked_decodeLiteral (s : Text) : ∀ {fuel n : Nat} {stop : Text}, s.length ≤ fuel → '\x00' ∉ s → literalEnd s = .ok (n, stop) →
    Checked.decodeLiteral (.ahead stop) (fuel + 1) (.ahead s) = some (decodeLiteral stop.length (fuel + 1) s) := by
  have further {r s : Text} {fuel n : Nat} {stop : Text} (hr : Advances s r) (hfuel : s.length ≤ fuel)
      (hnul : '\x00' ∉ s) (hstop : oneMore (literalEnd r) = .ok (n, stop))
      (ih : ∀ {fuel n : Nat} {stop : Text}, r.length ≤ fuel → '\x00' ∉ r → literalEnd r = .ok (n, stop) →
        Checked.decodeLiteral (.ahead stop) (fuel + 1) (.ahead r) = some (decodeLiteral stop.length (fuel + 1) r)) :
      Checked.decodeLiteral (.ahead stop) fuel (.ahead r) = some (decodeLiteral stop.length fuel r) ∧ s.length ≠ stop.length := by
    have hlt := hr.length_lt
    obtain ⟨k, hend, -⟩ := oneMore_ok hstop
    have hle : stop.length ≤ r.length := (literalEnd_suffix r _ hend).1.length_le
    obtain ⟨fuel, rfl⟩ := Nat.exists_eq_succ_of_ne_zero (by omega : fuel ≠ 0)
    exact ⟨ih (by omega) (fun h => hnul (hr.suffix.subset h)) hend, by omega⟩
  fun_induction literalEnd s with
  | case1 | case3 | case5 | case7 | case8 => intro fuel n stop _ _ h; simp at h
  | case2 r =>
    intro fuel n stop _ _ h
    obtain ⟨-, rfl⟩ := Prod.mk.inj (Except.ok.inj h)
    simp [Checked.decodeLiteral, decodeLiteral]
  | case4 a b r _ ih =>
    intro fuel n stop hfuel hnul h
    obtain ⟨ha, hb, -⟩ : '\x00' ≠ a ∧ '\x00' ≠ b ∧ '\x00' ∉ r := by simpa using hnul
    obtain ⟨hrest, hne⟩ := further ⟨by simp, ⟨['x', a, b], rfl⟩⟩ hfuel hnul h ih
    exact (escapeBefore_hex ha.symm hb.symm r).decode rfl hrest hne
  | case6 e hx he a b r hoctal _ ih =>
    intro fuel n stop hfuel hnul h
    obtain ⟨hrest, hne⟩ := further ⟨by simp, ⟨[e, a, b], rfl⟩⟩ hfuel hnul h ih
    exact (escapeBefore_octal he a b r).decode rfl hrest hne
  | case9 e r hx he _ ih =>
    intro fuel n stop hfuel hnul h
    obtain ⟨hrest, hne⟩ := further ⟨by simp, ⟨[e], rfl⟩⟩ hfuel hnul h ih
    exact (escapeBefore_other hx he r).decode rfl hrest hne
  | case10 c r hq hb ih =>
    intro fuel n stop hfuel hnul h
    obtain ⟨hrest, hne⟩ := further ⟨by simp, List.suffix_rfl⟩ hfuel hnul h ih
    simp only [Checked.decodeLiteral, decodeLiteral, Ptr.same_ahead, Ptr.load_ahead, beq_iff_eq, hne, peek_cons, hb, if_false,
      Option.bind_some, Ptr.succ_cons, List.tail_cons, bind, Except.bind, pure, Except.pure]
    rw [List.tail_cons] at hrest
    rw [hrest]
    cases decodeLiteral stop.length fuel r <;> rfl

/-- `parse_string_literal` reads up to the closing quote or the NUL. -/
theorem checked_parseStringLiteral {s : Text} (hnul : '\x00' ∉ s) :
    Checked.parseStringLiteral (.ahead s) = some (ptrResult (parseStringLiteral s)) := by
  unfold Checked.parseStringLiteral parseStringLiteral
  by_cases hq : peek s = '"'
  · obtain ⟨r, rfl⟩ : ∃ r, s = '"' :: r := ⟨s.tail, eq_cons_of_peek hq (by decide)⟩
    have hr : '\x00' ∉ r := fun h => hnul (List.mem_cons_of_mem _ h)
    simp only [Ptr.load_ahead, Ptr.string_ahead, Ptr.succ_cons, peek_cons, List.tail_cons, List.length_cons, if_true,
      Option.bind_eq_bind, Option.bind_some, checked_literalEnd r le_rfl hr]
    cases hend : literalEnd r with
    | error msg => rfl
    | ok p =>
      obtain ⟨n, stop⟩ := p
      obtain ⟨hsuffix, hne⟩ := literalEnd_suffix r _ hend
      obtain ⟨c, rest, rfl⟩ := List.exists_cons_of_ne_nil hne
      simp only [ptrResult_ok, checked_decodeLiteral r le_rfl hr hend, Option.bind_some, bind, Except.bind, Ptr.succ_cons]
      cases decodeLiteral (c :: rest).length (r.length + 1) r <;> rfl
  · simp [hq]

/-! ## Constant scalars -/

@[simp]
theorem checked_failAt {α : Type} (msg : String) (s : Text) :
    Checked.failAt msg (.ahead s) = some (ptrResult (failAt msg s : Except Fail (α × Text))) := rfl

theorem checked_constBoolean (role : Role) (b : Bool) (s r : Text) :
    Checked.constBoolean role b (.ahead s) (.ahead r) = some (ptrResult (constBoolean role b s r)) := by
  unfold Checked.constBoolean constBoolean
  split <;> rfl

/-- A word that is there is as long as it is. -/
theorem add_of_dropWord {word : Text} : ∀ {s r : Text}, dropWord word s = some r → (Ptr.ahead s).add word.length = .ahead r := by
  induction word with
  | nil =>
    intro s r h
    rw [← Option.some.inj h]
    rfl
  | cons w word ih =>
    intro s r h
    cases s with
    | nil => simp [dropWord] at h
    | cons c s =>
      simp only [dropWord] at h
      split at h
      · rw [List.length_cons, Ptr.add_succ, Ptr.succ_cons, ih h]
      · cases h

theorem checked_constWord (role : Role) (b : Bool) (word s : Text) :
    Checked.constWord role b word (.ahead s) = some (ptrResult (constWord role b word s)) := by
  unfold Checked.constWord constWord
  simp only [Ptr.string_ahead, Option.bind_eq_bind, Option.bind_some]
  cases hdrop : dropWord word s with
  | none => rfl
  | some r =>
    simp only [add_of_dropWord hdrop, Ptr.load_ahead, Option.bind_some]
    split
    · rfl
    · exact checked_constBoolean role b s r

theorem checked_constDouble (role : Role) (s : Text) :
    Checked.constDouble role (.ahead s) = some (ptrResult (constDouble role s)) := by
  unfold Checked.constDouble constDouble
  simp only [Ptr.string_ahead, Option.bind_eq_bind, Option.bind_some]
  cases strtod s with
  | none => rfl
  | some r =>
    simp only [Ptr.load_ahead, Option.bind_some]
    split
    · rfl
    split
    · rfl
    by_cases hf : peek r.rest = 'f'
    · simp [hf, Ptr.succ_of_peek hf (by decide)]
    · simp [hf]

theorem checked_startsHex (s : Text) :
    Checked.startsHex (.ahead s) = some (decide (peek s = '0' ∧ (peek s.tail = 'x' ∨ peek s.tail = 'X'))) := by
  unfold Checked.startsHex
  by_cases h : peek s = '0'
  · simp [h, Ptr.succ_of_peek h (by decide)]
  · simp [h]

theorem checked_constInteger (s : Text) : Checked.constInteger (.ahead s) = some (ptrResult (constInteger s)) := by
  unfold Checked.constInteger constInteger
  simp only [Ptr.string_ahead, checked_startsHex, Option.bind_eq_bind, Option.bind_some, decide_eq_true_eq]
  generalize (if peek s = '0' ∧ (peek s.tail = 'x' ∨ peek s.tail = 'X') then _ else strtol 10 s : Option (Scan Int)) = scan
  cases scan with
  | none => rfl
  | some r =>
    simp only
    split <;> rfl

/-- The letter of a boolean, alone or the first of the word. -/
theorem checked_constLetter (role : Role) (b : Bool) (word : Text) {s : Text} {c : Char} (h : peek s = c) (hc : c ≠ '\x00') :
    Checked.constLetter role b word (.ahead s) = some (ptrResult
      (if (peek s.tail).isAlpha = false then constBoolean role b s s.tail else constWord role b word s)) := by
  unfold Checked.constLetter
  simp only [Ptr.succ_of_peek h hc, Ptr.load_ahead, Option.bind_eq_bind, Option.bind_some]
  split
  · exact checked_constBoolean role b s s.tail
  · exact checked_constWord role b word s

/-- `_parse_const_val` reads inside the string. -/
theorem checked_parseConstVal (role : Role) (delim : Char) {s : Text} (hnul : '\x00' ∉ s) :
    Checked.parseConstVal role delim (.ahead s) = some (ptrResult (parseConstVal role delim s)) := by
  unfold Checked.parseConstVal parseConstVal
  simp only [Ptr.load_ahead, Ptr.string_ahead, Option.bind_eq_bind, Option.bind_some]
  by_cases hT : peek s = 'T'
  · rw [if_pos hT, checked_constLetter role true _ hT (by decide)]
    simp [hT]
  by_cases ht : peek s = 't'
  · simp [ht, checked_constWord]
  by_cases hF : peek s = 'F'
  · rw [if_neg hT, if_neg ht, if_pos hF, checked_constLetter role false _ hF (by decide)]
    simp [hF]
  by_cases hf : peek s = 'f'
  · simp [hf, checked_constWord]
  simp only [hT, ht, hF, hf, false_and, or_self, if_false]
  split
  · rw [checked_parseStringLiteral hnul]
    cases parseStringLiteral s <;> rfl
  split
  · exact checked_constDouble role s
  · exact checked_constInteger s

/-! ## Multipliers and bin types -/

theorem checked_readMultiplier (role : Role) (s : Text) :
    Checked.readMultiplier role (.ahead s) = some (ptrResult (readMultiplier role s)) := by
  unfold Checked.readMultiplier readMultiplier
  simp only [Ptr.string_ahead, Ptr.load_ahead, skipBlankAt_ahead, Option.bind_eq_bind, Option.bind_some]
  cases strtoul 10 s with
  | none => rfl
  | some r =>
    simp only
    split
    · rfl
    by_cases hstar : peek (skipBlank r.rest) = '*'
    · simp only [hstar, if_true, Ptr.succ_of_peek hstar (by decide), skipBlankAt_ahead, Option.bind_some]
      split <;> [rfl; split <;> [rfl; split <;> rfl]]
    · simp [hstar]

theorem checked_readLength (missing invalid : String) (make : Nat → Scalar) (s : Text) :
    Checked.readLength missing invalid make (.ahead s) = some (ptrResult (readLength missing invalid make s)) := by
  unfold Checked.readLength readLength
  simp only [Ptr.string_ahead, Option.bind_eq_bind, Option.bind_some]
  cases strtoul 10 s with
  | none => rfl
  | some r =>
    simp only
    split <;> rfl

theorem checked_unlessKey (role : Role) (msg : String) (s : Text) (t : Token) (r : Text) :
    Checked.unlessKey role msg (.ahead s) t (some (.ahead r)) = some (ptrResult (unlessKey role msg s t r)) := by
  unfold Checked.unlessKey unlessKey
  split <;> rfl

theorem checked_readConstant (role : Role) (delim : Char) (mult : Nat) {s : Text} (hnul : '\x00' ∉ s) :
    Checked.readConstant role delim mult (.ahead s) = some (ptrResult (readConstant role delim mult s)) := by
  unfold Checked.readConstant readConstant
  rw [checked_parseConstVal role delim hnul]
  cases parseConstVal role delim s with
  | error e => rfl
  | ok p =>
    cases role with
    | elem | val => rfl
    | key seen =>
      simp only [ptrResult_ok, Ptr.string_ahead, Option.bind_eq_bind, Option.bind_some]
      split <;> [rfl; split <;> rfl]

theorem checked_readToken (role : Role) (delim : Char) (mult : Nat) {s : Text} (hnul : '\x00' ∉ s) :
    Checked.readToken role delim mult (.ahead s) = some (ptrResult (readToken role delim mult s)) := by
  unfold Checked.readToken readToken
  simp only [Ptr.load_ahead, Option.bind_eq_bind, Option.bind_some]
  split
  · next h => rw [Ptr.succ_of_peek h (by decide), checked_unlessKey]
  split
  · next h =>
    simp only [Ptr.succ_of_peek h (by decide), Ptr.load_ahead, Option.bind_some, Ptr.add_succ, Ptr.add_zero]
    split
    · next hd =>
      have hnul : peek s.tail ≠ '\x00' := by
        intro h0
        rw [h0] at hd
        exact absurd hd (by decide)
      rw [Ptr.succ_of_peek rfl hnul]
      rfl
    · rfl
  split
  · next h => rw [Ptr.succ_of_peek h (by decide), checked_readLength]
  split
  · next h => rw [Ptr.succ_of_peek h (by decide), checked_readLength]
  split
  · next h => rw [Ptr.succ_of_peek h (by decide), checked_unlessKey]
  split
  · next h => rw [Ptr.succ_of_peek h (by decide), skipBlankAt_ahead, checked_unlessKey]
  split
  · next h => rw [Ptr.succ_of_peek h (by decide), skipBlankAt_ahead, checked_unlessKey]
  · exact checked_readConstant role delim mult hnul

theorem checked_readElement (role : Role) (delim : Char) {s : Text} (hnul : '\x00' ∉ s) :
    Checked.readElement role delim (.ahead s) =
      some ((readElement role delim s).map fun r => (r.1, r.2.1, Ptr.ahead r.2.2)) := by
  unfold Checked.readElement readElement
  rw [checked_readMultiplier]
  cases hmult : readMultiplier role s with
  | error e => rfl
  | ok m =>
    have hrest : '\x00' ∉ m.2 := fun h => hnul ((readMultiplier_ok hmult).2.2.2.subset h)
    simp only [ptrResult_ok, Option.bind_eq_bind, Option.bind_some, checked_readToken role delim m.1 hrest]
    cases htok : readToken role delim m.1 m.2 with
    | error e => simp [htok, bind, Except.bind, Except.map]
    | ok t => simp [htok, bind, Except.bind, Except.map, pure, Except.pure]

/-! ## The loop -/

theorem checked_goOn (top : Consumer) (parents : List Consumer) (s : Text) :
    Checked.goOn top parents (.ahead s) = some (.next ⟨top, parents, s⟩) := rfl

theorem checked_stopAt (msg : String) (s : Text) (states : List Consumer) (slot : Slot) :
    Checked.stopAt msg (.ahead s) states slot = some (.error ⟨msg, s, states, slot⟩) := rfl

theorem checked_finishList (c : ListConsumer) (ps : List Consumer) (spec : BinSpec) (s : Text) :
    Checked.finishList c ps spec (.ahead s) = some (finishList c ps spec s) := by
  unfold Checked.finishList finishList
  simp only [Ptr.load_ahead, skipBlankAt_ahead, Option.bind_eq_bind, Option.bind_some, checked_goOn, checked_stopAt]
  split
  · rfl
  split
  · next h => simp only [Ptr.succ_of_peek h (by decide), skipBlankAt_ahead, Option.bind_some, checked_goOn]
  · split <;> rfl

theorem checked_finishKey (c : MapConsumer) (ps : List Consumer) (spec : BinSpec) (s : Text) :
    Checked.finishKey c ps spec (.ahead s) = some (finishKey c ps spec s) := by
  unfold Checked.finishKey finishKey
  simp only [Ptr.load_ahead, skipBlankAt_ahead, Option.bind_eq_bind, Option.bind_some, checked_stopAt]
  split
  · rfl
  split
  · rfl
  · next h =>
    rw [Ptr.succ_of_peek (not_ne_iff.mp h) (by decide)]
    simp only [skipBlankAt_ahead, Option.bind_some, checked_goOn]

theorem checked_finishValue (c : MapConsumer) (ps : List Consumer) (key spec : BinSpec) (s : Text) :
    Checked.finishValue c ps key spec (.ahead s) = some (finishValue c ps key spec s) := by
  unfold Checked.finishValue finishValue
  simp only [Ptr.load_ahead, skipBlankAt_ahead, Option.bind_eq_bind, Option.bind_some, checked_stopAt, checked_goOn]
  split
  · next h => simp only [Ptr.succ_of_peek h (by decide), skipBlankAt_ahead, Option.bind_some, checked_goOn]
  · split <;> rfl

theorem checked_finishElement (c : Consumer) (ps : List Consumer) (spec : BinSpec) (s : Text) :
    Checked.finishElement c ps spec (.ahead s) = some (finishElement c ps spec s) := by
  cases c with
  | list c => exact checked_finishList c ps spec s
  | map c =>
    simp only [Checked.finishElement, finishElement]
    cases c.state with
    | key => exact checked_finishKey c ps spec s
    | val key => exact checked_finishValue c ps key spec s
    | done => rfl

theorem checked_popState (R : AsRandom) (isConst : Bool) (spec : BinSpec) (ps : List Consumer) (s : Text) :
    Checked.popState R isConst spec ps (.ahead s) = some (popState R isConst spec ps s) := by
  unfold Checked.popState popState
  cases foldIf R isConst spec with
  | none => rfl
  | some spec =>
    cases ps with
    | nil => rfl
    | cons p ps => exact checked_finishElement _ ps spec s

/-- A collection is closed at its delimiter, which is not NUL unless it is the top level. -/
theorem checked_closeCollection (R : AsRandom) {S : ParseState} (h : peek S.str = S.top.delimiter) :
    Checked.closeCollection R S.top S.parents (.ahead S.str) = some (closeCollection R S) := by
  obtain ⟨c, ps, s⟩ := S
  cases c with
  | list c =>
    obtain ⟨_ | n, isConst, listBuilder, listLen⟩ := c
    · rfl
    · have hs : (Ptr.ahead s).succ = .ahead s.tail := Ptr.succ_of_peek (c := ']') h (by decide)
      simp only [Checked.closeCollection, closeCollection, hs, checked_popState]
  | map c =>
    have hs : (Ptr.ahead s).succ = .ahead s.tail := Ptr.succ_of_peek (c := '\x7d') h (by decide)
    simp only [Checked.closeCollection, closeCollection, hs, checked_popState, checked_stopAt]
    cases c.state with
    | key =>
      simp only
      split <;> rfl
    | val _ | done => rfl

theorem checked_consumeBinType {S : ParseState} (hnul : '\x00' ∉ S.str) :
    Checked.consumeBinType S.top S.parents (.ahead S.str) = some (consumeBinType S) := by
  unfold Checked.consumeBinType consumeBinType
  cases S.top.role with
  | none => rfl
  | some role =>
    simp only [checked_readElement role _ hnul, Option.bind_eq_bind, Option.bind_some]
    cases readElement role S.top.delimiter S.str with
    | error e => rfl
    | ok r =>
      obtain ⟨n, t, s⟩ := r
      cases t with
      | scalar x => exact checked_finishElement _ _ _ s
      | openList | openMap => rfl

/-- No iteration reads beyond the NUL. -/
theorem checked_parseStep (R : AsRandom) {S : ParseState} (hnul : '\x00' ∉ S.str) :
    Checked.parseStep R S = some (parseStep R S) := by
  unfold Checked.parseStep parseStep
  simp only [Ptr.load_ahead, Option.bind_eq_bind, Option.bind_some]
  split
  · next h => exact checked_closeCollection R h
  · exact checked_consumeBinType hnul

theorem checked_parseLoop (R : AsRandom) {fuel : Nat} : ∀ {S : ParseState}, '\x00' ∉ S.str →
    Checked.parseLoop R fuel S = some (parseLoop R fuel S) := by
  induction fuel with
  | zero => exact fun _ => rfl
  | succ fuel ih =>
    intro S hnul
    simp only [Checked.parseLoop, parseLoop, checked_parseStep R hnul, Option.bind_eq_bind, Option.bind_some]
    cases hstep : parseStep R S with
    | next S' => exact ih fun h => hnul ((parseStep_advances hstep).suffix.subset h)
    | done | error | fault => rfl

/-- `obj_spec_parse` reads nothing beyond the NUL of its string. -/
theorem checked_objSpecParse (R : AsRandom) {str : Text} (hnul : '\x00' ∉ str) :
    Checked.objSpecParse R str = some (objSpecParse R str) :=
  checked_parseLoop R hnul

end AerospikeBenchmark
