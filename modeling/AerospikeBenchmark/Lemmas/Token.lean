import AerospikeBenchmark.Lib.Results
import AerospikeBenchmark.ObjectSpec.Token

/-!
# What reading a token guarantees

One inversion lemma for each reader: what it returns when it succeeds, and that it moves forward in the text.
-/

namespace AerospikeBenchmark

open CText Results

/-! ## String literals -/

theorem oneMore_ok {x : Except String (Nat × Text)} {p : Nat × Text} (h : oneMore x = .ok p) :
    ∃ n, x = .ok (n, p.2) ∧ p.1 = n + 1 := by
  cases x with
  | error e => simp [oneMore, Except.map] at h
  | ok q =>
    simp only [oneMore, Except.map, Except.ok.injEq] at h
    exact ⟨q.1, by rw [← h], by rw [← h]⟩

/-- The closing quote is in the text, at its place or further on. -/
theorem literalEnd_suffix (s : Text) : ∀ p, literalEnd s = .ok p → p.2 <:+ s ∧ p.2 ≠ [] := by
  have further : ∀ {r s : Text}, r <:+ s → (∀ p, literalEnd r = .ok p → p.2 <:+ r ∧ p.2 ≠ []) →
      ∀ p, oneMore (literalEnd r) = .ok p → p.2 <:+ s ∧ p.2 ≠ [] := by
    intro r s hs ih p h
    obtain ⟨k, hx, -⟩ := oneMore_ok h
    obtain ⟨h1, h2⟩ := ih _ hx
    exact ⟨h1.trans hs, h2⟩
  fun_induction literalEnd s with
  | case1 | case3 | case5 | case7 | case8 => intro p h; simp at h
  | case2 r =>
    intro p h
    obtain rfl := Except.ok.inj h
    exact ⟨List.suffix_rfl, List.cons_ne_nil _ _⟩
  | case4 | case6 =>
    rename_i ih
    exact further ⟨[_, _, _, _], rfl⟩ ih
  | case9 =>
    rename_i ih
    exact further ⟨[_, _], rfl⟩ ih
  | case10 =>
    rename_i ih
    exact further ⟨[_], rfl⟩ ih

theorem literalEnd_quote (r : Text) : literalEnd ('"' :: r) = .ok (0, '"' :: r) := by
  rw [literalEnd.eq_def]
  rfl

theorem literalEnd_plain {c : Char} (hq : c ≠ '"') (hb : c ≠ '\\') (r : Text) :
    literalEnd (c :: r) = oneMore (literalEnd r) := by
  rw [literalEnd.eq_def]
  simp only [if_neg hq, if_neg hb]

/-- The escapes with a length of their own are not among the simple ones. -/
theorem lookup_octal {e : Char} (he : '0' ≤ e ∧ e ≤ '3') : simpleEscapes.lookup e = none := by
  have hlow : '0'.toNat ≤ e.toNat := he.1
  have hhigh : e.toNat ≤ '3'.toNat := he.2
  have hne : ∀ d : Char, d.toNat < '0'.toNat ∨ '3'.toNat < d.toNat → (e == d) = false := by
    intro d hd
    rw [beq_eq_false_iff_ne]
    rintro rfl
    omega
  simp [simpleEscapes, List.lookup_cons, hne]

theorem hexEscape_some {a b : Char} {v : Scan Nat} (h : strtoul 16 [a, b] = some v) (r : Text) :
    hexEscape (a :: b :: r) = if v.rest = [] then .ok (Char.ofNat (v.value % 256), r)
      else .error ("Invalid hexadecimal escape sequence \"\\" ++ String.ofList ['x', a, b] ++ "\"\n") := by
  -- the equation that `hexEscape` comes with takes too long to be found
  delta hexEscape
  dsimp only
  rw [h]

theorem hexEscape_none {a b : Char} (h : strtoul 16 [a, b] = none) (r : Text) :
    hexEscape (a :: b :: r) = .error ("Invalid hexadecimal escape sequence \"\\" ++ String.ofList ['x', a, b] ++ "\"\n") := by
  delta hexEscape
  dsimp only
  rw [h]

/-- A literal that is read begins with a quote, and both passes succeed. -/
theorem parseStringLiteral_passes {s : Text} {p : Text × Text} (h : parseStringLiteral s = .ok p) :
    peek s = '"' ∧ ∃ q, literalEnd s.tail = .ok q ∧ decodeLiteral q.2.length s.length s.tail = .ok p.1 ∧ p.2 = q.2.tail := by
  unfold parseStringLiteral at h
  split at h
  · next hq =>
    obtain ⟨q, hend, h⟩ := bind_eq_ok.mp h
    obtain ⟨t, hdecode, heq⟩ := bind_eq_ok.mp h
    cases heq
    exact ⟨hq, q, hend, hdecode, rfl⟩
  · cases h

theorem parseStringLiteral_advances {s : Text} {p : Text × Text} (h : parseStringLiteral s = .ok p) : Advances s p.2 := by
  obtain ⟨hq, q, hend, -, hrest⟩ := parseStringLiteral_passes h
  rw [hrest]
  exact advances_of_peek hq (by decide) ((List.tail_suffix _).trans (literalEnd_suffix _ _ hend).1)

/-! ## Constants -/

theorem constBoolean_ok {role : Role} {b : Bool} {s r : Text} {p : Scalar × Text} (h : constBoolean role b s r = .ok p) :
    role.isKey = false ∧ p = (.constBool b, r) := by
  unfold constBoolean at h
  split at h
  · simp [failAt] at h
  · rename_i hk
    exact ⟨by simpa using hk, by simpa using h.symm⟩

theorem constWord_ok {role : Role} {b : Bool} {c : Char} {w s : Text} {p : Scalar × Text} (h : constWord role b (c :: w) s = .ok p) :
    role.isKey = false ∧ p.1 = .constBool b ∧ Advances s p.2 := by
  unfold constWord at h
  split at h
  · next r hr =>
    split at h
    · simp [failAt] at h
    · obtain ⟨hk, rfl⟩ := constBoolean_ok h
      exact ⟨hk, rfl, dropWord_advances hr⟩
  · simp [failAt] at h

theorem constDouble_ok {role : Role} {s : Text} {p : Scalar × Text} (h : constDouble role s = .ok p) :
    role.isKey = false ∧ (∃ d, p.1 = .constDouble d) ∧ Advances s p.2 := by
  unfold constDouble at h
  split at h
  · simp [failAt] at h
  · next r hr =>
    split at h
    · simp [failAt] at h
    split at h
    · simp [failAt] at h
    · next hk =>
      obtain rfl := Except.ok.inj h
      refine ⟨by simpa using hk, ⟨r.value, rfl⟩, (strtod_advances hr).then_suffix ?_⟩
      dsimp only
      split
      · exact List.tail_suffix _
      · exact List.suffix_rfl

theorem constInteger_ok {s : Text} {p : Scalar × Text} (h : constInteger s = .ok p) :
    (∃ v, p.1 = .constInt v) ∧ Advances s p.2 := by
  unfold constInteger at h
  simp only at h
  split at h
  · simp [failAt] at h
  · next r hr =>
    split at h
    · simp [failAt] at h
    · obtain rfl := Except.ok.inj h
      refine ⟨⟨r.value, rfl⟩, ?_⟩
      split at hr
      · obtain ⟨q, hq, rfl⟩ := Option.map_eq_some_iff.mp hr
        exact strtoul_advances (by omega) hq
      · exact strtol_advances (by omega) hr

/-- A constant that is read is a constant, one a key may have if it is a key, and takes at least one character. -/
theorem parseConstVal_ok {role : Role} {delim : Char} {s : Text} {p : Scalar × Text} (h : parseConstVal role delim s = .ok p) :
    p.1.isConst = true ∧ p.1.InRange ∧ (role.isKey = true → p.1.isKeyType = true) ∧ Advances s p.2 := by
  have boolean : ∀ {b : Bool}, role.isKey = false → p.1 = .constBool b → Advances s p.2 →
      p.1.isConst = true ∧ p.1.InRange ∧ (role.isKey = true → p.1.isKeyType = true) ∧ Advances s p.2 := by
    intro b hk hp hadv
    rw [hp]
    exact ⟨rfl, trivial, by simp [hk], hadv⟩
  have letter : ∀ {c : Char} {b : Bool}, peek s = c → c ≠ '\x00' → constBoolean role b s s.tail = .ok p →
      p.1.isConst = true ∧ p.1.InRange ∧ (role.isKey = true → p.1.isKeyType = true) ∧ Advances s p.2 := by
    intro c b hc hne hb
    obtain ⟨hk, rfl⟩ := constBoolean_ok hb
    exact boolean hk rfl (advances_of_peek hc hne List.suffix_rfl)
  unfold parseConstVal at h
  split at h
  · next hc => exact letter hc.1 (by decide) h
  split at h
  · obtain ⟨hk, hp, hadv⟩ := constWord_ok h
    exact boolean hk hp hadv
  split at h
  · next hc => exact letter hc.1 (by decide) h
  split at h
  · obtain ⟨hk, hp, hadv⟩ := constWord_ok h
    exact boolean hk hp hadv
  split at h
  · split at h
    · simp [failAt] at h
    · next q hq =>
      obtain rfl := Except.ok.inj h
      exact ⟨rfl, trivial, fun _ => rfl, parseStringLiteral_advances hq⟩
  split at h
  · obtain ⟨hk, ⟨d, hd⟩, hadv⟩ := constDouble_ok h
    rw [hd]
    exact ⟨rfl, trivial, by simp [hk], hadv⟩
  · obtain ⟨⟨v, hv⟩, hadv⟩ := constInteger_ok h
    rw [hv]
    exact ⟨rfl, trivial, fun _ => rfl, hadv⟩

/-! ## Multipliers and bin types -/

/-- A text that does not begin with a digit has no multiplier. -/
theorem readMultiplier_of_not_digit {s : Text} (h : isDigit 10 (peek s) = false) (role : Role) : readMultiplier role s = .ok (1, s) := by
  unfold readMultiplier
  split
  · rfl
  · rw [if_pos (.inr h)]

theorem readElement_eq {role : Role} {delim : Char} {s b r : Text} {n : Nat} {t : Token}
    (hm : readMultiplier role s = .ok (n, b)) (ht : readToken role delim n b = .ok (t, r)) :
    readElement role delim s = .ok (n, t, r) := by
  rw [readElement, hm, ok_bind, ht]
  rfl

/-- What is read is a multiplier and a bin type behind it. -/
theorem readElement_parts {role : Role} {delim : Char} {s r : Text} {n : Nat} {t : Token}
    (h : readElement role delim s = .ok (n, t, r)) :
    ∃ b, readMultiplier role s = .ok (n, b) ∧ readToken role delim n b = .ok (t, r) := by
  obtain ⟨m, hm, h⟩ := bind_eq_ok.mp h
  obtain ⟨p, ht, heq⟩ := bind_eq_ok.mp h
  cases heq
  exact ⟨m.2, hm, ht⟩

theorem readMultiplier_ok {role : Role} {s : Text} {m : Nat × Text} (h : readMultiplier role s = .ok m) :
    1 ≤ m.1 ∧ m.1 < 2 ^ 32 ∧ (role.isVal = true → m.1 = 1) ∧ m.2 <:+ s := by
  have one : (.ok (1, s) : Except Fail (Nat × Text)) = .ok m →
      1 ≤ m.1 ∧ m.1 < 2 ^ 32 ∧ (role.isVal = true → m.1 = 1) ∧ m.2 <:+ s := by
    intro h
    obtain rfl := Except.ok.inj h
    exact ⟨le_rfl, by simp, fun _ => rfl, List.suffix_rfl⟩
  unfold readMultiplier at h
  split at h
  · exact one h
  · next r hr =>
    split at h
    · exact one h
    split at h
    · split at h
      · simp [failAt] at h
      split at h
      · simp [failAt] at h
      split at h
      · simp [failAt] at h
      · next hval hzero hbig =>
        obtain rfl := Except.ok.inj h
        refine ⟨by simp only; omega, by simp only; omega, ?_, ?_⟩
        · intro hv
          by_contra hne
          exact hval ⟨hv, hne⟩
        · calc skipBlank (skipBlank r.rest).tail <:+ (skipBlank r.rest).tail := skipBlank_suffix _
            _ <:+ skipBlank r.rest := List.tail_suffix _
            _ <:+ r.rest := skipBlank_suffix _
            _ <:+ s := (strtoul_advances (by omega) hr).suffix
    · exact one h

/-- A scalar that is read in a role with a multiplier: in range, and for a key of a type a key may have; a constant key has no
multiplier and differs from the constant keys before it. -/
structure Scalar.ReadAs (role : Role) (mult : Nat) (c : Scalar) : Prop where
  inRange : c.InRange
  keyType : role.isKey = true → c.isKeyType = true
  keyMult : role.isKey = true → c.isConst = true → mult = 1
  keyFresh : ∀ seen, role = .key seen → c.isConst = true → repeatConstKey seen c = false

/-- What a token that is read satisfies. -/
def Token.ReadAs (role : Role) (mult : Nat) : Token → Prop
  | .scalar c => c.ReadAs role mult
  | .openList | .openMap => role.isKey = false

theorem readAs_of_not_const {role : Role} {mult : Nat} {c : Scalar} (hr : c.InRange) (hc : c.isConst = false)
    (hk : role.isKey = true → c.isKeyType = true) : c.ReadAs role mult :=
  ⟨hr, hk, fun _ h => by simp [hc] at h, fun _ _ h => by simp [hc] at h⟩

theorem readLength_ok {missing invalid : String} {make : Nat → Scalar} {s : Text} {p : Token × Text}
    (h : readLength missing invalid make s = .ok p) : ∃ n, n < 2 ^ 32 ∧ p.1 = .scalar (make n) ∧ Advances s p.2 := by
  unfold readLength at h
  split at h
  · simp [failAt] at h
  · rename_i r hr
    split at h
    · simp [failAt] at h
    · simp only [Except.ok.injEq] at h
      rw [← h]
      exact ⟨r.value, by omega, rfl, strtoul_advances (by omega) hr⟩

theorem unlessKey_ok {role : Role} {msg : String} {s r : Text} {t : Token} {p : Token × Text}
    (h : unlessKey role msg s t r = .ok p) : role.isKey = false ∧ p = (t, r) := by
  unfold unlessKey at h
  split at h
  · simp [failAt] at h
  · rename_i hk
    exact ⟨by simpa using hk, by simpa using h.symm⟩

theorem readConstant_ok {role : Role} {delim : Char} {mult : Nat} {s : Text} {p : Token × Text}
    (h : readConstant role delim mult s = .ok p) : p.1.ReadAs role mult ∧ Advances s p.2 := by
  unfold readConstant at h
  split at h
  · simp at h
  · rename_i c r hc
    obtain ⟨hconst, hr, hkey, hlen⟩ := parseConstVal_ok hc
    split at h
    · rename_i seen
      split at h
      · simp at h
      split at h
      · simp at h
      · rename_i hm hrep
        simp only [Except.ok.injEq] at h
        rw [← h]
        refine ⟨⟨hr, hkey, fun _ _ => by omega, ?_⟩, hlen⟩
        intro seen' hs _
        simp only [Role.key.injEq] at hs
        rw [← hs]
        simpa using hrep
    · rename_i hno
      simp only [Except.ok.injEq] at h
      rw [← h]
      have hnk : role.isKey = false := by
        cases role with
        | key seen => exact absurd rfl (hno seen)
        | elem | val => rfl
      exact ⟨⟨hr, hkey, fun hk => by simp [hnk] at hk, fun seen hs => absurd hs (hno seen)⟩, hlen⟩

/-- A scalar type of one letter that no key may have. -/
theorem unlessKey_scalar_ok {role : Role} {mult : Nat} {msg : String} {s : Text} {c : Char} (hpeek : peek s = c) (hc : c ≠ '\x00')
    {x : Scalar} {p : Token × Text} (h : unlessKey role msg s (.scalar x) s.tail = .ok p) (hrange : x.InRange)
    (hconst : x.isConst = false) : p.1.ReadAs role mult ∧ Advances s p.2 := by
  obtain ⟨hk, rfl⟩ := unlessKey_ok h
  exact ⟨readAs_of_not_const hrange hconst (by simp [hk]), advances_of_peek hpeek hc List.suffix_rfl⟩

/-- The start of a list or a map, which no key may be. -/
theorem unlessKey_open_ok {role : Role} {mult : Nat} {msg : String} {s : Text} {c : Char} (hpeek : peek s = c) (hc : c ≠ '\x00')
    {t : Token} (ht : t.ReadAs role mult ↔ role.isKey = false) {p : Token × Text}
    (h : unlessKey role msg s t (skipBlank s.tail) = .ok p) : p.1.ReadAs role mult ∧ Advances s p.2 := by
  obtain ⟨hk, rfl⟩ := unlessKey_ok h
  exact ⟨ht.mpr hk, advances_of_peek hpeek hc (skipBlank_suffix _)⟩

/-- A type with a length, which a key may have. -/
theorem readLength_readAs {role : Role} {mult : Nat} {missing invalid : String} {make : Nat → Scalar} {s : Text} {c : Char}
    (hpeek : peek s = c) (hc : c ≠ '\x00') {p : Token × Text} (h : readLength missing invalid make s.tail = .ok p)
    (hrange : ∀ n < 2 ^ 32, (make n).InRange) (hconst : ∀ n, (make n).isConst = false) (hkey : ∀ n, (make n).isKeyType = true) :
    p.1.ReadAs role mult ∧ Advances s p.2 := by
  obtain ⟨n, hn, hp, hlen⟩ := readLength_ok h
  rw [hp]
  exact ⟨readAs_of_not_const (hrange n hn) (hconst n) fun _ => hkey n, advances_of_peek hpeek hc hlen.suffix⟩

/-- The inversion lemma of `readToken`. -/
theorem readToken_ok {role : Role} {delim : Char} {mult : Nat} {s : Text} {p : Token × Text}
    (h : readToken role delim mult s = .ok p) : p.1.ReadAs role mult ∧ Advances s p.2 := by
  unfold readToken at h
  split at h
  · next hc => exact unlessKey_scalar_ok hc (by decide) h trivial rfl
  split at h
  · next hc =>
    split at h
    · next hd =>
      simp only [Except.ok.injEq] at h
      rw [← h]
      refine ⟨readAs_of_not_const ?_ rfl fun _ => rfl, advances_of_peek hc (by decide) (List.tail_suffix _)⟩
      have h8 : (peek s.tail).toNat ≤ '8'.toNat := hd.2
      have h56 : '8'.toNat = 56 := rfl
      simp only [Scalar.InRange]
      omega
    · simp only [Except.ok.injEq] at h
      rw [← h]
      exact ⟨readAs_of_not_const (by simp [Scalar.InRange]) rfl fun _ => rfl, advances_of_peek hc (by decide) List.suffix_rfl⟩
  split at h
  · next hc => exact readLength_readAs hc (by decide) h (fun _ hn => hn) (fun _ => rfl) (fun _ => rfl)
  split at h
  · next hc => exact readLength_readAs hc (by decide) h (fun _ hn => hn) (fun _ => rfl) (fun _ => rfl)
  split at h
  · next hc => exact unlessKey_scalar_ok hc (by decide) h trivial rfl
  split at h
  · next hc => exact unlessKey_open_ok hc (by decide) Iff.rfl h
  split at h
  · next hc => exact unlessKey_open_ok hc (by decide) Iff.rfl h
  · exact readConstant_ok h

/-- The inversion lemma of `readElement`. -/
theorem readElement_ok {role : Role} {delim : Char} {s : Text} {n : Nat} {t : Token} {r : Text}
    (h : readElement role delim s = .ok (n, t, r)) :
    1 ≤ n ∧ n < 2 ^ 32 ∧ (role.isVal = true → n = 1) ∧ t.ReadAs role n ∧ Advances s r := by
  obtain ⟨b, hm, ht⟩ := readElement_parts h
  obtain ⟨h1, h2, h3, h4⟩ := readMultiplier_ok hm
  obtain ⟨h5, h6⟩ := readToken_ok ht
  exact ⟨h1, h2, h3, h5, h6.after_suffix h4⟩

/-! ## Errors -/

/-- The result is not an error after which a constant has to be freed. -/
def FreesNothing {α : Type} (x : Except Fail α) : Prop := ∀ e, x = .error e → e.freed = none

theorem freesNothing_ok {α : Type} (a : α) : FreesNothing (.ok a : Except Fail α) := by
  intro e h
  cases h

theorem freesNothing_failAt {α : Type} (msg : String) (loc : Text) : FreesNothing (failAt msg loc : Except Fail α) := by
  rintro e h
  cases h
  rfl

theorem freesNothing_ite {α : Type} {p : Prop} [Decidable p] {x y : Except Fail α} (hx : FreesNothing x) (hy : FreesNothing y) :
    FreesNothing (if p then x else y) := by
  split
  · exact hx
  · exact hy

theorem freesNothing_constBoolean (role : Role) (b : Bool) (s r : Text) : FreesNothing (constBoolean role b s r) :=
  freesNothing_ite (freesNothing_failAt _ _) (freesNothing_ok _)

theorem freesNothing_constWord (role : Role) (b : Bool) (word s : Text) : FreesNothing (constWord role b word s) := by
  unfold constWord
  split
  · exact freesNothing_ite (freesNothing_failAt _ _) (freesNothing_constBoolean _ _ _ _)
  · exact freesNothing_failAt _ _

theorem freesNothing_constDouble (role : Role) (s : Text) : FreesNothing (constDouble role s) := by
  unfold constDouble
  split
  · exact freesNothing_failAt _ _
  · exact freesNothing_ite (freesNothing_failAt _ _) (freesNothing_ite (freesNothing_failAt _ _) (freesNothing_ok _))

theorem freesNothing_constInteger (s : Text) : FreesNothing (constInteger s) := by
  unfold constInteger
  dsimp only
  split
  · exact freesNothing_failAt _ _
  · exact freesNothing_ite (freesNothing_failAt _ _) (freesNothing_ok _)

theorem freesNothing_parseConstVal (role : Role) (delim : Char) (s : Text) : FreesNothing (parseConstVal role delim s) := by
  unfold parseConstVal
  refine freesNothing_ite (freesNothing_constBoolean _ _ _ _) (freesNothing_ite (freesNothing_constWord _ _ _ _) ?_)
  refine freesNothing_ite (freesNothing_constBoolean _ _ _ _) (freesNothing_ite (freesNothing_constWord _ _ _ _) ?_)
  refine freesNothing_ite ?_ (freesNothing_ite (freesNothing_constDouble _ _) (freesNothing_constInteger _))
  split
  · exact freesNothing_failAt _ _
  · exact freesNothing_ok _

theorem freesNothing_readMultiplier (role : Role) (s : Text) : FreesNothing (readMultiplier role s) := by
  unfold readMultiplier
  split
  · exact freesNothing_ok _
  · refine freesNothing_ite (freesNothing_ok _) (freesNothing_ite ?_ (freesNothing_ok _))
    refine freesNothing_ite (freesNothing_failAt _ _) (freesNothing_ite (freesNothing_failAt _ _) ?_)
    exact freesNothing_ite (freesNothing_failAt _ _) (freesNothing_ok _)

theorem freesNothing_readLength (missing invalid : String) (make : Nat → Scalar) (s : Text) :
    FreesNothing (readLength missing invalid make s) := by
  unfold readLength
  split
  · exact freesNothing_failAt _ _
  · exact freesNothing_ite (freesNothing_failAt _ _) (freesNothing_ok _)

theorem freesNothing_unlessKey (role : Role) (msg : String) (s : Text) (t : Token) (r : Text) :
    FreesNothing (unlessKey role msg s t r) :=
  freesNothing_ite (freesNothing_failAt _ _) (freesNothing_ok _)

/-- Only a constant map key is freed. -/
theorem freesNothing_readConstant {role : Role} (h : role.isKey = false) (delim : Char) (mult : Nat) (s : Text) :
    FreesNothing (readConstant role delim mult s) := by
  unfold readConstant
  split
  · next e he =>
    rintro e' h
    cases h
    exact freesNothing_parseConstVal role delim s e he
  · cases role with
    | key seen => cases h
    | elem | val => exact freesNothing_ok _

theorem freesNothing_readToken {role : Role} (h : role.isKey = false) (delim : Char) (mult : Nat) (s : Text) :
    FreesNothing (readToken role delim mult s) := by
  unfold readToken
  refine freesNothing_ite (freesNothing_unlessKey _ _ _ _ _) (freesNothing_ite (freesNothing_ite (freesNothing_ok _) (freesNothing_ok _)) ?_)
  refine freesNothing_ite (freesNothing_readLength _ _ _ _) (freesNothing_ite (freesNothing_readLength _ _ _ _) ?_)
  refine freesNothing_ite (freesNothing_unlessKey _ _ _ _ _) (freesNothing_ite (freesNothing_unlessKey _ _ _ _ _) ?_)
  exact freesNothing_ite (freesNothing_unlessKey _ _ _ _ _) (freesNothing_readConstant h _ _ _)

theorem freesNothing_readElement {role : Role} (h : role.isKey = false) (delim : Char) (s : Text) :
    FreesNothing (readElement role delim s) := by
  intro e he
  rcases bind_eq_error.mp he with hm | ⟨m, -, he⟩
  · exact freesNothing_readMultiplier role s e hm
  · rcases bind_eq_error.mp he with ht | ⟨p, -, hp⟩
    · exact freesNothing_readToken h delim m.1 m.2 e ht
    · cases hp

end AerospikeBenchmark
