import Mathlib.Data.List.TakeWhile
import Mathlib.Tactic

/-!
# C strings and the integer conversions of the C library

A C string is read left to right through a pointer; here the pointer is the text that is still ahead of it, a list of
characters without the terminating NUL. `strtoul` and `strtol` follow the C standard: leading white space, one sign, for base 16
an optional `0x`, then the longest run of digits; a value out of range is clamped and reported as `ERANGE`.
-/

namespace CText

/-- The text ahead of a `char*`: one character for each byte, the terminating NUL left out. -/
abbrev Text := List Char

/-- `*s`: the first character of a text, NUL at its end. -/
def peek : Text → Char
  | [] => '\x00'
  | c :: _ => c

@[simp] theorem peek_nil : peek [] = '\x00' := rfl

@[simp] theorem peek_cons (c : Char) (s : Text) : peek (c :: s) = c := rfl

/-- A text whose first character is not NUL is that character followed by the rest. -/
theorem eq_cons_of_peek {s : Text} {c : Char} (h : peek s = c) (hc : c ≠ '\x00') : s = c :: s.tail := by
  cases s with
  | nil => exact absurd h.symm hc
  | cons d s => simp only [peek_cons] at h; simp [h]

/-- Only at its end does a text without NUL show one. -/
theorem eq_nil_of_peek {s : Text} (hnul : '\x00' ∉ s) (h : peek s = '\x00') : s = [] := by
  cases s with
  | nil => rfl
  | cons c s =>
    obtain rfl : c = '\x00' := h
    simp at hnul

/-- A property of every character of a list, by evaluation. -/
theorem forall_mem_of_all {p : Char → Prop} [DecidablePred p] {l : Text} (h : l.all (fun c => decide (p c)) = true) :
    ∀ c ∈ l, p c := by
  simpa using h

/-- `if (*s == ' ') s++;` -/
def skipBlank : Text → Text
  | ' ' :: s => s
  | s => s

theorem skipBlank_of_ne {s : Text} (h : peek s ≠ ' ') : skipBlank s = s := by
  unfold skipBlank
  split
  · exact absurd rfl h
  · rfl

/-! ## Moving forward -/

/-- `s'` is ahead of `s` by at least one character. -/
structure Advances (s s' : Text) : Prop where
  ne_nil : s ≠ []
  suffix_tail : s' <:+ s.tail

theorem Advances.suffix {s s' : Text} (h : Advances s s') : s' <:+ s := h.suffix_tail.trans (List.tail_suffix s)

theorem Advances.length_lt {s s' : Text} (h : Advances s s') : s'.length < s.length := by
  have hle := h.suffix_tail.length_le
  have hpos := List.length_pos_iff.mpr h.ne_nil
  rw [List.length_tail] at hle
  omega

theorem Advances.then_suffix {s t u : Text} (h : Advances s t) (h' : u <:+ t) : Advances s u := ⟨h.ne_nil, h'.trans h.suffix_tail⟩

theorem Advances.after_suffix {s t u : Text} (h : Advances t u) (h' : t <:+ s) : Advances s u := by
  obtain ⟨w, rfl⟩ := h'
  cases w with
  | nil => exact h
  | cons c w => exact ⟨by simp, h.suffix.trans (List.suffix_append w t)⟩

/-- Past a character that is not NUL. -/
theorem advances_of_peek {s s' : Text} {c : Char} (h : peek s = c) (hc : c ≠ '\x00') (hs : s' <:+ s.tail) : Advances s s' := by
  refine ⟨?_, hs⟩
  rw [eq_cons_of_peek h hc]
  exact List.cons_ne_nil _ _

theorem skipBlank_suffix (s : Text) : skipBlank s <:+ s := by
  unfold skipBlank
  split
  · exact List.suffix_cons _ _
  · exact List.suffix_rfl

/-! ## Digits -/

/-- `isspace` of the C locale. -/
def isSpace (c : Char) : Bool :=
  c == ' ' || c == '\t' || c == '\n' || c == '\x0b' || c == '\x0c' || c == '\r'

/-- The value of a character as a digit of the largest base, 36 when it is none. -/
def digitOf (c : Char) : Nat :=
  if '0' ≤ c ∧ c ≤ '9' then c.toNat - 48
  else if 'a' ≤ c ∧ c ≤ 'z' then c.toNat - 87
  else if 'A' ≤ c ∧ c ≤ 'Z' then c.toNat - 55
  else 36

/-- Whether a character is a digit of the base. -/
def isDigit (base : Nat) (c : Char) : Bool := digitOf c < base

/-- The number a run of digits denotes. -/
def digitsVal (base : Nat) (ds : Text) : Nat := ds.foldl (fun n c => n * base + digitOf c) 0

/-- The longest run of digits a text starts with. -/
def digits (base : Nat) (s : Text) : Text := s.takeWhile (isDigit base)

/-- What follows the longest run of digits a text starts with. -/
def afterDigits (base : Nat) (s : Text) : Text := s.dropWhile (isDigit base)

/-- A numeral of the base: a non-empty run of digits. -/
structure IsNumeral (base : Nat) (ds : Text) : Prop where
  ne_nil : ds ≠ []
  all : ∀ c ∈ ds, isDigit base c = true

theorem digits_append {base : Nat} {ds r : Text} (h : ∀ c ∈ ds, isDigit base c = true) (hr : isDigit base (peek r) = false) :
    digits base (ds ++ r) = ds := by
  unfold digits
  rw [List.takeWhile_append_of_pos h]
  cases r with
  | nil => simp
  | cons c r => simp only [peek_cons] at hr; simp [hr]

theorem afterDigits_append {base : Nat} {ds r : Text} (h : ∀ c ∈ ds, isDigit base c = true)
    (hr : isDigit base (peek r) = false) : afterDigits base (ds ++ r) = r := by
  unfold afterDigits
  rw [List.dropWhile_append_of_pos h]
  cases r with
  | nil => simp
  | cons c r => simp only [peek_cons] at hr; simp [hr]

theorem digits_append_afterDigits (base : Nat) (s : Text) : digits base s ++ afterDigits base s = s :=
  List.takeWhile_append_dropWhile

/-- A text that starts with a digit has a numeral in front. -/
theorem isNumeral_digits {base : Nat} {s : Text} (h : isDigit base (peek s) = true) (hs : s ≠ []) :
    IsNumeral base (digits base s) := by
  refine ⟨?_, fun c hc => List.mem_takeWhile_imp hc⟩
  cases s with
  | nil => exact absurd rfl hs
  | cons c s => simp only [peek_cons] at h; simp [digits, h]

/-! ## strtoul and strtol -/

/-- What a conversion that found a number returns: the value, `*endptr` and whether `errno` is `ERANGE`. -/
structure Scan (α : Type) where
  value : α
  rest : Text
  erange : Bool
deriving DecidableEq, Repr

/-- The white space every numeric conversion skips. -/
def skipSpace (s : Text) : Text := s.dropWhile isSpace

/-- The optional sign in front of a number: whether it is a minus, and what follows. -/
def readSign : Text → Bool × Text
  | '-' :: s => (true, s)
  | '+' :: s => (false, s)
  | s => (false, s)

/-- The `0x` that base 16 allows in front of a digit. -/
def skipHexMark (base : Nat) : Text → Text
  | '0' :: x :: c :: s =>
    if base = 16 ∧ (x = 'x' ∨ x = 'X') ∧ isDigit 16 c = true then c :: s else '0' :: x :: c :: s
  | s => s

/-- Sign, magnitude and rest of the number a text starts with; none when there is no digit. -/
def readNumber (base : Nat) (s : Text) : Option (Bool × Nat × Text) :=
  let sign := readSign (skipSpace s)
  let body := skipHexMark base sign.2
  if isDigit base (peek body) then some (sign.1, digitsVal base (digits base body), afterDigits base body) else none

/-- `strtoul`: `none` stands for `*endptr == nptr`. A minus negates the value modulo `2^64`. -/
def strtoul (base : Nat) (s : Text) : Option (Scan Nat) :=
  (readNumber base s).map fun (neg, m, rest) =>
    if m < 2 ^ 64 then ⟨if neg then (2 ^ 64 - m) % 2 ^ 64 else m, rest, false⟩ else ⟨2 ^ 64 - 1, rest, true⟩

/-- `strtol`: `none` stands for `*endptr == nptr`. -/
def strtol (base : Nat) (s : Text) : Option (Scan Int) :=
  (readNumber base s).map fun (neg, m, rest) =>
    match neg with
    | true => if m ≤ 2 ^ 63 then ⟨-(m : Int), rest, false⟩ else ⟨-2 ^ 63, rest, true⟩
    | false => if m < 2 ^ 63 then ⟨(m : Int), rest, false⟩ else ⟨2 ^ 63 - 1, rest, true⟩

/-! ### What the conversions read -/

theorem digitOf_of_isSpace {c : Char} (h : isSpace c = true) : digitOf c = 36 := by
  simp only [isSpace, Bool.or_eq_true, beq_iff_eq] at h
  rcases h with ((((rfl | rfl) | rfl) | rfl) | rfl) | rfl <;> decide

theorem isSpace_of_isDigit {base : Nat} (hb : base ≤ 36) {c : Char} (h : isDigit base c = true) : isSpace c = false := by
  by_contra hs
  have h36 := digitOf_of_isSpace (Bool.not_eq_false _ ▸ hs : isSpace c = true)
  simp [isDigit, h36] at h
  omega

theorem skipSpace_of_not {s : Text} (h : isSpace (peek s) = false) : skipSpace s = s := by
  cases s with
  | nil => rfl
  | cons c s => simp only [peek_cons] at h; simp [skipSpace, h]

theorem readSign_of_ne {s : Text} (hm : peek s ≠ '-') (hp : peek s ≠ '+') : readSign s = (false, s) := by
  unfold readSign
  split
  · exact absurd rfl hm
  · exact absurd rfl hp
  · rfl

theorem readSign_of_digit {base : Nat} (hb : base ≤ 36) {s : Text} (h : isDigit base (peek s) = true) :
    readSign s = (false, s) := by
  have hm : digitOf '-' = 36 := by decide
  have hp : digitOf '+' = 36 := by decide
  refine readSign_of_ne ?_ ?_ <;> intro hc <;> simp [hc, isDigit, hm, hp] at h <;> omega

theorem skipHexMark_of_ne {base : Nat} (hb : base ≠ 16) (s : Text) : skipHexMark base s = s := by
  unfold skipHexMark
  split
  · simp [hb]
  · rfl

/-- A text that starts with a digit is read from there, without sign. -/
theorem readNumber_of_digit {base : Nat} (hb : base ≤ 36) (hb' : base ≠ 16) {s : Text} (h : isDigit base (peek s) = true) :
    readNumber base s = some (false, digitsVal base (digits base s), afterDigits base s) := by
  have hs : skipSpace s = s := skipSpace_of_not (isSpace_of_isDigit hb h)
  simp [readNumber, hs, readSign_of_digit hb h, skipHexMark_of_ne hb', h]

/-- The spec of `strtoul` on a numeral that fits: the whole numeral is read and the value is exact. -/
theorem strtoul_numeral {base : Nat} (hb : base ≤ 36) (hb' : base ≠ 16) {ds r : Text} (hds : IsNumeral base ds)
    (hr : isDigit base (peek r) = false) (hv : digitsVal base ds < 2 ^ 64) :
    strtoul base (ds ++ r) = some ⟨digitsVal base ds, r, false⟩ := by
  have hp : isDigit base (peek (ds ++ r)) = true := by
    obtain ⟨c, ds', rfl⟩ := List.exists_cons_of_ne_nil hds.ne_nil
    exact hds.all c (by simp)
  rw [strtoul, readNumber_of_digit hb hb' hp, digits_append hds.all hr, afterDigits_append hds.all hr]
  simp only [Option.map_some, if_pos hv, Bool.false_eq_true, if_false]

theorem peek_numeral {base : Nat} {ds : Text} (h : IsNumeral base ds) (r : Text) : isDigit base (peek (ds ++ r)) = true := by
  obtain ⟨c, ds', rfl⟩ := List.exists_cons_of_ne_nil h.ne_nil
  exact h.all c (by simp)

/-- The signs a number may have in front. -/
def IsSign (sign : Text) : Prop := sign = [] ∨ sign = ['+'] ∨ sign = ['-']

/-- White space and sign are skipped up to a numeral. -/
theorem readSign_numeral {base : Nat} (hb : base ≤ 36) {sign ds : Text} (hs : IsSign sign) (hds : IsNumeral base ds) (r : Text) :
    readSign (skipSpace (sign ++ (ds ++ r))) = (decide (sign = ['-']), ds ++ r) := by
  have hd := peek_numeral hds r
  rcases hs with rfl | rfl | rfl
  · rw [List.nil_append, skipSpace_of_not (isSpace_of_isDigit hb hd), readSign_of_digit hb hd]
    simp
  · rw [skipSpace_of_not (by rfl)]
    rfl
  · rw [skipSpace_of_not (by rfl)]
    rfl

/-- `readNumber` on a signed numeral. -/
theorem readNumber_numeral {base : Nat} (hb : base ≤ 36) (hb' : base ≠ 16) {sign ds r : Text} (hs : IsSign sign)
    (hds : IsNumeral base ds) (hr : isDigit base (peek r) = false) :
    readNumber base (sign ++ (ds ++ r)) = some (decide (sign = ['-']), digitsVal base ds, r) := by
  simp only [readNumber, readSign_numeral hb hs hds, skipHexMark_of_ne hb', peek_numeral hds, if_true,
    digits_append hds.all hr, afterDigits_append hds.all hr]

/-- The number a signed numeral denotes. -/
def signedVal (base : Nat) (sign ds : Text) : Int :=
  if sign = ['-'] then -(digitsVal base ds : Int) else (digitsVal base ds : Int)

/-- The spec of `strtol` on a signed numeral that fits. -/
theorem strtol_numeral {base : Nat} (hb : base ≤ 36) (hb' : base ≠ 16) {sign ds r : Text} (hs : IsSign sign)
    (hds : IsNumeral base ds) (hr : isDigit base (peek r) = false) (hlo : -2 ^ 63 ≤ signedVal base sign ds)
    (hhi : signedVal base sign ds < 2 ^ 63) :
    strtol base (sign ++ (ds ++ r)) = some ⟨signedVal base sign ds, r, false⟩ := by
  rw [strtol, readNumber_numeral hb hb' hs hds hr]
  simp only [signedVal] at hlo hhi ⊢
  by_cases h : sign = ['-']
  · rw [if_pos h] at hlo
    have hle : digitsVal base ds ≤ 2 ^ 63 := by omega
    simp only [h, decide_true, Option.map_some, if_pos hle, if_true]
  · rw [if_neg h] at hhi
    have hlt : digitsVal base ds < 2 ^ 63 := by omega
    simp only [h, decide_false, Option.map_some, if_pos hlt, if_false]

/-- The spec of `strtoul` on a hexadecimal number that fits. -/
theorem strtoul_hex {x : Char} {ds r : Text} (hx : x = 'x' ∨ x = 'X') (hds : IsNumeral 16 ds) (hr : isDigit 16 (peek r) = false)
    (hv : digitsVal 16 ds < 2 ^ 64) : strtoul 16 ('0' :: x :: (ds ++ r)) = some ⟨digitsVal 16 ds, r, false⟩ := by
  have hspace : skipSpace ('0' :: x :: (ds ++ r)) = '0' :: x :: (ds ++ r) := skipSpace_of_not (by rfl)
  have hsign : readSign ('0' :: x :: (ds ++ r)) = (false, '0' :: x :: (ds ++ r)) := by
    refine readSign_of_ne ?_ ?_ <;> simp
  have hmark : skipHexMark 16 ('0' :: x :: (ds ++ r)) = ds ++ r := by
    obtain ⟨c, ds', rfl⟩ := List.exists_cons_of_ne_nil hds.ne_nil
    have hc := hds.all c (by simp)
    simp [skipHexMark, hx, hc]
  rw [strtoul, readNumber, hspace, hsign]
  simp only [hmark, peek_numeral hds, if_true, digits_append hds.all hr, afterDigits_append hds.all hr, Option.map_some,
    if_pos hv, Bool.false_eq_true, if_false]

theorem skipSpace_append {sp : Text} (hsp : ∀ c ∈ sp, isSpace c = true) (s : Text) : skipSpace (sp ++ s) = skipSpace s :=
  List.dropWhile_append_of_pos hsp

/-- The spec of `strtoul` on a numeral behind white space: the whole numeral is read, and a value that does not fit is clamped. -/
theorem strtoul_spaced {base : Nat} (hb : base ≤ 36) (hb' : base ≠ 16) {sp ds r : Text} (hsp : ∀ c ∈ sp, isSpace c = true)
    (hds : IsNumeral base ds) (hr : isDigit base (peek r) = false) :
    strtoul base (sp ++ (ds ++ r)) = some ⟨min (digitsVal base ds) (2 ^ 64 - 1), r, decide (2 ^ 64 ≤ digitsVal base ds)⟩ := by
  have hpeek := peek_numeral hds r
  have hread : readNumber base (sp ++ (ds ++ r)) = readNumber base (ds ++ r) := by
    simp only [readNumber, skipSpace_append hsp]
  rw [strtoul, hread, readNumber_of_digit hb hb' hpeek, digits_append hds.all hr, afterDigits_append hds.all hr, Option.map_some]
  by_cases hv : digitsVal base ds < 2 ^ 64
  · simp only [hv, if_true, Bool.false_eq_true, if_false, Nat.not_le.mpr hv, decide_false]
    rw [Nat.min_eq_left (by omega)]
  · simp only [hv, if_false, Nat.not_lt.mp hv, decide_true]
    rw [Nat.min_eq_right (by omega)]

theorem not_isDigit_nul {base : Nat} (hb : base ≤ 36) : isDigit base '\x00' = false := by
  have h36 : digitOf '\x00' = 36 := by decide
  simp [isDigit, h36, hb]

theorem skipSpace_suffix (s : Text) : skipSpace s <:+ s := List.dropWhile_suffix _

theorem not_isDigit_peek_afterDigits {base : Nat} (hb : base ≤ 36) (s : Text) : isDigit base (peek (afterDigits base s)) = false := by
  induction s with
  | nil => exact not_isDigit_nul hb
  | cons c s ih =>
    rw [afterDigits, List.dropWhile_cons]
    split
    · exact ih
    · next hc => exact Bool.of_not_eq_true hc

/-- What `strtoul` has read of a text without signs. -/
theorem strtoul_unsigned {base : Nat} (hb : base ≤ 36) (hb' : base ≠ 16) {s : Text} {n : Scan Nat} (h : strtoul base s = some n)
    (hplus : '+' ∉ s) (hminus : '-' ∉ s) :
    ∃ sp ds, s = sp ++ (ds ++ n.rest) ∧ (∀ c ∈ sp, isSpace c = true) ∧ IsNumeral base ds ∧
      n.value = min (digitsVal base ds) (2 ^ 64 - 1) := by
  have hne {c : Char} (hc : c ∉ s) (hnul : c ≠ '\x00') : peek (skipSpace s) ≠ c := by
    intro hpeek
    apply hc
    refine (skipSpace_suffix s).subset ?_
    rw [eq_cons_of_peek hpeek hnul]
    exact List.mem_cons_self
  have hsign := readSign_of_ne (hne hminus (by decide)) (hne hplus (by decide))
  have hdigit : isDigit base (peek (skipSpace s)) = true := by
    by_contra hnot
    simp [strtoul, readNumber, hsign, skipHexMark_of_ne hb', hnot] at h
  have hbody : skipSpace s ≠ [] := by
    intro hnil
    rw [hnil, peek_nil, not_isDigit_nul hb] at hdigit
    cases hdigit
  -- the text is white space, the numeral and the rest, on which the result is known
  have hsplit : s = s.takeWhile isSpace ++ (digits base (skipSpace s) ++ afterDigits base (skipSpace s)) := by
    rw [digits_append_afterDigits]
    exact List.takeWhile_append_dropWhile.symm
  have hsp : ∀ c ∈ s.takeWhile isSpace, isSpace c = true := fun c hc => List.mem_takeWhile_imp hc
  have hds := isNumeral_digits hdigit hbody
  have hscan := strtoul_spaced hb hb' hsp hds (not_isDigit_peek_afterDigits hb (skipSpace s))
  rw [← hsplit, h] at hscan
  cases hscan
  exact ⟨_, _, hsplit, hsp, hds, rfl⟩

theorem afterDigits_suffix (base : Nat) (s : Text) : afterDigits base s <:+ s := List.dropWhile_suffix _

theorem readSign_suffix (s : Text) : (readSign s).2 <:+ s := by
  unfold readSign
  split
  · exact List.suffix_cons _ _
  · exact List.suffix_cons _ _
  · exact List.suffix_rfl

theorem skipHexMark_suffix (base : Nat) (s : Text) : skipHexMark base s <:+ s := by
  unfold skipHexMark
  split
  · split
    · exact (List.suffix_cons _ _).trans (List.suffix_cons _ _)
    · exact List.suffix_rfl
  · exact List.suffix_rfl

theorem afterDigits_advances {base : Nat} {s : Text} (h : digits base s ≠ []) : Advances s (afterDigits base s) := by
  cases s with
  | nil => exact absurd rfl h
  | cons c s =>
    have hc : isDigit base c = true := by
      by_contra hc
      simp [digits, hc] at h
    refine ⟨List.cons_ne_nil _ _, ?_⟩
    simp only [afterDigits, List.dropWhile_cons, hc, if_true, List.tail_cons]
    exact List.dropWhile_suffix _

/-- A number that is read takes at least one character. -/
theorem readNumber_advances {base : Nat} (hb : base ≤ 36) {s : Text} {neg : Bool} {m : Nat} {rest : Text}
    (h : readNumber base s = some (neg, m, rest)) : Advances s rest := by
  simp only [readNumber] at h
  split at h
  · next hd =>
    simp only [Option.some.injEq, Prod.mk.injEq] at h
    obtain ⟨-, -, rfl⟩ := h
    have hne : skipHexMark base (readSign (skipSpace s)).2 ≠ [] := by
      intro hnil
      rw [hnil, peek_nil, not_isDigit_nul hb] at hd
      exact Bool.noConfusion hd
    have hbody := afterDigits_advances (isNumeral_digits hd hne).ne_nil
    exact hbody.after_suffix (((skipHexMark_suffix _ _).trans (readSign_suffix _)).trans (skipSpace_suffix _))
  · exact absurd h (by simp)

/-- `strtoul` moves `*endptr` forward when it finds a number. -/
theorem strtoul_advances {base : Nat} (hb : base ≤ 36) {s : Text} {r : Scan Nat} (h : strtoul base s = some r) :
    Advances s r.rest := by
  simp only [strtoul, Option.map_eq_some_iff, Prod.exists] at h
  obtain ⟨neg, m, rest, hr, rfl⟩ := h
  have := readNumber_advances hb hr
  split <;> exact this

/-- `strtol` moves `*endptr` forward when it finds a number. -/
theorem strtol_advances {base : Nat} (hb : base ≤ 36) {s : Text} {r : Scan Int} (h : strtol base s = some r) :
    Advances s r.rest := by
  simp only [strtol, Option.map_eq_some_iff, Prod.exists] at h
  obtain ⟨neg, m, rest, hr, rfl⟩ := h
  have := readNumber_advances hb hr
  cases neg <;> dsimp only <;> split <;> exact this

end CText
