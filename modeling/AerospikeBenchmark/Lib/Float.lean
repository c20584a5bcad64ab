import AerospikeBenchmark.Lib.CText

/-!
# Binary floating point over exact numbers

A finite magnitude is a quotient of naturals; `Format.encode` rounds it to the nearest value of a binary format, ties to the even
significand, and returns the bit pattern of the result. `strtod` reads a decimal or hexadecimal number, an infinity or a NaN and
returns the bits of the nearest double.
-/

namespace CText

/-- The natural number nearest to `a / b`, ties to even. -/
def divNearest (a b : Nat) : Nat :=
  if 2 * (a % b) < b ∨ (2 * (a % b) = b ∧ a / b % 2 = 0) then a / b else a / b + 1

/-- `n` rounded to the nearest number of at most `p` significant bits, ties to even. -/
def roundSig (p n : Nat) : Nat :=
  divNearest n (2 ^ (n.log2 + 1 - p)) * 2 ^ (n.log2 + 1 - p)

/-- A binary interchange format: the stored bits of the significand and the bits of the exponent. -/
structure Format where
  mant : Nat
  exp : Nat

/-- `float`. -/
def binary32 : Format := ⟨23, 8⟩

/-- `double`. -/
def binary64 : Format := ⟨52, 11⟩

/-- The exponent of the last place of the subnormal numbers. -/
def Format.minExp (F : Format) : Int := 2 - 2 ^ (F.exp - 1) - F.mant

/-- The bit pattern of infinity. -/
def Format.infBits (F : Format) : Nat := (2 ^ F.exp - 1) * 2 ^ F.mant

/-- The exponent `l` with `2 ^ l ≤ a / b < 2 ^ (l + 1)`, for positive `a` and `b`. -/
def quotLog (a b : Nat) : Int :=
  let l : Int := a.log2 - b.log2
  if a * 2 ^ (-l).toNat < b * 2 ^ l.toNat then l - 1 else l

/-- The significand and the exponent of the last place that `a / b` gets when the last place is at least `lo`. -/
def Format.quantize (F : Format) (lo : Int) (a b : Nat) : Nat × Int :=
  let e := max (quotLog a b - F.mant) lo
  (divNearest (a * 2 ^ (-e).toNat) (b * 2 ^ e.toNat), e)

/-- The bits of the value of the format nearest to `a / b`, infinity when it is too large. A significand that rounds up to the
next power of two carries into the exponent field. -/
def Format.encode (F : Format) (a b : Nat) : Nat :=
  if a = 0 then 0
  else
    let q := F.quantize F.minExp a b
    min ((q.2 - F.minExp).toNat * 2 ^ F.mant + q.1) F.infBits

/-- Whether encoding `a / b` is a range error: too large, or inexact and, rounded without a bound on the exponent, below the
normal numbers. -/
def Format.rangeError (F : Format) (a b : Nat) : Bool :=
  if a = 0 then false
  else
    let q := F.quantize F.minExp a b
    let u := F.quantize (quotLog a b - F.mant) a b
    decide (F.encode a b = F.infBits) ||
      (decide (a * 2 ^ (-q.2).toNat ≠ q.1 * (b * 2 ^ q.2.toNat)) &&
        decide (u.2 < F.minExp ∧ u.1 < 2 ^ (F.mant + 1)))

/-! ## strtod -/

/-- A magnitude `strtod` can read. -/
inductive Magnitude where
  | finite (num den : Nat)
  | infinity
  | nan
deriving DecidableEq, Repr

/-- The digits before and after the point, and what follows them; a point counts only with a digit on one side. -/
def readFraction (base : Nat) (s : Text) : Option (Text × Text × Text) :=
  let whole := digits base s
  let r := afterDigits base s
  if peek r = '.' then
    if whole = [] ∧ digits base r.tail = [] then none
    else some (whole, digits base r.tail, afterDigits base r.tail)
  else if whole = [] then none
  else some (whole, [], r)

/-- The optional exponent part: a mark, an optional sign and at least one decimal digit. -/
def readExponent (lower upper : Char) (s : Text) : Int × Text :=
  if peek s = lower ∨ peek s = upper then
    let sign := readSign s.tail
    if isDigit 10 (peek sign.2) then
      let n : Int := digitsVal 10 (digits 10 sign.2)
      (if sign.1 then -n else n, afterDigits 10 sign.2)
    else (0, s)
  else (0, s)

/-- `n * base ^ k` as a quotient. -/
def scaled (n base : Nat) (k : Int) : Magnitude := .finite (n * base ^ k.toNat) (base ^ (-k).toNat)

/-- A decimal floating-point number. -/
def readDecimal (s : Text) : Option (Magnitude × Text) :=
  (readFraction 10 s).map fun (whole, frac, r) =>
    let e := readExponent 'e' 'E' r
    (scaled (digitsVal 10 (whole ++ frac)) 10 (e.1 - frac.length), e.2)

/-- A hexadecimal floating-point number, after its `0x`. -/
def readHex (s : Text) : Option (Magnitude × Text) :=
  (readFraction 16 s).map fun (whole, frac, r) =>
    let e := readExponent 'p' 'P' r
    (scaled (digitsVal 16 (whole ++ frac)) 2 (e.1 - 4 * frac.length), e.2)

/-- What follows a word given in lower case that a text starts with, in any case. -/
def dropWord : Text → Text → Option Text
  | [], s => some s
  | w :: ws, c :: s => if c.toLower = w then dropWord ws s else none
  | _ :: _, [] => none

/-- The text after the `(n-char-sequence)` that may follow a NaN. -/
def dropNanTag (s : Text) : Text :=
  match s with
  | '(' :: r =>
    match r.dropWhile (fun c => c.isAlphanum || c == '_') with
    | ')' :: r' => r'
    | _ => s
  | _ => s

/-- The magnitude a text starts with, after white space and sign. -/
def readMagnitude (s : Text) : Option (Magnitude × Text) :=
  match dropWord ['0', 'x'] s with
  | some body => (readHex body).orElse fun _ => readDecimal s
  | none =>
    match dropWord ['i', 'n', 'f'] s, dropWord ['n', 'a', 'n'] s with
    | some r, _ => some (.infinity, (dropWord ['i', 'n', 'i', 't', 'y'] r).getD r)
    | none, some r => some (.nan, dropNanTag r)
    | none, none => readDecimal s

/-- The bits of a magnitude as a double, and whether reading it is a range error. -/
def Magnitude.toDouble : Magnitude → Nat × Bool
  | .finite a b => (binary64.encode a b, binary64.rangeError a b)
  | .infinity => (binary64.infBits, false)
  | .nan => (binary64.infBits + 2 ^ 51, false)

/-- `strtod`: the bits of the double read, `none` for `*endptr == nptr`. -/
def strtod (s : Text) : Option (Scan Nat) :=
  let sign := readSign (skipSpace s)
  (readMagnitude sign.2).map fun (m, rest) =>
    ⟨(if sign.1 then 2 ^ 63 else 0) + m.toDouble.1, rest, m.toDouble.2⟩

/-! ### strtod moves forward -/

theorem dropWord_length : ∀ {w s r : Text}, dropWord w s = some r → r.length + w.length = s.length
  | [], s, r, h => by simp only [dropWord, Option.some.injEq] at h; simp [h]
  | w :: ws, [], r, h => by simp [dropWord] at h
  | w :: ws, c :: s, r, h => by
    simp only [dropWord] at h
    split at h
    · have := dropWord_length h
      simp only [List.length_cons]
      omega
    · simp at h

theorem dropWord_suffix : ∀ {w s r : Text}, dropWord w s = some r → r <:+ s
  | [], s, r, h => by
    obtain rfl : s = r := Option.some.inj h
    exact List.suffix_rfl
  | w :: ws, [], r, h => by simp [dropWord] at h
  | w :: ws, c :: s, r, h => by
    simp only [dropWord] at h
    split at h
    · exact (dropWord_suffix h).trans (List.suffix_cons _ _)
    · simp at h

theorem dropWord_advances {c : Char} {w s r : Text} (h : dropWord (c :: w) s = some r) : Advances s r := by
  cases s with
  | nil => simp [dropWord] at h
  | cons d s =>
    simp only [dropWord] at h
    split at h
    · exact ⟨List.cons_ne_nil _ _, dropWord_suffix h⟩
    · simp at h

theorem readFraction_advances {base : Nat} {s : Text} {p : Text × Text × Text} (h : readFraction base s = some p) :
    Advances s p.2.2 := by
  unfold readFraction at h
  simp only at h
  split at h
  · next hp =>
    split at h
    · simp at h
    · obtain rfl := Option.some.inj h
      exact (advances_of_peek hp (by decide) (afterDigits_suffix base _)).after_suffix (afterDigits_suffix base s)
  · split at h
    · simp at h
    · next hw =>
      obtain rfl := Option.some.inj h
      exact afterDigits_advances hw

theorem readExponent_suffix (lower upper : Char) (s : Text) : (readExponent lower upper s).2 <:+ s := by
  unfold readExponent
  simp only
  split
  · split
    · exact ((afterDigits_suffix _ _).trans (readSign_suffix _)).trans (List.tail_suffix s)
    · exact List.suffix_rfl
  · exact List.suffix_rfl

theorem readDecimal_advances {s : Text} {p : Magnitude × Text} (h : readDecimal s = some p) : Advances s p.2 := by
  simp only [readDecimal, Option.map_eq_some_iff] at h
  obtain ⟨q, hq, rfl⟩ := h
  exact (readFraction_advances hq).then_suffix (readExponent_suffix _ _ _)

theorem readHex_advances {s : Text} {p : Magnitude × Text} (h : readHex s = some p) : Advances s p.2 := by
  simp only [readHex, Option.map_eq_some_iff] at h
  obtain ⟨q, hq, rfl⟩ := h
  exact (readFraction_advances hq).then_suffix (readExponent_suffix _ _ _)

theorem dropNanTag_suffix (s : Text) : dropNanTag s <:+ s := by
  unfold dropNanTag
  split
  · next r =>
    have hdrop : r.dropWhile (fun c => c.isAlphanum || c == '_') <:+ '(' :: r :=
      (List.dropWhile_suffix _).trans (List.suffix_cons _ _)
    split
    · next r' hr' =>
      rw [hr'] at hdrop
      exact (List.suffix_cons _ _).trans hdrop
    · exact List.suffix_rfl
  · exact List.suffix_rfl

theorem readMagnitude_advances {s : Text} {p : Magnitude × Text} (h : readMagnitude s = some p) : Advances s p.2 := by
  unfold readMagnitude at h
  split at h
  · next body hb =>
    cases hx : readHex body with
    | none => exact readDecimal_advances (by simpa [hx] using h)
    | some q =>
      obtain rfl : q = p := by simpa [hx] using h
      exact (readHex_advances hx).after_suffix (dropWord_suffix hb)
  · split at h
    · next r hi =>
      obtain rfl := Option.some.inj h
      refine (dropWord_advances hi).then_suffix ?_
      cases hy : dropWord ['i', 'n', 'i', 't', 'y'] r with
      | none => exact List.suffix_rfl
      | some r' => exact dropWord_suffix hy
    · next r _ hn =>
      obtain rfl := Option.some.inj h
      exact (dropWord_advances hn).then_suffix (dropNanTag_suffix r)
    · exact readDecimal_advances h

/-- `strtod` moves `*endptr` forward when it finds a number. -/
theorem strtod_advances {s : Text} {r : Scan Nat} (h : strtod s = some r) : Advances s r.rest := by
  simp only [strtod, Option.map_eq_some_iff] at h
  obtain ⟨q, hq, rfl⟩ := h
  exact (readMagnitude_advances hq).after_suffix ((readSign_suffix _).trans (skipSpace_suffix s))

/-! ### Integers -/

/-- A run of digits without a point. -/
theorem readFraction_numeral {base : Nat} {ds r : Text} (hds : IsNumeral base ds) (hr : isDigit base (peek r) = false)
    (hp : peek r ≠ '.') : readFraction base (ds ++ r) = some (ds, [], r) := by
  simp only [readFraction, digits_append hds.all hr, afterDigits_append hds.all hr, if_neg hp, if_neg hds.ne_nil]

theorem readExponent_of_ne {lower upper : Char} {s : Text} (hl : peek s ≠ lower) (hu : peek s ≠ upper) :
    readExponent lower upper s = (0, s) := by
  simp [readExponent, hl, hu]

/-- A decimal digit has no other case. -/
theorem toLower_digit {c : Char} (hc : isDigit 10 c = true) : c.toLower = c := by
  have hnot : ¬ (c.toNat ≥ 65 ∧ c.toNat ≤ 90) := by
    intro ⟨h1, h2⟩
    have hc1 : ¬ ('0' ≤ c ∧ c ≤ '9') := by
      intro h
      have h9 : c.toNat ≤ 57 := h.2
      omega
    have hc2 : ¬ ('a' ≤ c ∧ c ≤ 'z') := by
      intro h
      have ha : 97 ≤ c.toNat := h.1
      omega
    have hc3 : 'A' ≤ c ∧ c ≤ 'Z' := ⟨h1, h2⟩
    simp only [isDigit, digitOf, if_neg hc1, if_neg hc2, if_pos hc3, decide_eq_true_eq] at hc
    omega
  unfold Char.toLower
  split
  · rename_i h
    exact absurd ⟨h.1, h.2⟩ hnot
  · rfl

/-- A decimal digit is not the first letter of a word. -/
theorem dropWord_digit {w : Char} {ws s : Text} (hw : isDigit 10 w = false) (hs : isDigit 10 (peek s) = true) :
    dropWord (w :: ws) s = none := by
  cases s with
  | nil => exact absurd hs (by decide)
  | cons c s =>
    simp only [peek_cons] at hs
    have hne : c.toLower ≠ w := by
      intro h
      rw [toLower_digit hs] at h
      rw [h, hw] at hs
      exact Bool.noConfusion hs
    simp [dropWord, hne]

/-- A character at which every number ends. -/
structure EndsNumber (c : Char) : Prop where
  digit : isDigit 16 c = false
  point : c ≠ '.'
  mark : c.toLower ≠ 'x'
  lower : c ≠ 'p'
  upper : c ≠ 'P'

theorem EndsNumber.decimal {c : Char} (h : EndsNumber c) : isDigit 10 c = false := by
  have := h.digit
  simp only [isDigit, decide_eq_false_iff_not] at this ⊢
  omega

theorem dropWord_hexMark_decimal {ds r : Text} (hds : IsNumeral 10 ds) (hr : EndsNumber (peek r)) :
    dropWord ['0', 'x'] (ds ++ r) = none := by
  obtain ⟨c, ds', rfl⟩ := List.exists_cons_of_ne_nil hds.ne_nil
  have hx : dropWord ['x'] (ds' ++ r) = none := by
    cases ds' with
    | nil =>
      cases r with
      | nil => rfl
      | cons d r =>
        have hmark : ¬ d.toLower = 'x' := hr.mark
        simp [dropWord, hmark]
    | cons d ds' => exact dropWord_digit (by rfl) (hds.all d (by simp))
  simp only [List.cons_append, dropWord]
  split
  · exact hx
  · rfl

/-- The spec of `strtod` on a decimal integer: the integer is read, whatever follows. -/
theorem strtod_decimal {sign ds r : Text} (hs : IsSign sign) (hds : IsNumeral 10 ds) (hr : EndsNumber (peek r)) :
    strtod (sign ++ (ds ++ r)) = some ⟨(if sign = ['-'] then 2 ^ 63 else 0) + (scaled (digitsVal 10 ds) 10 0).toDouble.1, r,
      (scaled (digitsVal 10 ds) 10 0).toDouble.2⟩ := by
  have hd := peek_numeral hds r
  have he : ∀ m : Char, isDigit 16 m = true → peek r ≠ m := by
    intro m hm h
    have hno := hr.digit
    rw [h, hm] at hno
    exact Bool.noConfusion hno
  have hdec : readDecimal (ds ++ r) = some (scaled (digitsVal 10 ds) 10 0, r) := by
    simp [readDecimal, readFraction_numeral hds hr.decimal hr.point, readExponent_of_ne (he 'e' (by rfl)) (he 'E' (by rfl))]
  have hmag : readMagnitude (ds ++ r) = some (scaled (digitsVal 10 ds) 10 0, r) := by
    simp only [readMagnitude, dropWord_hexMark_decimal hds hr, dropWord_digit (w := 'i') (by rfl) hd,
      dropWord_digit (w := 'n') (by rfl) hd, hdec]
  simp only [strtod, readSign_numeral (by omega) hs hds, hmag, Option.map_some, decide_eq_true_eq]

/-- The spec of `strtod` on a hexadecimal integer. -/
theorem strtod_hex {x : Char} {ds r : Text} (hx : x = 'x' ∨ x = 'X') (hds : IsNumeral 16 ds) (hr : EndsNumber (peek r)) :
    strtod ('0' :: x :: (ds ++ r)) =
      some ⟨0 + (scaled (digitsVal 16 ds) 2 0).toDouble.1, r, (scaled (digitsVal 16 ds) 2 0).toDouble.2⟩ := by
  have hspace : skipSpace ('0' :: x :: (ds ++ r)) = '0' :: x :: (ds ++ r) := skipSpace_of_not (by rfl)
  have hsign : readSign ('0' :: x :: (ds ++ r)) = (false, '0' :: x :: (ds ++ r)) := by
    refine readSign_of_ne ?_ ?_ <;> simp
  have hword : dropWord ['0', 'x'] ('0' :: x :: (ds ++ r)) = some (ds ++ r) := by
    rcases hx with rfl | rfl <;> simp [dropWord]
  have hhex : readHex (ds ++ r) = some (scaled (digitsVal 16 ds) 2 0, r) := by
    simp [readHex, readFraction_numeral hds hr.digit hr.point, readExponent_of_ne hr.lower hr.upper]
  have hmag : readMagnitude ('0' :: x :: (ds ++ r)) = some (scaled (digitsVal 16 ds) 2 0, r) := by
    simp [readMagnitude, hword, hhex]
  simp [strtod, hspace, hsign, hmag]

example : strtod "-1.5,".toList = some ⟨0xbff8000000000000, [','], false⟩ := by decide +kernel

end CText
