import AerospikeBenchmark.Lib.CText

/-!
# Printing into memory

`snprintf` stores as much of its output as fits and a NUL, and returns the length of the whole output. Memory is kept as a record
of what has been stored, by the distance from a pointer; a place that has not been stored to has no value.
-/

namespace Snprintf

open CText

/-- What has been stored. -/
abbrev Stored := Nat → Option Char

/-- Characters stored one after the other, from a place on. -/
def store (mem : Stored) (off : Nat) (s : Text) : Stored := fun k => if off ≤ k then s[k - off]?.or (mem k) else mem k

/-- What `snprintf` stores of an output when it is given `size` characters from `off` on. -/
def snprintf (mem : Stored) (off size : Nat) (s : Text) : Stored :=
  if size = 0 then mem else store mem off (s.take (size - 1) ++ ['\x00'])

/-- What `snprintf` returns, converted to `size_t`: the length of the output, or `-1` when it is more than `INT_MAX`. -/
def written (s : Text) : Nat := if s.length < 2 ^ 31 then s.length else 2 ^ 64 - 1

/-- `%d` and `%u`. -/
def decimal : Int → Text
  | .ofNat n => Nat.toDigits 10 n
  | .negSucc n => '-' :: Nat.toDigits 10 (n + 1)

/-- The signed number that 32 bits of a number stand for. -/
def asInt32 (n : Nat) : Int := if n % 2 ^ 32 < 2 ^ 31 then (n % 2 ^ 32 : Nat) else ((n % 2 ^ 32 : Nat) : Int) - 2 ^ 32

/-! ## What is stored -/

theorem store_of_lt {mem : Stored} {off k : Nat} {s : Text} (h : k < off) : store mem off s k = mem k := if_neg (by omega)

theorem store_of_le {mem : Stored} {off k : Nat} {s : Text} (h : off + s.length ≤ k) : store mem off s k = mem k := by
  rw [store, if_pos (by omega), List.getElem?_eq_none (by omega), Option.none_or]

theorem store_add {mem : Stored} {off : Nat} {s : Text} (i : Nat) (h : i < s.length) : store mem off s (off + i) = s[i]? := by
  rw [store, if_pos (by omega), Nat.add_sub_cancel_left, List.getElem?_eq_getElem h, Option.some_or]

/-! ## Decimal numbers -/

theorem decimal_natCast (n : Nat) : decimal n = Nat.toDigits 10 n := rfl

theorem decimal_neg {n : Nat} (h : 0 < n) : decimal (-(n : Int)) = '-' :: Nat.toDigits 10 n := by
  obtain ⟨m, rfl⟩ := Nat.exists_eq_succ_of_ne_zero (Nat.ne_of_gt h)
  rfl

theorem asInt32_of_lt {n : Nat} (h : n < 2 ^ 31) : asInt32 n = n := by
  rw [asInt32, Nat.mod_eq_of_lt (by omega), if_pos h]

theorem asInt32_of_le {n : Nat} (h : 2 ^ 31 ≤ n) (h' : n < 2 ^ 32) : asInt32 n = -((2 ^ 32 - n : Nat) : Int) := by
  rw [asInt32, Nat.mod_eq_of_lt h', if_neg (by omega)]
  omega

theorem digitOf_of_isDigit {c : Char} (h : c.isDigit = true) : digitOf c = c.toNat - '0'.toNat := by
  simp only [Char.isDigit, Bool.and_eq_true, decide_eq_true_eq] at h
  exact if_pos h

theorem isDigit_of_isDigit {c : Char} (h : c.isDigit = true) : isDigit 10 c = true := by
  have hdigit := digitOf_of_isDigit h
  simp only [Char.isDigit, Bool.and_eq_true, decide_eq_true_eq] at h
  have hle : c.toNat ≤ 57 := h.2
  have hzero : '0'.toNat = 48 := rfl
  simp only [isDigit, decide_eq_true_eq, hdigit]
  omega

theorem foldl_digitOf {ds : Text} (h : ∀ c ∈ ds, c.isDigit = true) (a : Nat) :
    ds.foldl (fun n c => n * 10 + digitOf c) a = Nat.ofDigitChars 10 ds a := by
  induction ds generalizing a with
  | nil => rfl
  | cons c ds ih =>
    rw [Nat.ofDigitChars, List.foldl_cons, List.foldl_cons, ih (fun d hd => h d (List.mem_cons_of_mem _ hd)),
      digitOf_of_isDigit (h c List.mem_cons_self), Nat.mul_comm]
    rfl

theorem isNumeral_toDigits (n : Nat) : IsNumeral 10 (Nat.toDigits 10 n) where
  ne_nil := Nat.toDigits_ne_nil
  all _ hc := isDigit_of_isDigit (Nat.isDigit_of_mem_toDigits (by decide) (by decide) hc)

theorem digitsVal_toDigits (n : Nat) : digitsVal 10 (Nat.toDigits 10 n) = n := by
  rw [digitsVal, foldl_digitOf fun _ hc => Nat.isDigit_of_mem_toDigits (by decide) (by decide) hc, Nat.ofDigitChars_ten_toDigits]

end Snprintf
