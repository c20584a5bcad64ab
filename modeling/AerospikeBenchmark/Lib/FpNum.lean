import AerospikeBenchmark.Lib.Float
import Mathlib.Data.Rat.Floor

/-!
# Floating-point numbers as the numbers they stand for

A float is the rational number its bits stand for, an infinity or a NaN. An operation is the exact one followed by rounding to the
format, as IEEE 754 has it; the sign of a zero is not kept, nothing here can tell it.
-/

namespace CText

/-- The number a bit pattern stands for. -/
inductive FpNum where
  | nan
  | inf (neg : Bool)
  | num (q : ℚ)
deriving DecidableEq, Repr

/-- The number the bits stand for: the sign bit, the exponent field and the significand field. -/
def Format.decode (F : Format) (bits : Nat) : FpNum :=
  let neg := decide (bits / 2 ^ (F.mant + F.exp) % 2 = 1)
  let e := bits / 2 ^ F.mant % 2 ^ F.exp
  let m := bits % 2 ^ F.mant
  if e = 2 ^ F.exp - 1 then (if m = 0 then .inf neg else .nan)
  else
    let sig := if e = 0 then m else m + 2 ^ F.mant
    let q : ℚ := sig * (2 : ℚ) ^ (F.minExp + (e - 1 : Nat))
    .num (if neg then -q else q)

/-- The number of the format nearest to a rational number. -/
def Format.ofRat (F : Format) (q : ℚ) : FpNum :=
  F.decode ((if q < 0 then 2 ^ (F.mant + F.exp) else 0) + F.encode q.num.natAbs q.den)

/-- Conversion to a format. -/
def Format.convert (F : Format) : FpNum → FpNum
  | .num q => F.ofRat q
  | x => x

namespace FpNum

/-- `x < y`; never with a NaN. -/
def lt : FpNum → FpNum → Bool
  | .nan, _ | _, .nan => false
  | .num a, .num b => a < b
  | .inf s, .inf t => s && !t
  | .inf s, .num _ => s
  | .num _, .inf t => !t

/-- `x == y`; never with a NaN. -/
def eq : FpNum → FpNum → Bool
  | .nan, _ => false
  | x, y => x = y

/-- `x >= y`; never with a NaN. -/
def ge (x y : FpNum) : Bool := lt y x || eq x y

end FpNum

/-- Addition in a format. -/
def Format.add (F : Format) : FpNum → FpNum → FpNum
  | .num a, .num b => F.ofRat (a + b)
  | .inf s, .inf t => if s = t then .inf s else .nan
  | .inf s, .num _ | .num _, .inf s => .inf s
  | _, _ => .nan

/-- Multiplication of a format by a positive number of the format. -/
def Format.scale (F : Format) (c : ℚ) : FpNum → FpNum
  | .num a => F.ofRat (c * a)
  | x => x

/-- Division in a format by a positive number of the format. -/
def Format.unscale (F : Format) (c : ℚ) : FpNum → FpNum
  | .num a => F.ofRat (a / c)
  | x => x

/-- Conversion to an unsigned integer of `w` bits: the fraction is cut off. No value when the result does not fit: the language
leaves the conversion undefined there. -/
def FpNum.toUnsigned (w : Nat) : FpNum → Option Nat
  | .num q => if -1 < q ∧ q < 2 ^ w then some q.floor.toNat else none
  | _ => none

theorem FpNum.toUnsigned_lt {w n : Nat} {x : FpNum} (h : x.toUnsigned w = some n) : n < 2 ^ w := by
  cases x with
  | nan => cases h
  | inf neg => cases h
  | num q =>
    simp only [toUnsigned, Option.ite_none_right_eq_some, Option.some.injEq] at h
    obtain ⟨hq, rfl⟩ := h
    have hlt : (q.floor : ℚ) < 2 ^ w := lt_of_le_of_lt (Int.floor_le q) hq.2
    have hfloor : q.floor < 2 ^ w := by exact_mod_cast hlt
    have hpos : (0 : Int) < 2 ^ w := by positivity
    have hcast : ((2 ^ w : Nat) : Int) = 2 ^ w := by push_cast; rfl
    omega

theorem FpNum.eq_of_eq {x y : FpNum} (h : x.eq y = true) : x = y := by
  cases x with
  | nan => cases h
  | inf neg => simpa [FpNum.eq] using h
  | num q => simpa [FpNum.eq] using h

end CText
