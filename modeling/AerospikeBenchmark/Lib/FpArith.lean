import AerospikeBenchmark.Lib.FpNum

/-!
# More operations on floating-point numbers
-/

namespace CText

namespace FpNum

/-- The number with the other sign. -/
def neg : FpNum → FpNum
  | .nan => .nan
  | .inf s => .inf (!s)
  | .num q => .num (-q)

/-- `ceil`. -/
def ceil : FpNum → FpNum
  | .num q => .num ⌈q⌉
  | x => x

/-- `nearbyint`: the nearest integer, ties to even. -/
def nearbyint : FpNum → FpNum
  | .num q => .num (if q < 0 then -divNearest q.num.natAbs q.den else divNearest q.num.natAbs q.den)
  | x => x

/-- Conversion to a signed integer of `w` bits: the fraction is cut off. No value when the result does not fit. -/
def toSigned (w : Nat) : FpNum → Option Int
  | .num q =>
    let n := if q < 0 then ⌈q⌉ else ⌊q⌋
    if -2 ^ (w - 1) ≤ n ∧ n < 2 ^ (w - 1) then some n else none
  | _ => none

end FpNum

/-- Subtraction in a format. -/
def Format.sub (F : Format) (x y : FpNum) : FpNum := F.add x y.neg

/-- Multiplication in a format. -/
def Format.mul (F : Format) : FpNum → FpNum → FpNum
  | .num a, .num b => F.ofRat (a * b)
  | .inf s, .inf t => .inf (s != t)
  | .inf s, .num b | .num b, .inf s => if b = 0 then .nan else .inf (s != decide (b < 0))
  | _, _ => .nan

end CText
