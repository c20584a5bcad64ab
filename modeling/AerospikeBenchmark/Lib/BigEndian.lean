import Mathlib.Tactic.Ring

/-!
# Numbers as bytes, the highest first
-/

namespace BigEndian

/-- The lowest `w` bytes of a number, the highest first. -/
def toBytes : (w n : Nat) → List UInt8
  | 0, _ => []
  | w + 1, n => UInt8.ofNat (n / 256 ^ w) :: toBytes w n

/-- The number of a list of bytes. -/
def ofBytes (bytes : List UInt8) : Nat := bytes.foldl (fun n b => 256 * n + b.toNat) 0

@[simp] theorem length_toBytes (w n : Nat) : (toBytes w n).length = w := by
  induction w with
  | zero => rfl
  | succ w ih => rw [toBytes, List.length_cons, ih]

theorem foldl_toBytes (w n a : Nat) : (toBytes w n).foldl (fun n b => 256 * n + b.toNat) a = a * 256 ^ w + n % 256 ^ w := by
  induction w generalizing a with
  | zero => simp [toBytes, Nat.mod_one]
  | succ w ih =>
    have hsplit := Nat.mod_mul (x := n) (a := 256 ^ w) (b := 256)
    rw [toBytes, List.foldl_cons, ih, UInt8.toNat_ofNat', pow_succ 256 w, hsplit]
    ring

/-- The bytes of a number that fits into them stand for it. -/
theorem ofBytes_toBytes {w n : Nat} (h : n < 256 ^ w) : ofBytes (toBytes w n) = n := by
  rw [ofBytes, foldl_toBytes, Nat.zero_mul, Nat.zero_add, Nat.mod_eq_of_lt h]

end BigEndian
