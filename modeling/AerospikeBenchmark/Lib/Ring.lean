import Mathlib.Data.Nat.ModEq
import Mathlib.Data.Int.ModEq

/-!
# Rings with wrapping counters

A ring of `2 ^ k` slots is addressed by 32-bit counters under a mask. Positions are counted without bound here; the counters are
their images. Within a window no longer than the ring every position has a slot of its own, however often the counters have wrapped.
-/

namespace Ring

/-- The slot of a position. -/
def slot (mask : UInt32) (n : Nat) : UInt32 := UInt32.ofNat n &&& mask

variable {k n m : Nat} {mask : UInt32}

theorem toNat_slot (hk : k ≤ 32) (hmask : mask.toNat = 2 ^ k - 1) (n : Nat) : (slot mask n).toNat = n % 2 ^ k := by
  have hdvd : 2 ^ k ∣ 2 ^ 32 := Nat.pow_dvd_pow 2 hk
  rw [slot, UInt32.toNat_and, hmask, Nat.and_two_pow_sub_one_eq_mod, UInt32.toNat_ofNat', Nat.mod_mod_of_dvd _ hdvd]

/-- Positions closer than a modulus are told apart by it. -/
theorem eq_of_mod_eq {d : Nat} (hnm : n < m + d) (hmn : m < n + d) (h : n % d = m % d) : n = m := by
  have hdvd : (d : Int) ∣ m - n := (Nat.modEq_iff_dvd).mp h
  have hzero := Int.eq_zero_of_abs_lt_dvd hdvd (by rw [abs_lt]; omega)
  omega

/-- Positions closer than the length of the ring have different slots. -/
theorem slot_inj (hk : k ≤ 32) (hmask : mask.toNat = 2 ^ k - 1) (hnm : n < m + 2 ^ k) (hmn : m < n + 2 ^ k)
    (h : slot mask n = slot mask m) : n = m := by
  have hnat := congrArg UInt32.toNat h
  rw [toNat_slot hk hmask, toNat_slot hk hmask] at hnat
  exact eq_of_mod_eq hnm hmn hnat

/-- Positions closer than the range of a counter have different counters. -/
theorem counter_inj (hnm : n < m + 2 ^ 32) (hmn : m < n + 2 ^ 32) (h : UInt32.ofNat n = UInt32.ofNat m) : n = m := by
  have hnat := congrArg UInt32.toNat h
  rw [UInt32.toNat_ofNat', UInt32.toNat_ofNat'] at hnat
  exact eq_of_mod_eq hnm hmn hnat

end Ring
