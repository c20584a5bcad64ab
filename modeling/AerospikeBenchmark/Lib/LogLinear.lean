import Mathlib.Data.Nat.Log
import Mathlib.Tactic.Ring

/-!
# Buckets of numbers that double in width

Numbers are put into classes of a fixed relative width: a bucket for each power of two, cut into `2 ^ m` classes of equal width, and
the first bucket with the small numbers before it, in classes of width `2 ^ u`. The classes are numbered through. The classes are
intervals, in the order of their numbers, and every number of a class but the first ones differs from it by one part in `2 ^ m`.
-/

namespace LogLinear

variable (m u : Nat)

/-- The bucket of a number. -/
def bucket (v : Nat) : Nat := v.log2 - (m + u)

/-- The class of a number. -/
def index (v : Nat) : Nat := bucket m u v * 2 ^ m + v / 2 ^ (bucket m u v + u)

/-- The bucket of a class. -/
def bucketOf (i : Nat) : Nat := i / 2 ^ m - 1

/-- The number of values in a class. -/
def width (i : Nat) : Nat := 2 ^ (bucketOf m i + u)

/-- The smallest number of a class. -/
def low (i : Nat) : Nat := (i - bucketOf m i * 2 ^ m) * width m u i

/-- The largest number of a class. -/
def high (i : Nat) : Nat := low m u i + width m u i - 1

variable {m u} {v w i j b : Nat}

/-! ## Buckets -/

theorem lt_bucket (v : Nat) : v < 2 ^ (m + u + 1 + bucket m u v) := by
  refine Nat.lt_of_lt_of_le Nat.lt_log2_self (Nat.pow_le_pow_right (by decide) ?_)
  unfold bucket
  omega

theorem bucket_le (h : bucket m u v ≠ 0) : 2 ^ (m + u + bucket m u v) ≤ v := by
  have hlog : m + u + bucket m u v = v.log2 := by
    unfold bucket at h ⊢
    omega
  rw [hlog]
  refine Nat.log2_self_le ?_
  rintro rfl
  simp [bucket] at h

theorem bucket_eq (hlt : v < 2 ^ (m + u + 1 + b)) (hle : b ≠ 0 → 2 ^ (m + u + b) ≤ v) : bucket m u v = b := by
  unfold bucket
  rcases Nat.eq_zero_or_pos v with rfl | hpos
  · rcases Nat.eq_zero_or_pos b with rfl | hb
    · simp
    · exact absurd (hle hb.ne') (Nat.not_le.mpr (Nat.two_pow_pos _))
  · have hlog : v.log2 < m + u + 1 + b := (Nat.log2_lt hpos.ne').mpr hlt
    rcases Nat.eq_zero_or_pos b with rfl | hb
    · omega
    · have hge := (Nat.le_log2 hpos.ne').mpr (hle hb.ne')
      omega

theorem sub_lt (v : Nat) : v / 2 ^ (bucket m u v + u) < 2 ^ (m + 1) := by
  rw [Nat.div_lt_iff_lt_mul (Nat.two_pow_pos _), ← Nat.pow_add]
  refine Nat.lt_of_lt_of_le (lt_bucket (m := m) (u := u) v) (Nat.le_of_eq ?_)
  congr 1
  ring

theorem le_sub (h : bucket m u v ≠ 0) : 2 ^ m ≤ v / 2 ^ (bucket m u v + u) := by
  rw [Nat.le_div_iff_mul_le (Nat.two_pow_pos _), ← Nat.pow_add]
  refine Nat.le_trans (Nat.le_of_eq ?_) (bucket_le h)
  congr 1
  ring

/-- The class shows the bucket. -/
theorem bucketOf_index (v : Nat) : bucketOf m (index m u v) = bucket m u v := by
  have hpos := Nat.two_pow_pos m
  have hlt := sub_lt (m := m) (u := u) v
  have hdiv : index m u v / 2 ^ m = bucket m u v + v / 2 ^ (bucket m u v + u) / 2 ^ m := by
    rw [index, Nat.mul_comm, Nat.mul_add_div hpos]
  rw [bucketOf, hdiv]
  rcases Nat.eq_zero_or_pos (bucket m u v) with hzero | hb
  · have hone : v / 2 ^ (bucket m u v + u) / 2 ^ m < 2 := by
      rw [Nat.div_lt_iff_lt_mul hpos]
      rw [Nat.pow_succ] at hlt
      omega
    omega
  · have hone : v / 2 ^ (bucket m u v + u) / 2 ^ m = 1 := by
      have hge := le_sub hb.ne'
      rw [Nat.pow_succ] at hlt
      exact Nat.div_eq_of_lt_le (by omega) (by omega)
    omega

/-! ## Classes -/

theorem width_pos (i : Nat) : 0 < width m u i := Nat.two_pow_pos _

theorem low_index (v : Nat) : low m u (index m u v) = v / 2 ^ (bucket m u v + u) * 2 ^ (bucket m u v + u) := by
  rw [low, width, bucketOf_index, index, Nat.add_sub_cancel_left]

theorem low_le (v : Nat) : low m u (index m u v) ≤ v := by
  rw [low_index]
  exact Nat.div_mul_le_self _ _

theorem le_high (v : Nat) : v ≤ high m u (index m u v) := by
  have hlt := Nat.lt_div_mul_add (a := v) (Nat.two_pow_pos (bucket m u v + u))
  rw [high, low_index, width, bucketOf_index]
  omega

/-- The part of the number of a class that counts within its bucket. -/
theorem place_spec (i : Nat) : i - bucketOf m i * 2 ^ m < 2 ^ (m + 1) ∧ (bucketOf m i ≠ 0 → 2 ^ m ≤ i - bucketOf m i * 2 ^ m) ∧
    bucketOf m i * 2 ^ m + (i - bucketOf m i * 2 ^ m) = i := by
  have hpos := Nat.two_pow_pos m
  have hsplit := Nat.div_add_mod i (2 ^ m)
  have hmod := Nat.mod_lt i hpos
  rw [Nat.pow_succ]
  unfold bucketOf
  rcases Nat.lt_or_ge (i / 2 ^ m) 2 with hlt | hge
  · have hzero : i / 2 ^ m - 1 = 0 := by omega
    have hsmall : i < 2 ^ m * 2 := by
      rw [Nat.div_lt_iff_lt_mul hpos] at hlt
      omega
    rw [hzero]
    exact ⟨by omega, fun h => absurd rfl h, by omega⟩
  · obtain ⟨k, hk⟩ := Nat.exists_eq_add_of_le hge
    have hmul : (i / 2 ^ m - 1) * 2 ^ m + 2 ^ m + i % 2 ^ m = i := by
      rw [hk] at hsplit ⊢
      have : (2 + k - 1) * 2 ^ m + 2 ^ m = 2 ^ m * (2 + k) := by
        rw [show 2 + k - 1 = k + 1 by omega]
        ring
      omega
    exact ⟨by omega, fun _ => by omega, by omega⟩

theorem index_of_place {s : Nat} (hs : s < 2 ^ (m + 1)) (hb : b ≠ 0 → 2 ^ m ≤ s) (hv : s * 2 ^ (b + u) ≤ v)
    (hv' : v < (s + 1) * 2 ^ (b + u)) : index m u v = b * 2 ^ m + s := by
  have hbucket : bucket m u v = b := by
    refine bucket_eq ?_ fun hne => ?_
    · calc v < (s + 1) * 2 ^ (b + u) := hv'
        _ ≤ 2 ^ (m + 1) * 2 ^ (b + u) := Nat.mul_le_mul_right _ hs
        _ = 2 ^ (m + u + 1 + b) := by rw [← Nat.pow_add]; congr 1; ring
    · calc 2 ^ (m + u + b) = 2 ^ m * 2 ^ (b + u) := by rw [← Nat.pow_add]; congr 1; ring
        _ ≤ s * 2 ^ (b + u) := Nat.mul_le_mul_right _ (hb hne)
        _ ≤ v := hv
  have hdiv : v / 2 ^ (b + u) = s := Nat.div_eq_of_lt_le hv hv'
  rw [index, hbucket, hdiv]

/-- Exactly the numbers from the smallest to the largest one are in a class. -/
theorem index_eq_iff (v i : Nat) : index m u v = i ↔ low m u i ≤ v ∧ v ≤ high m u i := by
  constructor
  · rintro rfl
    exact ⟨low_le v, le_high v⟩
  · rintro ⟨hlow, hhigh⟩
    obtain ⟨hlt, hge, hsum⟩ := place_spec (m := m) i
    have hpos := width_pos (m := m) (u := u) i
    rw [← hsum]
    refine index_of_place hlt hge hlow ?_
    rw [high, low] at hhigh
    have : (i - bucketOf m i * 2 ^ m + 1) * 2 ^ (bucketOf m i + u) =
        (i - bucketOf m i * 2 ^ m) * width m u i + width m u i := Nat.succ_mul _ _
    omega

theorem index_low (i : Nat) : index m u (low m u i) = i := by
  rw [index_eq_iff, high]
  have := width_pos (m := m) (u := u) i
  omega

theorem index_high (i : Nat) : index m u (high m u i) = i := by
  rw [index_eq_iff, high]
  have := width_pos (m := m) (u := u) i
  omega

theorem index_mono (h : v ≤ w) : index m u v ≤ index m u w := by
  have hlog : v.log2 ≤ w.log2 := by
    rw [Nat.log2_eq_log_two, Nat.log2_eq_log_two]
    exact Nat.log_mono_right h
  have hbucket : bucket m u v ≤ bucket m u w := Nat.sub_le_sub_right hlog _
  rcases Nat.lt_or_eq_of_le hbucket with hlt | heq
  · -- the classes of a later bucket come later
    have hsub := sub_lt (m := m) (u := u) v
    have hge := le_sub (m := m) (u := u) (v := w) (by omega)
    rw [Nat.pow_succ] at hsub
    have hmul : bucket m u v * 2 ^ m + 2 ^ m ≤ bucket m u w * 2 ^ m := by
      rw [← Nat.succ_mul]
      exact Nat.mul_le_mul_right _ hlt
    unfold index
    omega
  · unfold index
    rw [heq]
    exact Nat.add_le_add_left (Nat.div_le_div_right h) _

/-- The classes up to one hold exactly the numbers up to its largest. -/
theorem index_le_iff (v i : Nat) : index m u v ≤ i ↔ v ≤ high m u i := by
  constructor
  · intro h
    by_contra hgt
    have hmono := index_mono (m := m) (u := u) (Nat.le_of_not_le hgt)
    rw [index_high] at hmono
    exact hgt ((index_eq_iff v i).mp (Nat.le_antisymm h hmono)).2
  · intro h
    have hmono := index_mono (m := m) (u := u) h
    rw [index_high] at hmono
    exact hmono

theorem low_mono (h : i ≤ j) : low m u i ≤ low m u j := by
  by_contra hgt
  have hmono := index_mono (m := m) (u := u) (Nat.le_of_not_le hgt)
  rw [index_low, index_low] at hmono
  exact hgt (Nat.le_of_eq (by rw [Nat.le_antisymm h hmono]))

/-- Beyond the first bucket a class is narrow for the numbers it holds. -/
theorem width_mul_le (v : Nat) : width m u (index m u v) = 2 ^ u ∨ width m u (index m u v) * 2 ^ m ≤ v := by
  rw [width, bucketOf_index]
  rcases Nat.eq_zero_or_pos (bucket m u v) with hzero | hb
  · left
    rw [hzero, Nat.zero_add]
  · right
    refine Nat.le_trans (Nat.le_of_eq ?_) (bucket_le hb.ne')
    rw [← Nat.pow_add]
    congr 1
    ring

/-- The classes of the first buckets. -/
theorem index_lt (h : v < 2 ^ (m + u + b)) (hb : 0 < b) : index m u v < (b + 1) * 2 ^ m := by
  have hbucket : bucket m u v < b := by
    unfold bucket
    rcases Nat.eq_zero_or_pos v with rfl | hpos
    · simpa using hb
    · have := (Nat.log2_lt hpos.ne').mpr h
      omega
  have hsub := sub_lt (m := m) (u := u) v
  have hmul : bucket m u v * 2 ^ m + 2 ^ m ≤ b * 2 ^ m := by
    rw [← Nat.succ_mul]
    exact Nat.mul_le_mul_right _ hbucket
  rw [Nat.pow_succ] at hsub
  rw [Nat.succ_mul]
  unfold index
  omega

end LogLinear
