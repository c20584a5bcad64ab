import AerospikeBenchmark.Lib.FpNum

/-!
# What rounding to a format gives

The number that the bits of a rounded quotient stand for is its significand times the power of two of its last place. An integer that
is not above the exact number is not above the rounded one either, as long as the last place is not above one.
-/

namespace CText

/-! ## Quotients and powers of two -/

theorem two_zpow_eq (e : Int) : (2 : ℚ) ^ e = 2 ^ e.toNat / 2 ^ (-e).toNat := by
  rcases Int.le_total 0 e with he | he
  · obtain ⟨n, rfl⟩ := Int.eq_ofNat_of_zero_le he
    simp
  · obtain ⟨n, hn⟩ := Int.eq_ofNat_of_zero_le (Int.neg_nonneg_of_nonpos he)
    obtain rfl : e = -(n : Int) := by omega
    simp

/-- A natural number is at most a quotient scaled by a power of two exactly if it is at most its integer part. -/
theorem le_scaled_div_iff {a b : Nat} (hb : 0 < b) (e : Int) (c : Nat) :
    c ≤ a * 2 ^ (-e).toNat / (b * 2 ^ e.toNat) ↔ (c : ℚ) * 2 ^ e ≤ a / b := by
  have hb' : (0 : ℚ) < b := by exact_mod_cast hb
  have hden : 0 < b * 2 ^ e.toNat := Nat.mul_pos hb (Nat.two_pow_pos _)
  rw [Nat.le_div_iff_mul_le hden, two_zpow_eq, le_div_iff₀ hb', ← mul_div_assoc, div_mul_eq_mul_div,
    div_le_iff₀ (by positivity : (0 : ℚ) < 2 ^ (-e).toNat)]
  constructor
  · intro h
    have h' : ((c * (b * 2 ^ e.toNat) : Nat) : ℚ) ≤ (a * 2 ^ (-e).toNat : Nat) := by exact_mod_cast h
    push_cast at h'
    linarith
  · intro h
    have h' : ((c * (b * 2 ^ e.toNat) : Nat) : ℚ) ≤ (a * 2 ^ (-e).toNat : Nat) := by
      push_cast
      linarith
    exact_mod_cast h'

theorem div_le_divNearest (a b : Nat) : a / b ≤ divNearest a b ∧ divNearest a b ≤ a / b + 1 := by
  unfold divNearest
  split <;> omega

/-- The exponent of the leading bit of a quotient. -/
theorem quotLog_spec {a b : Nat} (ha : 0 < a) (hb : 0 < b) :
    (2 : ℚ) ^ quotLog a b ≤ a / b ∧ (a : ℚ) / b < 2 ^ (quotLog a b + 1) := by
  have hb' : (0 : ℚ) < b := by exact_mod_cast hb
  have hla : (2 : ℚ) ^ (a.log2 : Int) ≤ a := by exact_mod_cast Nat.log2_self_le ha.ne'
  have hua : (a : ℚ) < 2 ^ ((a.log2 : Int) + 1) := by exact_mod_cast Nat.lt_log2_self
  have hlb : (2 : ℚ) ^ (b.log2 : Int) ≤ b := by exact_mod_cast Nat.log2_self_le hb.ne'
  have hub : (b : ℚ) < 2 ^ ((b.log2 : Int) + 1) := by exact_mod_cast Nat.lt_log2_self
  have hlow : (2 : ℚ) ^ ((a.log2 : Int) - b.log2 - 1) ≤ a / b := by
    rw [le_div_iff₀ hb']
    calc (2 : ℚ) ^ ((a.log2 : Int) - b.log2 - 1) * b
        ≤ 2 ^ ((a.log2 : Int) - b.log2 - 1) * 2 ^ ((b.log2 : Int) + 1) := by gcongr
      _ = 2 ^ (a.log2 : Int) := by rw [← zpow_add₀ two_ne_zero]; congr 1; ring
      _ ≤ a := hla
  have hhigh : (a : ℚ) / b < 2 ^ ((a.log2 : Int) - b.log2 + 1) := by
    rw [div_lt_iff₀ hb']
    calc (a : ℚ) < 2 ^ ((a.log2 : Int) + 1) := hua
      _ = 2 ^ ((a.log2 : Int) - b.log2 + 1) * 2 ^ (b.log2 : Int) := by rw [← zpow_add₀ two_ne_zero]; congr 1; ring
      _ ≤ 2 ^ ((a.log2 : Int) - b.log2 + 1) * b := by gcongr
  have htest := le_scaled_div_iff (a := a) hb ((a.log2 : Int) - b.log2) 1
  have hden : 0 < b * 2 ^ ((a.log2 : Int) - b.log2).toNat := Nat.mul_pos hb (Nat.two_pow_pos _)
  rw [Nat.le_div_iff_mul_le hden, Nat.one_mul, Nat.cast_one, one_mul] at htest
  unfold quotLog
  dsimp only
  split
  · next hlt =>
    rw [sub_add_cancel]
    exact ⟨hlow, not_le.mp fun hle => (Nat.not_le.mpr hlt) (htest.mpr hle)⟩
  · next hge => exact ⟨htest.mp (Nat.not_lt.mp hge), hhigh⟩

/-! ## The significand -/

/-- The exponent of the last place that a quotient gets in a format. -/
def Format.lastPlace (F : Format) (a b : Nat) : Int := max (quotLog a b - F.mant) F.minExp

section

variable (F : Format) {a b : Nat} (ha : 0 < a) (hb : 0 < b)

include hb in
/-- What is not above the exact significand is not above the rounded one. -/
theorem Format.le_significand {c : Nat} (h : (c : ℚ) * 2 ^ F.lastPlace a b ≤ a / b) : c ≤ (F.quantize F.minExp a b).1 :=
  ((le_scaled_div_iff hb _ c).mpr h).trans (div_le_divNearest _ _).1

include ha hb

theorem Format.significand_le : (F.quantize F.minExp a b).1 ≤ 2 ^ (F.mant + 1) := by
  have hlt : (a : ℚ) / b < (2 ^ (F.mant + 1) : Nat) * 2 ^ F.lastPlace a b := by
    calc (a : ℚ) / b < 2 ^ (quotLog a b + 1) := (quotLog_spec ha hb).2
      _ ≤ 2 ^ ((F.mant + 1 : Nat) + F.lastPlace a b : Int) := by
        refine zpow_le_zpow_right₀ one_le_two ?_
        have := le_max_left (quotLog a b - F.mant) F.minExp
        unfold Format.lastPlace
        push_cast
        omega
      _ = _ := by rw [zpow_add₀ two_ne_zero, zpow_natCast]; push_cast; rfl
  have hfloor := (le_scaled_div_iff hb (F.lastPlace a b) (2 ^ (F.mant + 1))).not.mpr (not_le.mpr hlt)
  exact (div_le_divNearest _ _).2.trans (Nat.lt_of_not_le hfloor)

/-- Above the subnormal numbers the significand has all its bits. -/
theorem Format.le_significand_normal (h : F.minExp < F.lastPlace a b) : 2 ^ F.mant ≤ (F.quantize F.minExp a b).1 := by
  have hplace : F.lastPlace a b = quotLog a b - F.mant := by
    unfold Format.lastPlace at h ⊢
    omega
  refine F.le_significand hb ?_
  rw [hplace]
  push_cast
  rw [← zpow_natCast, ← zpow_add₀ two_ne_zero, show (F.mant : Int) + (quotLog a b - F.mant) = quotLog a b by ring]
  exact (quotLog_spec ha hb).1

end

/-! ## The bits -/

/-- The number that the bits of a significand stand for; one that has rounded up to a power of two is carried to the exponent. -/
theorem Format.decode_bits (F : Format) {k sig : Nat} (hsig : sig ≤ 2 ^ (F.mant + 1)) (hnormal : k = 0 ∨ 2 ^ F.mant ≤ sig)
    (hfin : k * 2 ^ F.mant + sig < F.infBits) : F.decode (k * 2 ^ F.mant + sig) = .num (sig * (2 : ℚ) ^ (F.minExp + k)) := by
  have hpow := Nat.two_pow_pos F.mant
  have hfield : (k * 2 ^ F.mant + sig) / 2 ^ F.mant < 2 ^ F.exp - 1 := (Nat.div_lt_iff_lt_mul hpow).mpr hfin
  have hsmall : (k * 2 ^ F.mant + sig) / 2 ^ F.mant < 2 ^ F.exp := Nat.lt_of_lt_of_le hfield (Nat.sub_le _ _)
  have hsign : (k * 2 ^ F.mant + sig) / 2 ^ (F.mant + F.exp) = 0 := by
    rw [Nat.pow_add, ← Nat.div_div_eq_div_mul]
    exact Nat.div_eq_of_lt hsmall
  have hexp : (k * 2 ^ F.mant + sig) / 2 ^ F.mant = k + sig / 2 ^ F.mant := by
    rw [Nat.add_comm, Nat.add_mul_div_right _ _ hpow, Nat.add_comm]
  have hmod : (k * 2 ^ F.mant + sig) % 2 ^ F.mant = sig % 2 ^ F.mant := by
    rw [Nat.add_comm, Nat.add_mul_mod_self_right]
  rw [Format.decode, hsign, Nat.mod_eq_of_lt hsmall, if_neg hfield.ne, hexp, hmod]
  simp only [Nat.zero_mod, Nat.zero_ne_one, decide_false, Bool.false_eq_true, if_false]
  congr 1
  rcases Nat.lt_trichotomy sig (2 ^ F.mant) with hlt | rfl | hgt
  · -- a subnormal number
    obtain rfl : k = 0 := by omega
    simp [Nat.div_eq_of_lt hlt, Nat.mod_eq_of_lt hlt]
  · simp [Nat.div_self hpow]
  · rcases Nat.lt_or_eq_of_le hsig with hlt | rfl
    · have hone : sig / 2 ^ F.mant = 1 := Nat.div_eq_of_lt_le (by omega) (by rw [Nat.pow_succ] at hlt; omega)
      have hrest : sig % 2 ^ F.mant + 2 ^ F.mant = sig := by
        have := Nat.div_add_mod sig (2 ^ F.mant)
        rw [hone, Nat.mul_one] at this
        omega
      rw [hone, if_neg (by omega), hrest, Nat.add_sub_cancel]
    · have htwo : 2 ^ (F.mant + 1) / 2 ^ F.mant = 2 := by rw [Nat.pow_succ, Nat.mul_div_cancel_left _ hpow]
      have hzero : 2 ^ (F.mant + 1) % 2 ^ F.mant = 0 := by rw [Nat.pow_succ, Nat.mul_mod_right]
      rw [htwo, hzero, if_neg (by omega), Nat.zero_add]
      push_cast
      rw [← Int.add_assoc, zpow_add₀ two_ne_zero (F.minExp + k), pow_succ, zpow_one]
      ring

theorem Format.decode_infBits (F : Format) (hexp : 1 ≤ F.exp) : F.decode F.infBits = .inf false := by
  have hpow := Nat.two_pow_pos F.mant
  have hone : 2 ≤ 2 ^ F.exp := Nat.le_self_pow (by omega) 2
  have hfield : F.infBits / 2 ^ F.mant = 2 ^ F.exp - 1 := by rw [Format.infBits, Nat.mul_div_cancel _ hpow]
  have hsign : F.infBits / 2 ^ (F.mant + F.exp) = 0 := by
    rw [Nat.pow_add, ← Nat.div_div_eq_div_mul, hfield]
    exact Nat.div_eq_of_lt (by omega)
  have hmod : F.infBits % 2 ^ F.mant = 0 := by rw [Format.infBits, Nat.mul_mod_left]
  rw [Format.decode, hsign, hfield, Nat.mod_eq_of_lt (by omega), if_pos rfl, hmod]
  rfl

/-- The number nearest to a quotient: infinity, or the rounded significand times the last place. -/
theorem Format.decode_encode (F : Format) (hexp : 1 ≤ F.exp) {a b : Nat} (ha : 0 < a) (hb : 0 < b) :
    F.decode (F.encode a b) = .inf false ∨
      F.decode (F.encode a b) = .num ((F.quantize F.minExp a b).1 * (2 : ℚ) ^ F.lastPlace a b) := by
  have hsig := F.significand_le ha hb
  have hplace : F.minExp ≤ F.lastPlace a b := le_max_right _ _
  obtain ⟨k, hk⟩ := Int.eq_ofNat_of_zero_le (Int.sub_nonneg_of_le hplace)
  have hbits : F.encode a b = min (k * 2 ^ F.mant + (F.quantize F.minExp a b).1) F.infBits := by
    rw [Format.encode, if_neg ha.ne']
    change min ((F.lastPlace a b - F.minExp).toNat * 2 ^ F.mant + _) _ = _
    rw [hk, Int.toNat_natCast]
  rcases Nat.lt_or_ge (k * 2 ^ F.mant + (F.quantize F.minExp a b).1) F.infBits with hfin | hinf
  · right
    have hnormal : k = 0 ∨ 2 ^ F.mant ≤ (F.quantize F.minExp a b).1 := by
      rcases Nat.eq_zero_or_pos k with hzero | hpos
      · exact .inl hzero
      · exact .inr (F.le_significand_normal ha hb (by omega))
    rw [hbits, Nat.min_eq_left hfin.le, F.decode_bits hsig hnormal hfin, show F.minExp + (k : Int) = F.lastPlace a b by omega]
  · left
    rw [hbits, Nat.min_eq_right hinf, F.decode_infBits hexp]

/-- Rounding does not go below an integer, where the last place is at most one. -/
theorem Format.natCast_le_ofRat (F : Format) (hexp : 1 ≤ F.exp) (hmin : F.minExp ≤ 0) {q : ℚ} (hpos : 0 < q)
    (hq : q < 2 ^ (F.mant + 1)) {n : Nat} (hn : (n : ℚ) ≤ q) :
    F.ofRat q = .inf false ∨ ∃ v : ℚ, F.ofRat q = .num v ∧ (n : ℚ) ≤ v := by
  have hnum : 0 < q.num.natAbs := Int.natAbs_pos.mpr (Rat.num_pos.mpr hpos).ne'
  have hquot : (q.num.natAbs : ℚ) / q.den = q := by
    rw [Nat.cast_natAbs, abs_of_pos (Rat.num_pos.mpr hpos), Rat.num_div_den]
  have hdecode := F.decode_encode hexp hnum q.den_pos
  have hbits : F.ofRat q = F.decode (F.encode q.num.natAbs q.den) := by
    rw [Format.ofRat, if_neg (not_lt.mpr hpos.le), Nat.zero_add]
  rw [hbits]
  refine hdecode.imp id fun hvalue => ⟨_, hvalue, ?_⟩
  -- the integer is a multiple of the last place
  have hplace : F.lastPlace q.num.natAbs q.den ≤ 0 := by
    have hlog : quotLog q.num.natAbs q.den < F.mant + 1 := by
      rw [← zpow_lt_zpow_iff_right₀ (a := (2 : ℚ)) one_lt_two]
      calc (2 : ℚ) ^ quotLog q.num.natAbs q.den ≤ q.num.natAbs / q.den := (quotLog_spec hnum q.den_pos).1
        _ = q := hquot
        _ < 2 ^ (F.mant + 1) := hq
        _ = 2 ^ ((F.mant : Int) + 1) := by norm_cast
    unfold Format.lastPlace
    omega
  have hmul : ((n * 2 ^ (-F.lastPlace q.num.natAbs q.den).toNat : Nat) : ℚ) * 2 ^ F.lastPlace q.num.natAbs q.den = n := by
    rw [two_zpow_eq, Int.toNat_of_nonpos hplace]
    push_cast
    field_simp
  have hle := F.le_significand q.den_pos (c := n * 2 ^ (-F.lastPlace q.num.natAbs q.den).toNat) (by rw [hmul, hquot]; exact hn)
  calc (n : ℚ) = ((n * 2 ^ (-F.lastPlace q.num.natAbs q.den).toNat : Nat) : ℚ) * 2 ^ F.lastPlace q.num.natAbs q.den := hmul.symm
    _ ≤ _ := by gcongr

end CText
