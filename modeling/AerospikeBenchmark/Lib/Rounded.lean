import AerospikeBenchmark.Lib.Rounding
import Mathlib.Algebra.Order.Round
import Mathlib.Tactic.Linarith

/-!
# The order and the error of rounding

Rounding to a format keeps the order, keeps the numbers of the format, and is off by at most half of the last place. So it does not
cross a number of the format, which is how rounded results are bounded here; and its relative error is half of a unit in the last
place, down to the subnormal numbers.
-/

namespace CText

/-! ## The nearest integer -/

theorem divNearest_sub_le {a b : Nat} (hb : 0 < b) : |(divNearest a b : ℚ) - a / b| ≤ 1 / 2 := by
  have hb' : (0 : ℚ) < b := by exact_mod_cast hb
  have hsplit : (a : ℚ) = b * (a / b : Nat) + (a % b : Nat) := by exact_mod_cast (Nat.div_add_mod a b).symm
  have hquot : (a : ℚ) / b = (a / b : Nat) + (a % b : Nat) / b := by
    rw [div_eq_iff hb'.ne', add_mul, div_mul_cancel₀ _ hb'.ne', mul_comm ((a / b : Nat) : ℚ)]
    exact hsplit
  have hrest : ((a % b : Nat) : ℚ) ≤ b := by exact_mod_cast (Nat.mod_lt a hb).le
  rw [hquot]
  unfold divNearest
  split
  · next hdown =>
    have hhalf : 2 * ((a % b : Nat) : ℚ) ≤ b := by
      rcases hdown with hlt | ⟨heq, -⟩
      · exact_mod_cast hlt.le
      · exact_mod_cast heq.le
    have hfrac : ((a % b : Nat) : ℚ) / b ≤ 1 / 2 := by
      rw [div_le_div_iff₀ hb' two_pos]
      linarith
    rw [sub_add_cancel_left, abs_neg, abs_of_nonneg (by positivity)]
    exact hfrac
  · next hup =>
    have hhalf : (b : ℚ) ≤ 2 * ((a % b : Nat) : ℚ) := by
      have : b ≤ 2 * (a % b) := by omega
      exact_mod_cast this
    have hfrac : 1 / 2 ≤ ((a % b : Nat) : ℚ) / b := by
      rw [div_le_div_iff₀ two_pos hb']
      linarith
    have hone : ((a % b : Nat) : ℚ) / b ≤ 1 := (div_le_one hb').mpr hrest
    rw [Nat.cast_add, Nat.cast_one, add_sub_add_left_eq_sub, abs_of_nonneg (by linarith)]
    linarith

theorem divNearest_mono {a b c d : Nat} (hb : 0 < b) (hd : 0 < d) (h : (a : ℚ) / b ≤ c / d) : divNearest a b ≤ divNearest c d := by
  have hb' : (0 : ℚ) < b := by exact_mod_cast hb
  have hd' : (0 : ℚ) < d := by exact_mod_cast hd
  have hcross : a * d ≤ c * b := by
    rw [div_le_div_iff₀ hb' hd'] at h
    exact_mod_cast h
  have hfloor : a / b ≤ c / d := by
    rw [Nat.le_div_iff_mul_le hd]
    refine Nat.le_of_mul_le_mul_right ?_ hb
    calc a / b * d * b = a / b * b * d := by ring
      _ ≤ a * d := Nat.mul_le_mul_right d (Nat.div_mul_le_self a b)
      _ ≤ c * b := hcross
  rcases Nat.lt_or_eq_of_le hfloor with hlt | heq
  · exact (div_le_divNearest a b).2.trans (Nat.succ_le_of_lt hlt |>.trans (div_le_divNearest c d).1)
  · -- the same integer part: the fractions decide
    have hfrac : (a % b) * d ≤ (c % d) * b := by
      have ha := Nat.div_add_mod a b
      have hc := Nat.div_add_mod c d
      rw [← ha, ← hc, heq] at hcross
      nlinarith [hcross]
    unfold divNearest
    rw [heq]
    split
    · split
      · exact le_rfl
      · exact Nat.le_succ _
    · next hup =>
      rw [if_neg]
      intro hdown
      apply hup
      rcases hdown with hlt | ⟨hhalf, heven⟩
      · left
        have : 2 * (a % b) * d < b * d := by
          calc 2 * (a % b) * d = 2 * ((a % b) * d) := by ring
            _ ≤ 2 * ((c % d) * b) := Nat.mul_le_mul_left 2 hfrac
            _ = 2 * (c % d) * b := by ring
            _ < d * b := (Nat.mul_lt_mul_right hb).mpr hlt
            _ = b * d := Nat.mul_comm d b
        exact Nat.lt_of_mul_lt_mul_right this
      · have : 2 * (a % b) * d ≤ b * d := by
          calc 2 * (a % b) * d = 2 * ((a % b) * d) := by ring
            _ ≤ 2 * ((c % d) * b) := Nat.mul_le_mul_left 2 hfrac
            _ = 2 * (c % d) * b := by ring
            _ = b * d := by rw [hhalf, Nat.mul_comm]
        rcases Nat.lt_or_eq_of_le (Nat.le_of_mul_le_mul_right this hd) with hlt | heq'
        · exact Or.inl hlt
        · exact Or.inr ⟨heq', heven⟩

/-! ## Rounding a quotient -/

/-- A quotient scaled to the last place. -/
theorem scaled_quotient (a b : Nat) (e : Int) :
    ((a * 2 ^ (-e).toNat : Nat) : ℚ) / (b * 2 ^ e.toNat : Nat) = a / b / 2 ^ e := by
  rw [two_zpow_eq]
  push_cast
  field_simp

section

variable (F : Format)

/-- A quotient rounded to a significand of the format, without an upper bound on the exponent. -/
def Format.roundQuot (a b : Nat) : ℚ := (F.quantize F.minExp a b).1 * 2 ^ F.lastPlace a b

theorem Format.roundQuot_eq (a b : Nat) :
    F.roundQuot a b = divNearest (a * 2 ^ (-F.lastPlace a b).toNat) (b * 2 ^ (F.lastPlace a b).toNat) * 2 ^ F.lastPlace a b := rfl

variable {F} {a b c d : Nat}

theorem Format.roundQuot_zero (b : Nat) : F.roundQuot 0 b = 0 := by
  rw [Format.roundQuot_eq, Nat.zero_mul]
  simp [divNearest]

theorem Format.roundQuot_nonneg (a b : Nat) : 0 ≤ F.roundQuot a b := by
  rw [Format.roundQuot_eq]
  positivity

theorem Format.abs_roundQuot_sub_le (hb : 0 < b) : |F.roundQuot a b - a / b| ≤ 2 ^ F.lastPlace a b / 2 := by
  have hden : 0 < b * 2 ^ (F.lastPlace a b).toNat := Nat.mul_pos hb (Nat.two_pow_pos _)
  have hnear := divNearest_sub_le (a := a * 2 ^ (-F.lastPlace a b).toNat) hden
  have hpos : (0 : ℚ) < 2 ^ F.lastPlace a b := by positivity
  rw [scaled_quotient] at hnear
  rw [Format.roundQuot_eq]
  calc |(divNearest _ _ : ℚ) * 2 ^ F.lastPlace a b - a / b|
      = |((divNearest (a * 2 ^ (-F.lastPlace a b).toNat) (b * 2 ^ (F.lastPlace a b).toNat) : ℚ) - a / b / 2 ^ F.lastPlace a b) *
          2 ^ F.lastPlace a b| := by rw [sub_mul, div_mul_cancel₀ _ hpos.ne']
    _ = |(divNearest (a * 2 ^ (-F.lastPlace a b).toNat) (b * 2 ^ (F.lastPlace a b).toNat) : ℚ) - a / b / 2 ^ F.lastPlace a b| *
          2 ^ F.lastPlace a b := by rw [abs_mul, abs_of_pos hpos]
    _ ≤ 1 / 2 * 2 ^ F.lastPlace a b := by gcongr
    _ = 2 ^ F.lastPlace a b / 2 := by ring

theorem Format.lastPlace_mono (ha : 0 < a) (hb : 0 < b) (hc : 0 < c) (hd : 0 < d) (h : (a : ℚ) / b ≤ c / d) :
    quotLog a b ≤ quotLog c d := by
  have hlt : (2 : ℚ) ^ quotLog a b < 2 ^ (quotLog c d + 1) :=
    (quotLog_spec ha hb).1.trans_lt (h.trans_lt (quotLog_spec hc hd).2)
  rw [zpow_lt_zpow_iff_right₀ one_lt_two] at hlt
  omega

theorem Format.roundQuot_mono (hb : 0 < b) (hd : 0 < d) (h : (a : ℚ) / b ≤ c / d) : F.roundQuot a b ≤ F.roundQuot c d := by
  rcases Nat.eq_zero_or_pos a with rfl | ha
  · rw [Format.roundQuot_zero]
    exact Format.roundQuot_nonneg c d
  have hc : 0 < c := by
    rcases Nat.eq_zero_or_pos c with rfl | hc
    · have : (0 : ℚ) < a / b := by positivity
      rw [Nat.cast_zero, zero_div] at h
      linarith
    · exact hc
  have hlog := Format.lastPlace_mono ha hb hc hd h
  have hplace : F.lastPlace a b ≤ F.lastPlace c d := by
    unfold Format.lastPlace
    omega
  rcases hplace.lt_or_eq with hlt | heq
  · -- the larger quotient has a significand with all bits, and these weigh more
    have hnormal := F.le_significand_normal hc hd (lt_of_le_of_lt (le_max_right _ _) hlt)
    calc F.roundQuot a b ≤ (2 ^ (F.mant + 1) : Nat) * 2 ^ F.lastPlace a b := by
          rw [Format.roundQuot]
          gcongr
          exact F.significand_le ha hb
      _ = 2 ^ F.mant * (2 ^ (F.lastPlace a b + 1) : ℚ) := by
          rw [zpow_add₀ two_ne_zero, zpow_one]
          push_cast
          ring
      _ ≤ 2 ^ F.mant * 2 ^ F.lastPlace c d := by
          gcongr
          · exact one_le_two
          · omega
      _ ≤ (F.quantize F.minExp c d).1 * 2 ^ F.lastPlace c d := by
          gcongr
          exact_mod_cast hnormal
  · rw [Format.roundQuot_eq, Format.roundQuot_eq, heq]
    gcongr
    refine divNearest_mono (Nat.mul_pos hb (Nat.two_pow_pos _)) (Nat.mul_pos hd (Nat.two_pow_pos _)) ?_
    rw [scaled_quotient, scaled_quotient]
    gcongr

/-- A multiple of the last place is not changed. -/
theorem Format.roundQuot_of_mul (hb : 0 < b) {n : Nat} (h : (a : ℚ) / b = n * 2 ^ F.lastPlace a b) : F.roundQuot a b = a / b := by
  have hden : 0 < b * 2 ^ (F.lastPlace a b).toNat := Nat.mul_pos hb (Nat.two_pow_pos _)
  have hone : ((n : Nat) : ℚ) / (1 : Nat) = n := by rw [Nat.cast_one, div_one]
  have hscaled : ((a * 2 ^ (-F.lastPlace a b).toNat : Nat) : ℚ) / (b * 2 ^ (F.lastPlace a b).toNat : Nat) = (n : ℚ) / (1 : Nat) := by
    rw [scaled_quotient, h, hone, mul_div_cancel_right₀ _ (by positivity)]
  have hn : divNearest n 1 = n := by simp [divNearest, Nat.mod_one]
  have heq : divNearest (a * 2 ^ (-F.lastPlace a b).toNat) (b * 2 ^ (F.lastPlace a b).toNat) = divNearest n 1 :=
    le_antisymm (divNearest_mono hden one_pos hscaled.le) (divNearest_mono one_pos hden hscaled.ge)
  rw [Format.roundQuot_eq, heq, hn, h]

end

/-! ## Rounding a rational number -/

section

variable (F : Format)

/-- A rational number rounded to a significand of the format, without an upper bound on the exponent. -/
def Format.rounded (q : ℚ) : ℚ :=
  if q < 0 then -F.roundQuot q.num.natAbs q.den else F.roundQuot q.num.natAbs q.den

/-- The numbers with a significand of the format and an exponent that is not too small. -/
def Format.Representable (x : ℚ) : Prop := ∃ (n : Nat) (e : Int), n ≤ 2 ^ (F.mant + 1) ∧ F.minExp ≤ e ∧ |x| = n * 2 ^ e

/-- The exponent of the power of two from which on numbers may become infinite. -/
def Format.maxExp : Int := 2 ^ (F.exp - 1) - 1

variable {F} {q r x : ℚ}

theorem natAbs_div_den (q : ℚ) : (q.num.natAbs : ℚ) / q.den = |q| := by
  rw [Nat.cast_natAbs, Int.cast_abs, ← Nat.abs_cast q.den, ← abs_div, Rat.num_div_den]

theorem Format.rounded_of_nonneg (hq : 0 ≤ q) : F.rounded q = F.roundQuot q.num.natAbs q.den := if_neg (not_lt.mpr hq)

@[simp] theorem Format.rounded_zero : F.rounded 0 = 0 := by
  rw [Format.rounded_of_nonneg le_rfl]
  exact Format.roundQuot_zero _

theorem Format.rounded_neg (q : ℚ) : F.rounded (-q) = -F.rounded q := by
  rcases lt_trichotomy q 0 with hq | rfl | hq
  · simp only [Format.rounded, hq, if_true, Rat.neg_num, Int.natAbs_neg, Rat.neg_den, Left.neg_neg_iff, not_lt.mpr hq.le, if_false,
      neg_neg]
  · rw [neg_zero, Format.rounded_zero, neg_zero]
  · simp only [Format.rounded, not_lt.mpr hq.le, if_false, Rat.neg_num, Int.natAbs_neg, Rat.neg_den, Left.neg_neg_iff, hq, if_true]

theorem Format.rounded_nonneg (hq : 0 ≤ q) : 0 ≤ F.rounded q := by
  rw [Format.rounded_of_nonneg hq]
  exact Format.roundQuot_nonneg _ _

theorem Format.rounded_mono_of_nonneg (hq : 0 ≤ q) (h : q ≤ r) : F.rounded q ≤ F.rounded r := by
  rw [Format.rounded_of_nonneg hq, Format.rounded_of_nonneg (hq.trans h)]
  refine Format.roundQuot_mono q.den_pos r.den_pos ?_
  rw [natAbs_div_den, natAbs_div_den, abs_of_nonneg hq, abs_of_nonneg (hq.trans h)]
  exact h

/-- Rounding keeps the order. -/
theorem Format.rounded_mono (h : q ≤ r) : F.rounded q ≤ F.rounded r := by
  rcases le_or_gt 0 q with hq | hq
  · exact Format.rounded_mono_of_nonneg hq h
  · rcases le_or_gt 0 r with hr | hr
    · have hneg : 0 ≤ F.rounded (-q) := Format.rounded_nonneg (by linarith)
      rw [Format.rounded_neg] at hneg
      linarith [Format.rounded_nonneg (F := F) hr]
    · have hle := Format.rounded_mono_of_nonneg (F := F) (q := -r) (r := -q) (by linarith) (by linarith)
      rw [Format.rounded_neg, Format.rounded_neg] at hle
      linarith

/-- The numbers of the format are not changed. -/
theorem Format.rounded_eq_self (h : F.Representable x) : F.rounded x = x := by
  obtain ⟨n, e, hn, he, hx⟩ := h
  have hpos : F.roundQuot x.num.natAbs x.den = |x| := by
    rcases eq_or_ne x 0 with rfl | hne
    · rw [abs_zero]
      exact Format.roundQuot_zero _
    have hnum : 0 < x.num.natAbs := Int.natAbs_pos.mpr (Rat.num_ne_zero.mpr hne)
    obtain ⟨hlow, hhigh⟩ := quotLog_spec hnum x.den_pos
    rw [natAbs_div_den, hx] at hlow hhigh
    have hmul : ∃ k : Nat, |x| = k * 2 ^ F.lastPlace x.num.natAbs x.den := by
      rcases Nat.lt_or_eq_of_le hn with hlt | rfl
      · -- the last place of the number is not above the given one
        have hlog : quotLog x.num.natAbs x.den < F.mant + 1 + e := by
          rw [← zpow_lt_zpow_iff_right₀ (a := (2 : ℚ)) one_lt_two]
          refine hlow.trans_lt ?_
          rw [zpow_add₀ two_ne_zero]
          gcongr
          exact_mod_cast hlt
        have hplace : F.lastPlace x.num.natAbs x.den ≤ e := by
          unfold Format.lastPlace
          omega
        obtain ⟨k, hk⟩ := Int.eq_ofNat_of_zero_le (Int.sub_nonneg_of_le hplace)
        refine ⟨n * 2 ^ k, ?_⟩
        rw [hx, show e = k + F.lastPlace x.num.natAbs x.den by omega, zpow_add₀ two_ne_zero, zpow_natCast]
        push_cast
        ring
      · -- a power of two, one place higher
        have hlog : quotLog x.num.natAbs x.den = F.mant + 1 + e := by
          have h1 : quotLog x.num.natAbs x.den ≤ F.mant + 1 + e := by
            rw [← zpow_le_zpow_iff_right₀ (a := (2 : ℚ)) one_lt_two]
            refine hlow.trans (le_of_eq ?_)
            rw [zpow_add₀ two_ne_zero]
            norm_cast
          have h2 : (F.mant : Int) + 1 + e < quotLog x.num.natAbs x.den + 1 := by
            rw [← zpow_lt_zpow_iff_right₀ (a := (2 : ℚ)) one_lt_two]
            refine lt_of_eq_of_lt ?_ hhigh
            rw [zpow_add₀ two_ne_zero]
            norm_cast
          omega
        have hplace : F.lastPlace x.num.natAbs x.den = e + 1 := by
          unfold Format.lastPlace
          omega
        refine ⟨2 ^ F.mant, ?_⟩
        rw [hx, hplace, zpow_add₀ two_ne_zero, zpow_one]
        push_cast
        ring
    obtain ⟨k, hk⟩ := hmul
    rw [Format.roundQuot_of_mul x.den_pos (n := k) (by rw [natAbs_div_den]; exact hk), natAbs_div_den]
  unfold Format.rounded
  rw [hpos]
  split
  · next hneg => rw [abs_of_neg hneg, neg_neg]
  · next hge => exact abs_of_nonneg (not_lt.mp hge)

/-- Rounding does not go below a number of the format. -/
theorem Format.le_rounded (hx : F.Representable x) (h : x ≤ q) : x ≤ F.rounded q :=
  (Format.rounded_eq_self hx).ge.trans (Format.rounded_mono h)

/-- Rounding does not go above a number of the format. -/
theorem Format.rounded_le (hx : F.Representable x) (h : q ≤ x) : F.rounded q ≤ x :=
  (Format.rounded_mono h).trans (Format.rounded_eq_self hx).le

/-- The error is at most half of a unit in the last place of the significand, or of the smallest place there is. -/
theorem Format.abs_rounded_sub_le (q : ℚ) : |F.rounded q - q| ≤ |q| / 2 ^ (F.mant + 1) + 2 ^ F.minExp / 2 := by
  have hquot : |F.roundQuot q.num.natAbs q.den - abs q| ≤ |q| / 2 ^ (F.mant + 1) + 2 ^ F.minExp / 2 := by
    rcases eq_or_ne q 0 with rfl | hne
    · rw [abs_zero, sub_zero, zero_div, zero_add, Rat.num_zero, Int.natAbs_zero, Format.roundQuot_zero, abs_zero]
      positivity
    have hnum : 0 < q.num.natAbs := Int.natAbs_pos.mpr (Rat.num_ne_zero.mpr hne)
    have herr := Format.abs_roundQuot_sub_le (F := F) (a := q.num.natAbs) q.den_pos
    have hlow := (quotLog_spec hnum q.den_pos).1
    rw [natAbs_div_den] at herr hlow
    refine herr.trans ?_
    rcases max_choice (quotLog q.num.natAbs q.den - F.mant) F.minExp with hmax | hmax
    · rw [Format.lastPlace, hmax, zpow_sub₀ two_ne_zero, zpow_natCast, pow_succ, div_div]
      have hsmall : (0 : ℚ) ≤ 2 ^ F.minExp / 2 := by positivity
      have hle : (2 : ℚ) ^ quotLog q.num.natAbs q.den / (2 ^ F.mant * 2) ≤ |q| / (2 ^ F.mant * 2) := by gcongr
      linarith
    · rw [Format.lastPlace, hmax]
      have hsmall : (0 : ℚ) ≤ |q| / 2 ^ (F.mant + 1) := by positivity
      linarith
  unfold Format.rounded
  split
  · next hneg =>
    rw [abs_of_neg hneg] at hquot ⊢
    rw [← abs_neg]
    convert hquot using 2
    ring
  · next hge =>
    rw [abs_of_nonneg (not_lt.mp hge)] at hquot
    rw [abs_of_nonneg (not_lt.mp hge)]
    exact hquot

/-! ## The bits of a rounded number -/

theorem Format.decode_ne_inf {bits : Nat} (h : bits < F.infBits) (neg : Bool) : F.decode bits ≠ .inf neg := by
  have hfield : bits / 2 ^ F.mant < 2 ^ F.exp - 1 := (Nat.div_lt_iff_lt_mul (Nat.two_pow_pos _)).mpr h
  have hsmall : bits / 2 ^ F.mant < 2 ^ F.exp := lt_of_lt_of_le hfield (Nat.sub_le _ _)
  rw [Format.decode, Nat.mod_eq_of_lt hsmall, if_neg hfield.ne]
  simp

theorem Format.encode_lt_infBits (hexp : 2 ≤ F.exp) {a b : Nat} (ha : 0 < a) (hb : 0 < b) (h : quotLog a b < F.maxExp) :
    F.encode a b < F.infBits := by
  have hsig := F.significand_le ha hb
  have hpow : 2 ^ F.exp = 2 * 2 ^ (F.exp - 1) := by
    rw [← Nat.pow_succ']
    congr 1
    omega
  have htwo : 2 ≤ 2 ^ (F.exp - 1) := Nat.le_self_pow (by omega) 2
  have hcast : ((2 ^ (F.exp - 1) : Nat) : Int) = 2 ^ (F.exp - 1) := by push_cast; rfl
  have hplace : (F.lastPlace a b - F.minExp).toNat + 2 < 2 ^ F.exp - 1 := by
    unfold Format.maxExp at h
    unfold Format.lastPlace Format.minExp
    omega
  have hbits : (F.lastPlace a b - F.minExp).toNat * 2 ^ F.mant + (F.quantize F.minExp a b).1 < F.infBits := by
    rw [Format.infBits]
    calc (F.lastPlace a b - F.minExp).toNat * 2 ^ F.mant + (F.quantize F.minExp a b).1
        ≤ (F.lastPlace a b - F.minExp).toNat * 2 ^ F.mant + 2 * 2 ^ F.mant := by
          rw [Nat.pow_succ] at hsig
          omega
      _ = ((F.lastPlace a b - F.minExp).toNat + 2) * 2 ^ F.mant := by rw [Nat.add_mul]
      _ < (2 ^ F.exp - 1) * 2 ^ F.mant := (Nat.mul_lt_mul_right (Nat.two_pow_pos _)).mpr hplace
  rw [Format.encode, if_neg ha.ne']
  exact lt_of_le_of_lt (Nat.min_le_left _ _) hbits

theorem Format.decode_sign {bits : Nat} (hbits : bits < F.infBits) {v : ℚ} (h : F.decode bits = .num v) :
    F.decode (2 ^ (F.mant + F.exp) + bits) = .num (-v) := by
  have hmant := Nat.two_pow_pos F.mant
  have hfield : bits / 2 ^ F.mant < 2 ^ F.exp - 1 := (Nat.div_lt_iff_lt_mul hmant).mpr hbits
  have hsmall : bits / 2 ^ F.mant < 2 ^ F.exp := lt_of_lt_of_le hfield (Nat.sub_le _ _)
  have hlt : bits < 2 ^ (F.mant + F.exp) := by
    rw [Nat.pow_add, Nat.mul_comm]
    exact (Nat.div_lt_iff_lt_mul hmant).mp hsmall
  have hsign : (2 ^ (F.mant + F.exp) + bits) / 2 ^ (F.mant + F.exp) = 1 := by
    rw [Nat.add_div_left _ (Nat.two_pow_pos _), Nat.div_eq_of_lt hlt]
  have hexp : (2 ^ (F.mant + F.exp) + bits) / 2 ^ F.mant = 2 ^ F.exp + bits / 2 ^ F.mant := by
    rw [Nat.pow_add, Nat.mul_add_div hmant]
  have hrest : (2 ^ (F.mant + F.exp) + bits) % 2 ^ F.mant = bits % 2 ^ F.mant := by
    rw [Nat.pow_add, Nat.mul_add_mod]
  rw [Format.decode, Nat.div_eq_of_lt hlt, Nat.mod_eq_of_lt hsmall, if_neg hfield.ne] at h
  rw [Format.decode, hsign, hexp, hrest, Nat.add_mod_left, Nat.mod_eq_of_lt hsmall, if_neg hfield.ne]
  simp only [Nat.zero_mod, Nat.zero_ne_one, decide_false, Bool.false_eq_true, if_false, FpNum.num.injEq] at h
  simp only [Nat.one_mod, decide_true, if_true, h]

/-- Below the largest numbers of the format, what a number is converted to is the number rounded. -/
theorem Format.ofRat_eq_rounded (hexp : 2 ≤ F.exp) (h : |q| < 2 ^ F.maxExp) : F.ofRat q = .num (F.rounded q) := by
  rcases eq_or_ne q 0 with rfl | hne
  · have hzero : F.decode 0 = .num 0 := by
      have hfield : 0 ≠ 2 ^ F.exp - 1 := by
        have : 2 ≤ 2 ^ F.exp := Nat.le_self_pow (by omega) 2
        omega
      simp [Format.decode, hfield]
    rw [Format.rounded_zero, Format.ofRat, if_neg (lt_irrefl 0), Nat.zero_add]
    exact hzero
  have hnum : 0 < q.num.natAbs := Int.natAbs_pos.mpr (Rat.num_ne_zero.mpr hne)
  have hlog : quotLog q.num.natAbs q.den < F.maxExp := by
    rw [← zpow_lt_zpow_iff_right₀ (a := (2 : ℚ)) one_lt_two]
    refine lt_of_le_of_lt ?_ h
    rw [← natAbs_div_den]
    exact (quotLog_spec hnum q.den_pos).1
  have hbits := Format.encode_lt_infBits hexp hnum q.den_pos hlog
  have hvalue : F.decode (F.encode q.num.natAbs q.den) = .num (F.roundQuot q.num.natAbs q.den) := by
    rcases F.decode_encode (by omega) hnum q.den_pos with hinf | hnum'
    · exact absurd hinf (Format.decode_ne_inf hbits false)
    · exact hnum'
  unfold Format.ofRat Format.rounded
  split
  · exact Format.decode_sign hbits hvalue
  · rw [Nat.zero_add]
    exact hvalue

/-- For `float`, `double` and all larger formats. -/
theorem Format.ofRat_of_lt (hexp : 8 ≤ F.exp) (h : |q| < 2 ^ 64) : F.ofRat q = .num (F.rounded q) := by
  refine Format.ofRat_eq_rounded (by omega) (h.trans_le ?_)
  have hpow : 2 ^ 7 ≤ 2 ^ (F.exp - 1) := Nat.pow_le_pow_right (by decide) (by omega)
  have hcast : ((2 ^ (F.exp - 1) : Nat) : Int) = 2 ^ (F.exp - 1) := by push_cast; rfl
  rw [← zpow_natCast]
  refine zpow_le_zpow_right₀ one_le_two ?_
  unfold Format.maxExp
  omega

/-! ## Some numbers of a format -/

theorem Format.representable_mul {n : Nat} {e : Int} (hn : n ≤ 2 ^ (F.mant + 1)) (he : F.minExp ≤ e) : F.Representable (n * 2 ^ e) :=
  ⟨n, e, hn, he, abs_of_nonneg (by positivity)⟩

theorem Format.representable_natCast (hmin : F.minExp ≤ 0) {n : Nat} (hn : n ≤ 2 ^ (F.mant + 1)) : F.Representable (n : ℚ) := by
  have h := Format.representable_mul hn hmin
  rw [zpow_zero, mul_one] at h
  exact h

end

/-- The error of rounding to `double`, for numbers up to a bound. -/
theorem abs_rounded_binary64_sub_le {q B : ℚ} (hq : |q| ≤ B) : |binary64.rounded q - q| ≤ B / 2 ^ 53 + 1 / 2 ^ 60 := by
  have herr := Format.abs_rounded_sub_le (F := binary64) q
  have hmin : (2 : ℚ) ^ binary64.minExp / 2 ≤ 1 / 2 ^ 60 := by
    have hle : (2 : ℚ) ^ binary64.minExp ≤ 2 ^ (-60 : Int) := zpow_le_zpow_right₀ one_le_two (by decide)
    rw [zpow_neg, ← one_div] at hle
    have hpos : (0 : ℚ) < 2 ^ binary64.minExp := by positivity
    have h60 : (2 : ℚ) ^ (60 : Int) = 2 ^ 60 := by norm_cast
    rw [h60] at hle
    linarith
  have hrel : |q| / 2 ^ (binary64.mant + 1) ≤ B / 2 ^ 53 := by
    change |q| / 2 ^ 53 ≤ B / 2 ^ 53
    gcongr
  linarith

end CText
