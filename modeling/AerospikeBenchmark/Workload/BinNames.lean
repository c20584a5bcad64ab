import AerospikeBenchmark.Workload.Parse

/-!
# Bin names

`dec_display_len` and `bin_name_too_large`. When the base name is not too large for the number of bins, the names of the bins are
not cut and differ from each other.
-/

namespace AerospikeBenchmark

open CText

/-- The table of `dec_display_len`: for each highest set bit the number of digits of the smaller numbers with that bit, and the
largest of these. -/
def decDisplayTable : List (Nat × Nat) :=
  let none := 2 ^ 64 - 1
  [(none, 1), (none, 1), (none, 1), (9, 1),
    (none, 2), (none, 2), (99, 2),
    (none, 3), (none, 3), (999, 3),
    (none, 4), (none, 4), (none, 4), (9999, 4),
    (none, 5), (none, 5), (99999, 5),
    (none, 6), (none, 6), (999999, 6),
    (none, 7), (none, 7), (none, 7), (9999999, 7),
    (none, 8), (none, 8), (99999999, 8),
    (none, 9), (none, 9), (999999999, 9),
    (none, 10), (none, 10), (none, 10), (9999999999, 10),
    (none, 11), (none, 11), (99999999999, 11),
    (none, 12), (none, 12), (999999999999, 12),
    (none, 13), (none, 13), (none, 13), (9999999999999, 13),
    (none, 14), (none, 14), (99999999999999, 14),
    (none, 15), (none, 15), (999999999999999, 15),
    (none, 16), (none, 16), (none, 16), (9999999999999999, 16),
    (none, 17), (none, 17), (99999999999999999, 17),
    (none, 18), (none, 18), (999999999999999999, 18),
    (none, 19), (none, 19), (none, 19), (9999999999999999999, 19)]

/-- `dec_display_len`; no value when the index lies outside the table. -/
def decDisplayLen (number : Nat) : Option Nat :=
  if number = 0 then some 1 else decDisplayTable[number.log2]?.map fun e => e.2 + if e.1 < number then 1 else 0

/-- The index into the table, `(8 * sizeof(number) - 1) - __builtin_clzl(number)`, stored in 32 bits. -/
def decDisplayIndex (number : BitVec 64) : BitVec 32 := (63#64 - number.clz).setWidth 32

/-- `dec_display_len` on words, with the index as it is computed. -/
def decDisplayLen64 (number : BitVec 64) : Option Nat :=
  if number = 0#64 then some 1
  else decDisplayTable[(decDisplayIndex number).toNat]?.map fun e => e.2 + if e.1 < number.toNat then 1 else 0

/-- `bin_name_too_large`. -/
def binNameTooLarge (nameLen nBins : Nat) : Option Bool :=
  if nBins = 1 then some (binNameSize ≤ nameLen)
  else (decDisplayLen nBins).map fun maxDisplayLen => binNameSize ≤ nameLen + 1 + maxDisplayLen

/-! ## Digits -/

/-- What an entry of the table must be for the bit `b`: its numbers have as many digits as it says up to its largest one, and one
more beyond. -/
def TableEntryRight (b : Nat) (e : Nat × Nat) : Prop :=
  10 ^ (e.2 - 1) ≤ 2 ^ b ∧ 1 ≤ e.2 ∧ ((e.1 = 2 ^ 64 - 1 ∧ 2 ^ (b + 1) ≤ 10 ^ e.2) ∨ (e.1 + 1 = 10 ^ e.2 ∧ 2 ^ (b + 1) ≤ 10 ^ (e.2 + 1)))

instance (b : Nat) (e : Nat × Nat) : Decidable (TableEntryRight b e) := by
  unfold TableEntryRight
  infer_instance

theorem decDisplayTable_right : ∀ b < 64, ∃ e, decDisplayTable[b]? = some e ∧ TableEntryRight b e := by
  have hall : ∀ b < 64, (decDisplayTable[b]?.any fun e => decide (TableEntryRight b e)) = true := by decide +kernel
  intro b hb
  obtain ⟨e, he, hright⟩ := (Option.any_eq_true _ _).mp (hall b hb)
  exact ⟨e, he, of_decide_eq_true hright⟩

/-- The length displayed is that of the decimal numeral. -/
theorem decDisplayLen_eq {n : Nat} (hn : n < 2 ^ 64) : decDisplayLen n = some (Nat.toDigits 10 n).length := by
  unfold decDisplayLen
  split
  · next hzero =>
    subst hzero
    rfl
  · next hpos =>
    have hlog : n.log2 < 64 := (Nat.log2_lt hpos).mpr hn
    obtain ⟨e, he, hdigits, hone, hmax⟩ := decDisplayTable_right n.log2 hlog
    have hlow : 2 ^ n.log2 ≤ n := Nat.log2_self_le hpos
    have hhigh : n < 2 ^ (n.log2 + 1) := Nat.lt_log2_self
    have hlen {d : Nat} (hd : 1 ≤ d) (hge : 10 ^ (d - 1) ≤ n) (hlt : n < 10 ^ d) : (Nat.toDigits 10 n).length = d := by
      refine Nat.le_antisymm ((Nat.length_toDigits_le_iff (by decide) hd).mpr hlt) ?_
      rcases Nat.lt_or_ge 1 d with hd | hd
      · by_contra hshort
        have := (Nat.length_toDigits_le_iff (b := 10) (n := n) (k := d - 1) (by decide) (by omega)).mp (by omega)
        omega
      · have := Nat.length_toDigits_pos (b := 10) (n := n)
        omega
    rw [he, Option.map_some]
    congr 1
    rcases hmax with ⟨hnone, hbound⟩ | ⟨hlargest, hbound⟩
    · rw [if_neg (by omega), Nat.add_zero]
      exact (hlen hone (by omega) (by omega)).symm
    · by_cases hmore : e.1 < n
      · rw [if_pos hmore]
        exact (hlen (by omega) (by rw [Nat.add_sub_cancel]; omega) (by omega)).symm
      · rw [if_neg hmore, Nat.add_zero]
        exact (hlen hone (by omega) (by omega)).symm

/-- The index is the position of the highest set bit. -/
theorem toNat_decDisplayIndex {number : BitVec 64} (hpos : number ≠ 0#64) :
    (decDisplayIndex number).toNat = number.toNat.log2 := by
  have hclz : number.clz.toNat < 64 := BitVec.lt_def.mp (BitVec.clz_lt_iff_ne_zero.mpr hpos)
  have hindex : (decDisplayIndex number).toNat = 63 - number.clz.toNat := by
    rw [decDisplayIndex, BitVec.toNat_setWidth, BitVec.toNat_sub_of_le (BitVec.le_def.mpr (Nat.le_of_lt_succ hclz))]
    exact Nat.mod_eq_of_lt (Nat.lt_of_le_of_lt (Nat.sub_le _ _) (by decide))
  have hlow : 2 ^ (63 - number.clz.toNat) ≤ number.toNat := BitVec.two_pow_sub_clz_le_toNat_of_ne_zero (by decide) hpos
  have hhigh : number.toNat < 2 ^ (64 - number.clz.toNat) := BitVec.toNat_lt_two_pow_sub_clz
  rw [hindex]
  refine ((Nat.log2_eq_iff (BitVec.toNat_ne.mp hpos)).mpr ⟨hlow, ?_⟩).symm
  rwa [show 63 - number.clz.toNat + 1 = 64 - number.clz.toNat by omega]

/-- The two readings of `dec_display_len` agree. -/
theorem decDisplayLen64_eq (number : BitVec 64) : decDisplayLen64 number = decDisplayLen number.toNat := by
  unfold decDisplayLen64 decDisplayLen
  by_cases hzero : number = 0#64
  · rw [if_pos hzero, if_pos (by rw [hzero]; rfl)]
  · have hnat : number.toNat ≠ 0 := BitVec.toNat_ne.mp hzero
    rw [if_neg hzero, if_neg hnat, toNat_decDisplayIndex hzero]

/-- `dec_display_len` gives the length of the decimal numeral of every 64-bit number, and the index lies inside the 64 entries of the
table unless the number is 0. -/
theorem display_length_is_numeral_length (number : BitVec 64) :
    decDisplayLen64 number = some (Nat.toDigits 10 number.toNat).length ∧
      decDisplayTable.length = 64 ∧ (number ≠ 0#64 → (decDisplayIndex number).toNat < decDisplayTable.length) := by
  refine ⟨(decDisplayLen64_eq number).trans (decDisplayLen_eq number.isLt), rfl, fun hpos => ?_⟩
  rw [toNat_decDisplayIndex hpos]
  exact (Nat.log2_lt (BitVec.toNat_ne.mp hpos)).mpr number.isLt

/-! ## Names -/

/-- With a base name that is not too large the names are whole. -/
theorem genBinName_eq {binName : Text} {n i : Nat} (hname : binNameTooLarge binName.length n = some false) (hn : n < 2 ^ 31)
    (hi : i < n) : genBinName binName i = if i = 0 then binName else binName ++ '_' :: Nat.toDigits 10 (i + 1) := by
  unfold binNameTooLarge at hname
  unfold genBinName
  by_cases hzero : i = 0
  · -- the base name alone is shorter still
    have hlen : binName.length < binNameSize := by
      split at hname
      · simpa using hname
      · rw [decDisplayLen_eq (by omega), Option.map_some] at hname
        simp only [Option.some.injEq, decide_eq_false_iff_not] at hname
        omega
    rw [if_pos hzero, if_pos hzero, List.take_of_length_le (Nat.le_sub_one_of_lt hlen)]
  · rw [if_neg (by omega), decDisplayLen_eq (by omega), Option.map_some] at hname
    simp only [Option.some.injEq, decide_eq_false_iff_not] at hname
    have hdigits : (Nat.toDigits 10 (i + 1)).length ≤ (Nat.toDigits 10 n).length := by
      have hlt : n < 10 ^ (Nat.toDigits 10 n).length :=
        (Nat.length_toDigits_le_iff (by decide) Nat.length_toDigits_pos).mp (Nat.le_refl _)
      exact (Nat.length_toDigits_le_iff (by decide) Nat.length_toDigits_pos).mpr (by omega)
    have hshown : (toString ((i + 1 : Nat) : Int)).toList = Nat.toDigits 10 (i + 1) := Nat.toList_repr
    rw [if_neg hzero, if_neg hzero]
    simp only [Nat.mod_eq_of_lt (show i + 1 < 2 ^ 32 by omega), if_pos (show i + 1 < 2 ^ 31 by omega)]
    rw [hshown, List.take_of_length_le]
    simp only [List.length_append, List.length_cons]
    omega

/-- The names of different bins differ. -/
theorem genBinName_inj {binName : Text} {n i j : Nat} (hname : binNameTooLarge binName.length n = some false) (hn : n < 2 ^ 31)
    (hi : i < n) (hj : j < n) (h : genBinName binName i = genBinName binName j) : i = j := by
  rw [genBinName_eq hname hn hi, genBinName_eq hname hn hj] at h
  split at h <;> split at h
  · omega
  · exact absurd (congrArg List.length h) (by simp)
  · exact absurd (congrArg List.length h) (by simp)
  · have hdigits : Nat.toDigits 10 (i + 1) = Nat.toDigits 10 (j + 1) := List.tail_eq_of_cons_eq (List.append_cancel_left h)
    have hnum : i + 1 = j + 1 := by
      rw [← Nat.ofDigitChars_ten_toDigits (n := i + 1), hdigits, Nat.ofDigitChars_ten_toDigits]
    exact Nat.succ_injective hnum

theorem length_genBinName_lt (binName : Text) (i : Nat) : (genBinName binName i).length < binNameSize := by
  unfold genBinName binNameSize
  split <;> exact Nat.lt_succ_of_le (List.length_take_le _ _)

end AerospikeBenchmark
