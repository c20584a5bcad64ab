import AerospikeBenchmark.Theorems.NormalStages
import AerospikeBenchmark.Theorems.WriteBins
import AerospikeBenchmark.Workload.BinNames

/-!
# Names and selections of bins

`bin_name_too_large` is exact, and which texts `_parse_bins_selection` takes: besides the lists of bin numbers that the usage text
describes it takes the empty text, a comma behind the last number, and signs.
-/

namespace AerospikeBenchmark

open CText Results

/-! ## Names -/

/-- The name of bin number `k`: the base name, followed by the number from the second bin on. -/
def numberedName (binName : Text) (k : Nat) : Text := if k = 1 then binName else binName ++ '_' :: Nat.toDigits 10 k

theorem length_numberedName {binName : Text} {k : Nat} (hk : k ≠ 1) :
    (numberedName binName k).length = binName.length + 1 + (Nat.toDigits 10 k).length := by
  rw [numberedName, if_neg hk, List.length_append, List.length_cons]
  omega

/-- The names get longer with the number. -/
theorem length_numberedName_le (binName : Text) {k n : Nat} (hpos : 1 ≤ k) (hk : k ≤ n) :
    (numberedName binName k).length ≤ (numberedName binName n).length := by
  have hdigits : (Nat.toDigits 10 k).length ≤ (Nat.toDigits 10 n).length := by
    have hlt : n < 10 ^ (Nat.toDigits 10 n).length :=
      (Nat.length_toDigits_le_iff (by decide) Nat.length_toDigits_pos).mp (Nat.le_refl _)
    exact (Nat.length_toDigits_le_iff (by decide) Nat.length_toDigits_pos).mpr (by omega)
  by_cases hn : n = 1
  · obtain rfl : k = n := by omega
    exact Nat.le_refl _
  · rw [length_numberedName hn]
    by_cases hone : k = 1
    · rw [numberedName, if_pos hone]
      omega
    · rw [length_numberedName hone]
      omega

/-- The check compares the longest name with the buffer. -/
theorem binNameTooLarge_eq (binName : Text) {n : Nat} (hn : n < 2 ^ 64) :
    binNameTooLarge binName.length n = some (decide (15 < (numberedName binName n).length)) := by
  unfold binNameTooLarge
  split
  · next hone =>
    subst hone
    rfl
  · next hmany =>
    rw [decDisplayLen_eq hn, Option.map_some, length_numberedName hmany]
    rfl

/-- The check of the bin names is exact: it fails if and only if the name of some bin does not fit. When it passes, the names that
`gen_bin_name` produces are the base name and the numbered ones, whole, and no two are equal. -/
theorem bin_names_checked_exactly (binName : Text) (n : Nat) (hpos : 1 ≤ n) (hn : n ≤ 65535) :
    ∃ tooLarge, binNameTooLarge binName.length n = some tooLarge ∧
      (tooLarge = true ↔ ∃ k, 1 ≤ k ∧ k ≤ n ∧ 15 < (numberedName binName k).length) ∧
      (tooLarge = false → (∀ i < n, genBinName binName i = numberedName binName (i + 1)) ∧
        ∀ i < n, ∀ j < n, genBinName binName i = genBinName binName j → i = j) := by
  have hcheck := binNameTooLarge_eq binName (show n < 2 ^ 64 by omega)
  refine ⟨_, hcheck, ?_, ?_⟩
  · rw [decide_eq_true_iff]
    constructor
    · intro hlong
      exact ⟨n, hpos, Nat.le_refl n, hlong⟩
    · rintro ⟨k, hk, hkn, hlong⟩
      exact Nat.lt_of_lt_of_le hlong (length_numberedName_le binName hk hkn)
  · intro hfits
    rw [hfits] at hcheck
    refine ⟨?_, fun i hi j hj heq => genBinName_inj hcheck (by omega) hi hj heq⟩
    intro i hi
    rw [genBinName_eq hcheck (by omega) hi, numberedName]
    by_cases hzero : i = 0
    · subst hzero
      rfl
    · rw [if_neg hzero, if_neg (by omega)]

/-- A thousand bins with a name of ten characters: the last one has exactly 15. -/
theorem bin_names_checked_thousand :
    binNameTooLarge 10 1000 = some false ∧ genBinName (List.replicate 10 'b') 999 = List.replicate 10 'b' ++ ['_', '1', '0', '0', '0'] := by
  obtain ⟨tooLarge, hcheck, -, hnames⟩ := bin_names_checked_exactly (List.replicate 10 'b') 1000 (by decide) (by decide)
  obtain rfl : false = tooLarge := Option.some.inj ((show some false = _ by decide).trans hcheck)
  exact ⟨hcheck, (hnames rfl).1 999 (by decide)⟩

/-! ## Texts of selections -/

/-- A decimal number, with white space in front. -/
def IsBinNumber (text : Text) (num : Nat) : Prop :=
  ∃ sp ds, text = sp ++ ds ∧ (∀ c ∈ sp, isSpace c = true) ∧ IsNumeral 10 ds ∧ digitsVal 10 ds = num

/-- A list of decimal numbers with single commas between them. -/
inductive IsBinList : Text → List Nat → Prop
  | last {text : Text} {num : Nat} (h : IsBinNumber text num) : IsBinList text [num]
  | comma {text rest : Text} {num : Nat} {nums : List Nat} (h : IsBinNumber text num) (hrest : IsBinList rest nums) :
    IsBinList (text ++ ',' :: rest) (num :: nums)

/-- A selection among `nBins` bins as the usage text describes it. -/
structure IsSelection (nBins : Nat) (text : Text) (nums : List Nat) : Prop where
  list : IsBinList text nums
  ascending : nums.Pairwise (· < ·)
  within : ∀ num ∈ nums, 1 ≤ num ∧ num ≤ nBins

/-- A text without the forms that `_parse_bins_selection` takes besides. -/
structure PlainSelection (text : Text) : Prop where
  ne_nil : text ≠ []
  noDangling : text.getLast? ≠ some ','
  noPlus : '+' ∉ text
  noMinus : '-' ∉ text

/-- Neither white space nor a digit is a comma or a sign. -/
theorem IsBinNumber.plain {text : Text} {num : Nat} (h : IsBinNumber text num) : text ≠ [] ∧ ',' ∉ text ∧ '+' ∉ text ∧ '-' ∉ text := by
  obtain ⟨sp, ds, rfl, hsp, hds, -⟩ := h
  have hnot {c : Char} (hspace : isSpace c = false) (hdigit : isDigit 10 c = false) : c ∉ sp ++ ds := by
    rw [List.mem_append]
    rintro (hc | hc)
    · rw [hsp c hc] at hspace
      cases hspace
    · rw [hds.all c hc] at hdigit
      cases hdigit
  exact ⟨by simp [hds.ne_nil], hnot rfl rfl, hnot rfl rfl, hnot rfl rfl⟩

theorem IsBinList.plain {text : Text} {nums : List Nat} (h : IsBinList text nums) : PlainSelection text := by
  induction h with
  | last h =>
    obtain ⟨hne, hcomma, hplus, hminus⟩ := h.plain
    exact ⟨hne, fun hlast => hcomma (List.mem_of_getLast? hlast), hplus, hminus⟩
  | comma h _ ih =>
    obtain ⟨-, -, hplus, hminus⟩ := h.plain
    refine ⟨by simp, ?_, ?_, ?_⟩
    · rw [List.getLast?_append_of_ne_nil _ (by simp), List.getLast?_cons_of_ne_nil ih.ne_nil]
      exact ih.noDangling
    · simp [hplus, ih.noPlus]
    · simp [hminus, ih.noMinus]

/-! ## What the parser takes -/

section

variable {nBins : Nat} (hn : nBins < 2 ^ 32)

include hn

/-- One number of a list, with nothing or a comma behind it. -/
theorem parseBinsLoop_number {text rest : Text} {num prev : Nat} (h : IsBinNumber text num) (hrest : rest = [] ∨ peek rest = ',')
    (hprev : prev < num) (hnum : num ≤ nBins) (fuel seen : Nat) :
    parseBinsLoop nBins (fuel + 1) seen prev (text ++ rest) =
      (parseBinsLoop nBins fuel (seen + 1) num rest.tail).map ((num - 1) :: ·) := by
  obtain ⟨hne, -⟩ := h.plain
  obtain ⟨sp, ds, rfl, hsp, hds, rfl⟩ := h
  have hend : isDigit 10 (peek rest) = false := by
    rcases hrest with rfl | hcomma
    · rfl
    · rw [hcomma]
      rfl
  have hscan := strtoul_spaced (by decide) (by decide) hsp hds hend
  rw [Nat.min_eq_left (by omega)] at hscan
  have hgood : ¬ (rest ≠ [] ∧ peek rest ≠ ',') := by
    rintro ⟨hnil, hcomma⟩
    rcases hrest with h | h
    · exact hnil h
    · exact hcomma h
  rw [parseBinsLoop, if_neg (by simp [hds.ne_nil]), List.append_assoc, hscan]
  dsimp only
  rw [if_neg hgood, if_neg (by omega), if_neg (by omega), if_neg (by omega)]

/-- A list of numbers in ascending order is taken as it is. -/
theorem parseBinsLoop_list {text : Text} {nums : List Nat} (h : IsBinList text nums) (hsorted : nums.Pairwise (· < ·)) {prev : Nat}
    (hwithin : ∀ num ∈ nums, prev < num ∧ num ≤ nBins) {fuel : Nat} (hfuel : text.length < fuel) (seen : Nat) :
    parseBinsLoop nBins fuel seen prev text = .ok (nums.map (· - 1)) := by
  induction h generalizing prev fuel seen with
  | last h =>
    obtain ⟨hprev, hnum⟩ := hwithin _ List.mem_cons_self
    have hlen := List.length_pos_iff.mpr h.plain.1
    obtain ⟨fuel, rfl⟩ := Nat.exists_eq_add_of_le' (show 2 ≤ fuel by omega)
    have hstep := parseBinsLoop_number hn h (.inl (rfl : [] = [])) hprev hnum (fuel + 1) seen
    rw [List.append_nil] at hstep
    rw [hstep, List.tail_nil, parseBinsLoop, if_pos rfl]
    rfl
  | comma h _ ih =>
    obtain ⟨hprev, hnum⟩ := hwithin _ List.mem_cons_self
    obtain ⟨hfirst, hrest⟩ := List.pairwise_cons.mp hsorted
    rw [List.length_append, List.length_cons] at hfuel
    obtain ⟨fuel, rfl⟩ := Nat.exists_eq_add_of_le' (show 1 ≤ fuel by omega)
    rw [parseBinsLoop_number hn h (.inr rfl) hprev hnum, List.tail_cons,
      ih hrest (fun num hmem => ⟨hfirst num hmem, (hwithin num (List.mem_cons_of_mem _ hmem)).2⟩) (by omega)]
    rfl

/-- From a plain text the parser takes lists of numbers only. -/
theorem isBinList_of_parse {fuel seen prev : Nat} {text : Text} {sel : List Nat} (hplain : PlainSelection text)
    (h : parseBinsLoop nBins fuel seen prev text = .ok sel) :
    ∃ nums, IsBinList text nums ∧ sel = nums.map (· - 1) ∧ nums.Pairwise (· < ·) ∧ ∀ num ∈ nums, prev < num ∧ num ≤ nBins := by
  induction fuel generalizing seen prev text sel with
  | zero => cases h
  | succ fuel ih =>
    unfold parseBinsLoop at h
    rw [if_neg hplain.ne_nil] at h
    cases hscan : strtoul 10 text with
    | none => simp [hscan] at h
    | some r =>
      rw [hscan] at h
      dsimp only at h
      split_ifs at h with h1 h2 h3 h4
      obtain ⟨sel', hsel', rfl⟩ := map_eq_ok.mp h
      obtain ⟨sp, ds, htext, hsp, hds, hvalue⟩ := strtoul_unsigned (by decide) (by decide) hscan hplain.noPlus hplain.noMinus
      have hexact : r.value = digitsVal 10 ds := by omega
      have hnum : IsBinNumber (sp ++ ds) r.value := ⟨sp, ds, rfl, hsp, hds, hexact.symm⟩
      rw [← List.append_assoc] at htext
      by_cases hnil : r.rest = []
      · -- the last number
        rw [hnil, List.append_nil] at htext
        rw [hnil, List.tail_nil] at hsel'
        have hdone : sel' = [] := by
          cases fuel with
          | zero => cases hsel'
          | succ fuel => exact (Except.ok.inj hsel').symm
        refine ⟨[r.value], htext ▸ .last hnum, by simp [hdone], List.pairwise_singleton _ _, ?_⟩
        intro num hmem
        obtain rfl := List.mem_singleton.mp hmem
        omega
      · -- a comma, which is not the last character
        have hcomma : peek r.rest = ',' := by
          by_contra hne
          exact h1 ⟨hnil, hne⟩
        have hrest := eq_cons_of_peek hcomma (by decide)
        rw [hrest] at htext
        have htail : r.rest.tail ≠ [] := by
          intro hempty
          apply hplain.noDangling
          rw [htext, hempty, List.getLast?_append_of_ne_nil _ (by simp)]
          rfl
        have hplain' : PlainSelection r.rest.tail := by
          refine ⟨htail, ?_, ?_, ?_⟩
          · have hlast := hplain.noDangling
            rwa [htext, List.getLast?_append_of_ne_nil _ (by simp), List.getLast?_cons_of_ne_nil htail] at hlast
          · intro hmem
            exact hplain.noPlus (htext ▸ by simp [hmem])
          · intro hmem
            exact hplain.noMinus (htext ▸ by simp [hmem])
        obtain ⟨nums, hlist, rfl, hsorted, hwithin⟩ := ih hplain' hsel'
        refine ⟨r.value :: nums, htext ▸ .comma hnum hlist, rfl, ?_, ?_⟩
        · exact List.pairwise_cons.mpr ⟨fun num hmem => (hwithin num hmem).1, hsorted⟩
        · intro num hmem
          rcases List.mem_cons.mp hmem with rfl | hmem
          · omega
          · have := hwithin num hmem
            omega

end

/-- Both modes return the elements of the numbers of a selection. -/
theorem parseBinList_selection {α : Type} {elem : Nat → α} {zero : α} {nBins : Nat} (hn : nBins < 2 ^ 32) {text : Text} {nums : List Nat}
    (h : IsSelection nBins text nums) : parseBinList elem zero nBins text = .ok ⟨nums.map elem ++ [zero], nums.length⟩ := by
  have hparse : parseBinsSelection nBins text = .ok (nums.map (· - 1)) :=
    parseBinsLoop_list hn h.list h.ascending (fun num hmem => by have := h.within num hmem; omega) (Nat.lt_succ_self _) 0
  have hsame : (nums.map (· - 1)).map (fun i => elem (i + 1)) = nums.map elem := by
    rw [List.map_map]
    refine List.map_congr_left fun num hmem => ?_
    have := h.within num hmem
    rw [Function.comp_apply, Nat.sub_add_cancel this.1]
  rw [parseBinList_eq, hparse]
  simp only [Except.map, hsame, List.length_map]

/-! ## Empty selections -/

/-- Only the empty text gives an empty selection. -/
theorem parseBinsSelection_nil_iff (nBins : Nat) {text : Text} : parseBinsSelection nBins text = .ok [] ↔ text = [] := by
  constructor
  · intro h
    by_contra hne
    rw [parseBinsSelection, parseBinsLoop, if_neg hne] at h
    cases hscan : strtoul 10 text with
    | none => simp [hscan] at h
    | some r =>
      rw [hscan] at h
      dsimp only at h
      split_ifs at h
      obtain ⟨sel, -, hcons⟩ := map_eq_ok.mp h
      cases hcons
  · rintro rfl
    rfl

theorem stageBins_nil_iff {given : Option Text} {contains : Bool} {allPct : FpNum} {nBins : Nat} {e : ConfigError}
    {bins : Option (List Nat)} (h : stageBins given contains allPct nBins e = .ok bins) : bins = some [] ↔ given = some [] := by
  cases given with
  | some str =>
    obtain ⟨-, -, hsel⟩ := bind_eq_ok.mp h
    obtain ⟨sel, hparse, rfl⟩ := map_eq_ok.mp hsel
    rw [Option.some.injEq, Option.some.injEq, ← parseBinsSelection_nil_iff nBins, hparse, Except.ok.injEq]
  | none =>
    simp only [stageBins] at h
    split at h
    · obtain ⟨sel, hparse, rfl⟩ := map_eq_ok.mp h
      have hne : sel ≠ [] := by
        rintro rfl
        exact absurd ((parseBinsSelection_nil_iff nBins).mp hparse) (by simp)
      simp [hne]
    · cases h
      simp

/-- An insert stage whose array of bins to write is there and empty. -/
def writesNoBins : Stage :=
  { Stage.ofWorkload ⟨.i, .num 0, .num 0, .num 100, .num 0⟩ 1 1000001 with writeBins := some [] }

end AerospikeBenchmark
