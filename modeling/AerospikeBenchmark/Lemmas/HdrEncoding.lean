import AerospikeBenchmark.Latency.HdrEncoding
import AerospikeBenchmark.Lib.Rounded

/-!
# What the encodings of the HDR log keep

Reading back what was written gives the number, or the bytes followed by the zeros of the padding.
-/

namespace AerospikeBenchmark

open CText

/-! ## Bytes -/

theorem toNat_lowByte (x : BitVec 64) : (lowByte x).toNat = x.toNat % 256 := UInt8.toNat_ofNat'

/-- The low byte of an arithmetic shift shows bits of the number itself, as long as it has eight of them left. -/
theorem toNat_lowByte_sshiftRight (x : BitVec 64) {n : Nat} (hn : n ≤ 56) :
    (lowByte (x.sshiftRight n)).toNat = x.toNat / 2 ^ n % 256 := by
  have hbits : (x.sshiftRight n).setWidth 8 = (x >>> n).setWidth 8 := by
    apply BitVec.eq_of_getLsbD_eq
    intro i hi
    have hlt : n + i < 64 := by omega
    simp [BitVec.getElem_sshiftRight, hi, hlt, show i < 64 by omega]
  have hnat := congrArg BitVec.toNat hbits
  rw [BitVec.toNat_setWidth, BitVec.toNat_setWidth, BitVec.toNat_ushiftRight, Nat.shiftRight_eq_div_pow] at hnat
  rw [toNat_lowByte]
  exact hnat

theorem toNat_lowByte_or (x : BitVec 64) : (lowByte (x ||| 0x80)).toNat = (lowByte x).toNat % 128 + 128 := by
  have hbyte : ∀ r < 256, r ||| 128 = r % 128 + 128 := by decide +kernel
  rw [toNat_lowByte, toNat_lowByte, BitVec.toNat_or, show (256 : Nat) = 2 ^ 8 from rfl, Nat.or_mod_two_pow]
  exact hbyte _ (Nat.mod_lt _ (by decide))

/-- An arithmetic shift gives zero exactly for the numbers without bits beyond it and without a sign. -/
theorem sshiftRight_eq_zero (x : BitVec 64) {n : Nat} (hn : n < 64) : x.sshiftRight n = 0 ↔ x.toNat < 2 ^ n := by
  cases hmsb : x.msb with
  | false =>
    rw [BitVec.sshiftRight_eq_of_msb_false hmsb, ← BitVec.toNat_inj, BitVec.toNat_ushiftRight, Nat.shiftRight_eq_div_pow]
    exact Nat.div_eq_zero_iff_lt (Nat.two_pow_pos n)
  | true =>
    have hbig := BitVec.msb_eq_true_iff_two_mul_ge.mp hmsb
    have hpow : 2 ^ n ≤ 2 ^ 63 := Nat.pow_le_pow_right (by decide) (by omega)
    refine ⟨?_, fun hlt => absurd hlt (by omega)⟩
    intro hzero
    have hsign : (x.sshiftRight n).msb = true := by rw [BitVec.msb_sshiftRight, hmsb]
    rw [hzero] at hsign
    cases hsign

theorem and_sign_ne_zero (v : UInt8) : v &&& 0x80 ≠ 0 ↔ 128 ≤ v.toNat := by
  have hbyte : ∀ r < 256, (r &&& 128 = 0 ↔ r < 128) := by decide +kernel
  rw [Ne, ← UInt8.toNat_inj, UInt8.toNat_and]
  exact (hbyte v.toNat v.toNat_lt).not.trans Nat.not_lt

/-! ## Numbers -/

/-- Seven more bits above the ones there are. -/
theorem toNat_or_shiftLeft {value w : BitVec 64} {k : Nat} (hvalue : value.toNat < 2 ^ k) (hw : w.toNat * 2 ^ k < 2 ^ 64) :
    (value ||| w <<< k).toNat = value.toNat + w.toNat * 2 ^ k := by
  rw [BitVec.toNat_or, BitVec.toNat_shiftLeft, Nat.shiftLeft_eq, Nat.mod_eq_of_lt hw, Nat.or_comm, ← Nat.shiftLeft_eq,
    ← Nat.shiftLeft_add_eq_or_of_lt hvalue, Nat.add_comm]

theorem toNat_ofNat_and (v : UInt8) : (BitVec.ofNat 64 v.toNat &&& 0x7F).toNat = v.toNat % 128 := by
  have hlt := v.toNat_lt
  rw [BitVec.toNat_and, BitVec.toNat_ofNat, Nat.mod_eq_of_lt (by omega)]
  exact Nat.and_two_pow_sub_one_eq_mod v.toNat 7

/-- The bits below a place, with the seven bits from there on. -/
theorem mod_pow_add_seven (z k : Nat) : z % 2 ^ k + z / 2 ^ k % 128 * 2 ^ k = z % 2 ^ (k + 7) := by
  have h := Nat.mod_mul (a := 2 ^ k) (b := 128) (x := z)
  rw [Nat.pow_add, h, Nat.mul_comm (2 ^ k)]

/-- From each byte on, the branches read what the branches write. -/
theorem zigZagDecodeBranch_encode (z value : BitVec 64) (rest : List UInt8) (left : Nat) (hleft : left ≤ 8)
    (hvalue : value.toNat = z.toNat % 2 ^ (7 * (8 - left))) :
    zigZagDecodeBranch left value (zigZagEncodeBranch z left ++ rest) =
      some (z, 8 - left + (zigZagEncodeBranch z left).length) := by
  induction left generalizing value with
  | zero =>
    have hbyte := toNat_lowByte_sshiftRight z (n := 56) le_rfl
    have hz : z.toNat < 2 ^ 64 := z.isLt
    have hlast : z.toNat / 2 ^ 56 < 256 := by omega
    rw [Nat.mod_eq_of_lt hlast] at hbyte
    have hof : (BitVec.ofNat 64 (lowByte (z.sshiftRight 56)).toNat).toNat = z.toNat / 2 ^ 56 := by
      rw [BitVec.toNat_ofNat, hbyte, Nat.mod_eq_of_lt (by omega)]
    simp only [zigZagEncodeBranch, List.cons_append, List.nil_append, zigZagDecodeBranch, List.length_singleton, Option.some.injEq,
      Prod.mk.injEq, and_true]
    rw [← BitVec.toNat_inj, toNat_or_shiftLeft (by rw [hvalue]; exact Nat.mod_lt _ (by decide)) (by rw [hof]; omega), hof, hvalue]
    omega
  | succ left ih =>
    have hplace : 7 * (8 - (left + 1)) = 7 * (7 - left) := by omega
    have hnext : 7 * (7 - left) + 7 = 7 * (8 - left) := by omega
    rw [hplace] at hvalue
    have hk : 7 * (7 - left) ≤ 56 := by omega
    have hbelow : value.toNat < 2 ^ (7 * (7 - left)) := by
      rw [hvalue]
      exact Nat.mod_lt _ (Nat.two_pow_pos _)
    -- seven bits fit above the ones read before
    have hfits : ∀ r < 128, r * 2 ^ (7 * (7 - left)) < 2 ^ 64 := by
      intro r hr
      calc r * 2 ^ (7 * (7 - left)) < 2 ^ 7 * 2 ^ (7 * (7 - left)) := (Nat.mul_lt_mul_right (Nat.two_pow_pos _)).mpr hr
        _ ≤ 2 ^ 7 * 2 ^ 56 := Nat.mul_le_mul_left _ (Nat.pow_le_pow_right (by decide) hk)
        _ < 2 ^ 64 := by decide
    have hbyte := toNat_lowByte_sshiftRight z hk
    have hread : ∀ v : UInt8, v.toNat % 128 = z.toNat / 2 ^ (7 * (7 - left)) % 128 →
        (value ||| (BitVec.ofNat 64 v.toNat &&& 0x7F) <<< (7 * (7 - left))).toNat = z.toNat % 2 ^ (7 * (8 - left)) := by
      intro v hv
      rw [toNat_or_shiftLeft hbelow, toNat_ofNat_and, hv, hvalue, mod_pow_add_seven, hnext]
      rw [toNat_ofNat_and]
      exact hfits _ (Nat.mod_lt _ (by decide))
    unfold zigZagEncodeBranch
    by_cases hlast : z.sshiftRight (7 * (8 - left)) = 0
    · have hsmall := (sshiftRight_eq_zero z (by omega)).mp hlast
      have hquot : z.toNat / 2 ^ (7 * (7 - left)) < 128 := by
        rw [Nat.div_lt_iff_lt_mul (Nat.two_pow_pos _), Nat.mul_comm, show (128 : Nat) = 2 ^ 7 from rfl, ← Nat.pow_add, hnext]
        exact hsmall
      rw [Nat.mod_eq_of_lt (by omega)] at hbyte
      have hstop : ¬(lowByte (z.sshiftRight (7 * (7 - left))) &&& 0x80 ≠ 0) := by
        rw [and_sign_ne_zero, hbyte]
        omega
      have hz := hread (lowByte (z.sshiftRight (7 * (7 - left)))) (by rw [hbyte])
      rw [Nat.mod_eq_of_lt hsmall] at hz
      rw [if_pos hlast]
      simp only [List.cons_append, List.nil_append, zigZagDecodeBranch, hstop, if_false, List.length_singleton, Option.some.injEq,
        Prod.mk.injEq]
      exact ⟨BitVec.toNat_inj.mp hz, by omega⟩
    · have hor := toNat_lowByte_or (z.sshiftRight (7 * (7 - left)))
      have hgo : lowByte (z.sshiftRight (7 * (7 - left)) ||| 0x80) &&& 0x80 ≠ 0 := by
        rw [and_sign_ne_zero, hor]
        omega
      have hz := hread (lowByte (z.sshiftRight (7 * (7 - left)) ||| 0x80)) (by
        rw [hor, Nat.add_mod_right, Nat.mod_mod, hbyte]
        exact Nat.mod_mod_of_dvd _ (by decide))
      rw [if_neg hlast]
      simp only [List.cons_append, zigZagDecodeBranch, if_pos hgo, ih _ (by omega) hz, List.length_cons, Option.some.injEq,
        Prod.mk.injEq, true_and]
      omega

/-- Undoing the fold of the negative numbers between the others. -/
theorem unfold_zigZag (v : BitVec 64) :
    (((v <<< 1) ^^^ v.sshiftRight 63) >>> 1) ^^^ (-(((v <<< 1) ^^^ v.sshiftRight 63) &&& 1)) = v := by
  cases hmsb : v.msb with
  | false =>
    have hsmall := BitVec.msb_eq_false_iff_two_mul_lt.mp hmsb
    have hzero : v.sshiftRight 63 = 0#64 := (sshiftRight_eq_zero v (by decide)).mpr (by omega)
    have hlow : v <<< 1 &&& 1 = 0#64 := by
      apply BitVec.eq_of_getLsbD_eq
      intro i hi
      cases i <;> simp
    rw [hzero, BitVec.xor_zero, hlow, BitVec.neg_zero, BitVec.xor_zero, ← BitVec.toNat_inj, BitVec.toNat_ushiftRight,
      BitVec.toNat_shiftLeft, Nat.shiftLeft_eq, Nat.shiftRight_eq_div_pow]
    omega
  | true =>
    have hbig := BitVec.msb_eq_true_iff_two_mul_ge.mp hmsb
    have hones : v.sshiftRight 63 = BitVec.allOnes 64 := by
      apply BitVec.eq_of_getLsbD_eq
      intro i hi
      rw [BitVec.getLsbD_sshiftRight, BitVec.getLsbD_allOnes]
      rcases Nat.eq_zero_or_pos i with rfl | hpos
      · simpa [BitVec.msb_eq_getLsbD_last] using hmsb
      · simp [hi, hmsb, show ¬ 63 + i < 64 by omega]
    have hlow : ~~~(v <<< 1) &&& 1 = 1#64 := by
      apply BitVec.eq_of_getLsbD_eq
      intro i hi
      cases i <;> simp
    rw [hones, BitVec.xor_allOnes, hlow, show -1#64 = BitVec.allOnes 64 from rfl, BitVec.xor_allOnes, ← BitVec.toNat_inj,
      BitVec.toNat_not, BitVec.toNat_ushiftRight, BitVec.toNat_not, BitVec.toNat_shiftLeft, Nat.shiftLeft_eq,
      Nat.shiftRight_eq_div_pow]
    omega

/-- `zig_zag_decode_i64` reads back the number that `zig_zag_encode_i64` wrote, whatever follows it. -/
theorem zigZagDecodeI64_encode (v : BitVec 64) (rest : List UInt8) :
    zigZagDecodeI64 (zigZagEncodeI64 v ++ rest) = some (v, (zigZagEncodeI64 v).length) := by
  have hread := zigZagDecodeBranch_encode ((v <<< 1) ^^^ v.sshiftRight 63) 0 rest 8 le_rfl (by simp [Nat.mod_one])
  rw [zigZagDecodeI64, zigZagEncodeI64, hread, Option.map_some, Nat.sub_self, Nat.zero_add]
  dsimp only
  rw [unfold_zigZag]

theorem length_zigZagEncodeBranch (z : BitVec 64) (left : Nat) :
    1 ≤ (zigZagEncodeBranch z left).length ∧ (zigZagEncodeBranch z left).length ≤ left + 1 := by
  induction left with
  | zero => exact ⟨le_rfl, le_rfl⟩
  | succ left ih =>
    unfold zigZagEncodeBranch
    split
    · exact ⟨le_rfl, Nat.le_add_left _ _⟩
    · rw [List.length_cons]
      omega

/-- One to nine bytes. -/
theorem length_zigZagEncodeI64 (v : BitVec 64) : 1 ≤ (zigZagEncodeI64 v).length ∧ (zigZagEncodeI64 v).length ≤ 9 :=
  length_zigZagEncodeBranch _ 8

/-! ## Base64 -/

theorem fromBase64_table : ∀ i < 64, fromBase64 (base64Table.getD i '\x00') = i := by decide +kernel

/-- The letters of the encoding end no line. -/
theorem table_ne_newline : ∀ i < 64, base64Table.getD i '\x00' ≠ '\n' ∧ base64Table.getD i '\x00' ≠ '\r' := by decide +kernel

theorem six_bits (value shift : Nat) : 0x3F &&& (value >>> shift) = value / 2 ^ shift % 64 := by
  rw [Nat.and_comm, Nat.shiftRight_eq_div_pow]
  exact Nat.and_two_pow_sub_one_eq_mod _ 6

theorem fromBase64_getBase64 (value shift : Nat) : fromBase64 (getBase64 value shift) = value / 2 ^ shift % 64 := by
  rw [getBase64, six_bits]
  exact fromBase64_table _ (Nat.mod_lt _ (by decide))

theorem getBase64_ne_newline (value shift : Nat) : getBase64 value shift ≠ '\n' ∧ getBase64 value shift ≠ '\r' := by
  rw [getBase64, six_bits]
  exact table_ne_newline _ (Nat.mod_lt _ (by decide))

/-- Four groups of six bits, put together. -/
theorem or_groups {a b c d : Nat} (hb : b < 64) (hc : c < 64) (hd : d < 64) :
    a <<< 18 ||| b <<< 12 ||| c <<< 6 ||| d = a * 2 ^ 18 + b * 2 ^ 12 + c * 2 ^ 6 + d := by
  have hlow : c <<< 6 ||| d = c * 2 ^ 6 + d := by
    rw [← Nat.shiftLeft_add_eq_or_of_lt (show d < 2 ^ 6 from hd), Nat.shiftLeft_eq]
  have hmid : b <<< 12 ||| (c * 2 ^ 6 + d) = b * 2 ^ 12 + (c * 2 ^ 6 + d) := by
    rw [← Nat.shiftLeft_add_eq_or_of_lt (show c * 2 ^ 6 + d < 2 ^ 12 by omega), Nat.shiftLeft_eq]
  rw [Nat.or_assoc, Nat.or_assoc, hlow, hmid,
    ← Nat.shiftLeft_add_eq_or_of_lt (show b * 2 ^ 12 + (c * 2 ^ 6 + d) < 2 ^ 18 by omega), Nat.shiftLeft_eq]
  omega

theorem and_byte (n : Nat) : n &&& 0xFF = n % 256 := Nat.and_two_pow_sub_one_eq_mod n 8

/-- A block of letters whose groups of six bits make up three bytes. -/
theorem hdrBase64DecodeBlock_eq (value : Nat) {a b c d : Char} (ha : fromBase64 a = value / 2 ^ 18)
    (hb : fromBase64 b = value / 2 ^ 12 % 64) (hc : fromBase64 c = value / 2 ^ 6 % 64) (hd : fromBase64 d = value % 64) :
    hdrBase64DecodeBlock a b c d = [UInt8.ofNat (value / 2 ^ 16), UInt8.ofNat (value / 2 ^ 8), UInt8.ofNat value] := by
  have hvalue : fromBase64 a <<< 18 ||| fromBase64 b <<< 12 ||| fromBase64 c <<< 6 ||| fromBase64 d = value := by
    rw [ha, hb, hc, hd, or_groups (Nat.mod_lt _ (by decide)) (Nat.mod_lt _ (by decide)) (Nat.mod_lt _ (by decide))]
    omega
  have hbyte : ∀ n : Nat, UInt8.ofNat (n % 256) = UInt8.ofNat n := by
    intro n
    rw [← UInt8.toNat_inj, UInt8.toNat_ofNat', UInt8.toNat_ofNat', Nat.mod_mod]
  rw [hdrBase64DecodeBlock, hvalue]
  simp only [and_byte, Nat.shiftRight_eq_div_pow, hbyte]

theorem ofNat_eq {n : Nat} {a : UInt8} (h : n % 256 = a.toNat) : UInt8.ofNat n = a := by
  rw [← UInt8.toNat_inj, UInt8.toNat_ofNat']
  exact h

/-- Three bytes come back. -/
theorem hdrBase64DecodeLoop_block (a b c : UInt8) (rest : Text) :
    hdrBase64DecodeLoop (hdrBase64EncodeBlock a b c ++ rest) = [a, b, c] ++ hdrBase64DecodeLoop rest := by
  have ha := a.toNat_lt
  have hb := b.toNat_lt
  have hc := c.toNat_lt
  simp only [hdrBase64EncodeBlock, List.cons_append, List.nil_append, hdrBase64DecodeLoop, Nat.shiftLeft_eq]
  rw [hdrBase64DecodeBlock_eq (a.toNat * 2 ^ 16 + b.toNat * 2 ^ 8 + c.toNat)
    (by rw [fromBase64_getBase64]; omega) (fromBase64_getBase64 _ 12) (fromBase64_getBase64 _ 6)
    (by rw [fromBase64_getBase64]; omega), ofNat_eq (a := a) (by omega), ofNat_eq (a := b) (by omega), ofNat_eq (a := c) (by omega)]
  rfl

/-- The zeros of the padding after `n` bytes. -/
def padding (n : Nat) : List UInt8 := List.replicate ((3 - n % 3) % 3) 0

/-- One or two bytes come back with the zeros of the padding. -/
theorem hdrBase64DecodeLoop_pad {input : List UInt8} (h : input.length < 3) :
    hdrBase64DecodeLoop (hdrBase64EncodeBlockPad input) = input ++ padding input.length := by
  have heq : fromBase64 '=' = 0 := rfl
  rcases input with _ | ⟨a, _ | ⟨b, _ | ⟨c, input⟩⟩⟩
  · rfl
  · have ha := a.toNat_lt
    simp only [hdrBase64EncodeBlockPad, hdrBase64DecodeLoop, Nat.shiftLeft_eq]
    rw [hdrBase64DecodeBlock_eq (a.toNat * 2 ^ 16) (by rw [fromBase64_getBase64]; omega) (fromBase64_getBase64 _ 12)
      (by rw [heq]; omega) (by rw [heq]; omega), ofNat_eq (a := a) (by omega), ofNat_eq (a := 0) (by simp; omega),
      ofNat_eq (n := a.toNat * 2 ^ 16) (a := 0) (by simp; omega)]
    rfl
  · have ha := a.toNat_lt
    have hb := b.toNat_lt
    simp only [hdrBase64EncodeBlockPad, hdrBase64DecodeLoop, Nat.shiftLeft_eq]
    rw [hdrBase64DecodeBlock_eq (a.toNat * 2 ^ 16 + b.toNat * 2 ^ 8) (by rw [fromBase64_getBase64]; omega)
      (fromBase64_getBase64 _ 12) (fromBase64_getBase64 _ 6) (by rw [heq]; omega), ofNat_eq (a := a) (by omega),
      ofNat_eq (a := b) (by omega), ofNat_eq (n := a.toNat * 2 ^ 16 + b.toNat * 2 ^ 8) (a := 0) (by simp; omega)]
    rfl
  · simp only [List.length_cons] at h
    omega

theorem hdrBase64EncodeBlockPad_letters {input : List UInt8} (h : input.length < 3) :
    (hdrBase64EncodeBlockPad input).length = 4 * ((input.length + 2) / 3) ∧
      ∀ c ∈ hdrBase64EncodeBlockPad input, c ≠ '\n' ∧ c ≠ '\r' := by
  have heq : '=' ≠ '\n' ∧ '=' ≠ '\r' := by decide
  rcases input with _ | ⟨a, _ | ⟨b, _ | ⟨c, input⟩⟩⟩
  · exact ⟨rfl, fun c hc => absurd hc List.not_mem_nil⟩
  · refine ⟨by simp [hdrBase64EncodeBlockPad], ?_⟩
    intro l hl
    simp only [hdrBase64EncodeBlockPad, List.mem_cons, List.not_mem_nil, or_false] at hl
    rcases hl with rfl | rfl | rfl | rfl
    · exact getBase64_ne_newline _ _
    · exact getBase64_ne_newline _ _
    · exact heq
    · exact heq
  · refine ⟨by simp [hdrBase64EncodeBlockPad], ?_⟩
    intro l hl
    simp only [hdrBase64EncodeBlockPad, List.mem_cons, List.not_mem_nil, or_false] at hl
    rcases hl with rfl | rfl | rfl | rfl
    · exact getBase64_ne_newline _ _
    · exact getBase64_ne_newline _ _
    · exact getBase64_ne_newline _ _
    · exact heq
  · simp only [List.length_cons] at h
    omega

/-- The encoder writes four letters for three bytes, and the decoder reads the bytes back with the zeros of the padding. -/
theorem hdrBase64DecodeLoop_encode (outputLen : Nat) (input : List UInt8) (j : Nat)
    (hj : j + 4 * ((input.length + 2) / 3) ≤ outputLen) :
    hdrBase64DecodeLoop (hdrBase64EncodeLoop outputLen input j) = input ++ padding input.length ∧
      (hdrBase64EncodeLoop outputLen input j).length = 4 * ((input.length + 2) / 3) ∧
      ∀ c ∈ hdrBase64EncodeLoop outputLen input j, c ≠ '\n' ∧ c ≠ '\r' := by
  fun_induction hdrBase64EncodeLoop outputLen input j with
  | case1 a b c input j hlt ih =>
    simp only [List.length_cons] at hj ⊢
    obtain ⟨hdecode, hlen, hletters⟩ := ih (by omega)
    refine ⟨?_, ?_, ?_⟩
    · have hpad : padding (input.length + 1 + 1 + 1) = padding input.length := by
        unfold padding
        rw [show (input.length + 1 + 1 + 1) % 3 = input.length % 3 by omega]
      rw [hdrBase64DecodeLoop_block, hdecode, hpad]
      rfl
    · rw [List.length_append, hlen]
      simp only [hdrBase64EncodeBlock, List.length_cons, List.length_nil]
      omega
    · intro l hl
      rcases List.mem_append.mp hl with hblock | hrest
      · simp only [hdrBase64EncodeBlock, List.mem_cons, List.not_mem_nil, or_false] at hblock
        rcases hblock with rfl | rfl | rfl | rfl <;> exact getBase64_ne_newline _ _
      · exact hletters l hrest
  | case2 a b c input j hge =>
    simp only [List.length_cons] at hj
    omega
  | case3 j input hshort =>
    have hlt : input.length < 3 := by
      rcases input with _ | ⟨a, _ | ⟨b, _ | ⟨c, input⟩⟩⟩
      · simp
      · simp
      · simp
      · exact absurd rfl (hshort a b c input)
    exact ⟨hdrBase64DecodeLoop_pad hlt, hdrBase64EncodeBlockPad_letters hlt⟩

/-! ## The length of the encoding -/

theorem rounded_binary64_natCast {n : Nat} (hn : n ≤ 2 ^ 53) : binary64.rounded n = n :=
  Format.rounded_eq_self (Format.representable_natCast (by decide) hn)

theorem ofRat_binary64_natCast {n : Nat} (hn : n ≤ 2 ^ 53) : binary64.ofRat n = .num n := by
  have hlt : |(n : ℚ)| < 2 ^ 64 := by
    rw [abs_of_nonneg (by positivity)]
    exact_mod_cast Nat.lt_of_le_of_lt hn (by decide)
  rw [Format.ofRat_of_lt (by decide) hlt, rounded_binary64_natCast hn]

/-- A third, rounded, lies between the same integers. -/
theorem ceil_rounded_div_three {n : Nat} (hn : n < 2 ^ 50) : ⌈binary64.rounded (n / 3)⌉ = ((n + 2) / 3 : Nat) := by
  rcases Nat.eq_zero_or_pos n with rfl | hpos
  · simp
  obtain ⟨m, hm⟩ : ∃ m, (n + 2) / 3 = m + 1 := Nat.exists_eq_succ_of_ne_zero (by omega)
  have hlow : binary64.Representable ((4 * m + 1 : Nat) * 2 ^ (-2 : Int)) := Format.representable_mul (by change _ ≤ 2 ^ 53; omega) (by decide)
  have hhigh : binary64.Representable ((m + 1 : Nat) : ℚ) := Format.representable_natCast (by decide) (by change _ ≤ 2 ^ 53; omega)
  have hn1 : ((3 * m + 1 : Nat) : ℚ) ≤ n := by exact_mod_cast (show 3 * m + 1 ≤ n by omega)
  have hn2 : (n : ℚ) ≤ (3 * (m + 1) : Nat) := by exact_mod_cast (show n ≤ 3 * (m + 1) by omega)
  push_cast at hn1 hn2
  have hge := Format.le_rounded (q := n / 3) hlow (by norm_num; linarith)
  have hle := Format.rounded_le (q := n / 3) hhigh (by push_cast; linarith)
  rw [hm, Int.ceil_eq_iff]
  norm_num at hge
  push_cast at hle ⊢
  exact ⟨by linarith, hle⟩

/-- The length of the encoding: four letters for each three bytes, the last ones possibly padded. -/
theorem hdrBase64EncodedLen_eq {n : Nat} (hn : n < 2 ^ 50) : hdrBase64EncodedLen n = some (4 * ((n + 2) / 3)) := by
  have hthird : |(n : ℚ) / 3| < 2 ^ 64 := by
    rw [abs_of_nonneg (by positivity)]
    have : (n : ℚ) < 2 ^ 50 := by exact_mod_cast hn
    linarith
  have hfour : (4 : ℚ) * ((n + 2) / 3 : Nat) = (4 * ((n + 2) / 3) : Nat) := by push_cast; rfl
  have hsmall : 4 * ((n + 2) / 3) ≤ 2 ^ 53 := by omega
  rw [hdrBase64EncodedLen, ofRat_binary64_natCast (by omega), Format.unscale, Format.ofRat_of_lt (by decide) hthird, FpNum.ceil,
    ceil_rounded_div_three hn, Format.scale, Int.cast_natCast, hfour, ofRat_binary64_natCast hsmall, FpNum.toUnsigned, if_pos]
  · change some ⌊((4 * ((n + 2) / 3) : Nat) : ℚ)⌋.toNat = _
    rw [Int.floor_natCast, Int.toNat_natCast]
  · constructor
    · exact lt_of_lt_of_le (by norm_num) (Nat.cast_nonneg _)
    · exact_mod_cast Nat.lt_of_le_of_lt hsmall (by decide)

end AerospikeBenchmark
