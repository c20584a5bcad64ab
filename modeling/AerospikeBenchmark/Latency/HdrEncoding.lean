import AerospikeBenchmark.Lib.FpArith

/-!
# The encodings of the HDR log

`hdr_encoding.c`: signed numbers of 64 bits as one to nine bytes, and bytes as the letters of Base64.
-/

namespace AerospikeBenchmark

open CText

/-! ## Numbers -/

/-- `(uint8_t) value`. -/
def lowByte (value : BitVec 64) : UInt8 := UInt8.ofNat value.toNat

/-- The nested branches of `zig_zag_encode_i64` from byte `8 - left` on. Each looks whether the value has bits beyond the seven of
its byte; the ninth byte takes the last eight bits. -/
def zigZagEncodeBranch (value : BitVec 64) : (left : Nat) → List UInt8
  | 0 => [lowByte (value.sshiftRight 56)]
  | left + 1 =>
    if value.sshiftRight (7 * (8 - left)) = 0 then [lowByte (value.sshiftRight (7 * (7 - left)))]
    else lowByte (value.sshiftRight (7 * (7 - left)) ||| 0x80) :: zigZagEncodeBranch value left

/-- `zig_zag_encode_i64`: the bytes it writes. -/
def zigZagEncodeI64 (signedValue : BitVec 64) : List UInt8 :=
  zigZagEncodeBranch ((signedValue <<< 1) ^^^ signedValue.sshiftRight 63) 8

/-- The nested branches of `zig_zag_decode_i64` from byte `8 - left` on, with what the bytes before gave: the value and the number of
bytes read. None when the bytes end before the value does. -/
def zigZagDecodeBranch : (left : Nat) → (value : BitVec 64) → List UInt8 → Option (BitVec 64 × Nat)
  | _, _, [] => none
  | 0, value, v :: _ => some (value ||| BitVec.ofNat 64 v.toNat <<< 56, 9)
  | left + 1, value, v :: buffer =>
    let value := value ||| (BitVec.ofNat 64 v.toNat &&& 0x7F) <<< (7 * (7 - left))
    if v &&& 0x80 ≠ 0 then zigZagDecodeBranch left value buffer
    else some (value, 8 - left)

/-- `zig_zag_decode_i64`: the value and the number of bytes read. -/
def zigZagDecodeI64 (buffer : List UInt8) : Option (BitVec 64 × Nat) :=
  (zigZagDecodeBranch 8 0 buffer).map fun (value, bytesRead) => ((value >>> 1) ^^^ (-(value &&& 1)), bytesRead)

/-! ## Base64 -/

/-- `base64_table`. -/
def base64Table : List Char := "ABCDEFGHIJKLMNOPQRSTUVWXYZabcdefghijklmnopqrstuvwxyz0123456789+/\x00".toList

/-- `get_base_64`. -/
def getBase64 (value : Nat) (shift : Nat) : Char := base64Table.getD (0x3F &&& (value >>> shift)) '\x00'

/-- `from_base_64`. A character outside the table gives `EINVAL`, which is 22 and taken for the letter of that number. -/
def fromBase64 (c : Char) : Nat :=
  if 'A' ≤ c ∧ c ≤ 'Z' then c.toNat - 'A'.toNat
  else if 'a' ≤ c ∧ c ≤ 'z' then c.toNat - 'a'.toNat + 26
  else if '0' ≤ c ∧ c ≤ '9' then c.toNat - '0'.toNat + 52
  else if '+' = c then 62
  else if '/' = c then 63
  else if '=' = c then 0
  else 22

/-- `hdr_base64_encoded_len`, computed in `double`. -/
def hdrBase64EncodedLen (decodedSize : Nat) : Option Nat :=
  (binary64.scale 4 (binary64.unscale 3 (binary64.ofRat decodedSize)).ceil).toUnsigned 64

/-- `hdr_base64_decoded_len`. -/
def hdrBase64DecodedLen (encodedSize : Nat) : Nat := encodedSize / 4 * 3

/-- `hdr_base64_encode_block_pad`, for the bytes that are left. -/
def hdrBase64EncodeBlockPad : List UInt8 → Text
  | [a, b] =>
    let value := a.toNat <<< 16 + b.toNat <<< 8
    [getBase64 value 18, getBase64 value 12, getBase64 value 6, '=']
  | [a] =>
    let value := a.toNat <<< 16
    [getBase64 value 18, getBase64 value 12, '=', '=']
  | _ => []

/-- `hdr_base64_encode_block`. -/
def hdrBase64EncodeBlock (a b c : UInt8) : Text :=
  let value := a.toNat <<< 16 + b.toNat <<< 8 + c.toNat
  [getBase64 value 18, getBase64 value 12, getBase64 value 6, getBase64 value 0]

/-- The loop of `hdr_base64_encode` and the block after it, `j` characters into the output. -/
def hdrBase64EncodeLoop (outputLen : Nat) : (input : List UInt8) → (j : Nat) → Text
  | a :: b :: c :: input, j =>
    if j < outputLen then hdrBase64EncodeBlock a b c ++ hdrBase64EncodeLoop outputLen input (j + 4)
    else hdrBase64EncodeBlockPad (a :: b :: c :: input)
  | input, _ => hdrBase64EncodeBlockPad input

/-- `hdr_base64_encode`; none stands for `EINVAL`. -/
def hdrBase64Encode (input : List UInt8) (outputLen : Nat) : Option Text :=
  if hdrBase64EncodedLen input.length ≠ some outputLen then none else some (hdrBase64EncodeLoop outputLen input 0)

/-- `hdr_base64_decode_block`. -/
def hdrBase64DecodeBlock (a b c d : Char) : List UInt8 :=
  let value := fromBase64 a <<< 18 ||| fromBase64 b <<< 12 ||| fromBase64 c <<< 6 ||| fromBase64 d
  [UInt8.ofNat ((value >>> 16) &&& 0xFF), UInt8.ofNat ((value >>> 8) &&& 0xFF), UInt8.ofNat (value &&& 0xFF)]

/-- The loop of `hdr_base64_decode`. -/
def hdrBase64DecodeLoop : Text → List UInt8
  | a :: b :: c :: d :: input => hdrBase64DecodeBlock a b c d ++ hdrBase64DecodeLoop input
  | _ => []

/-- `hdr_base64_decode`; none stands for `-EINVAL`. -/
def hdrBase64Decode (input : Text) (outputLen : Nat) : Option (List UInt8) :=
  if input.length < 4 ∨ input.length &&& 3 ≠ 0 ∨ input.length / 4 * 3 ≠ outputLen then none
  else some (hdrBase64DecodeLoop input)

end AerospikeBenchmark
