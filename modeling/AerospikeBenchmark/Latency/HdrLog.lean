import AerospikeBenchmark.Latency.HdrEncoding
import AerospikeBenchmark.Latency.HdrValues
import AerospikeBenchmark.Lib.BigEndian
import AerospikeBenchmark.Lib.Snprintf

/-!
# The HDR log

How `hdr_histogram_log.c` writes a histogram as a line of text, and how it reads such a line back. Allocations are taken to succeed,
numbers of type `long` in the text are taken as numbers, and the compression is that of zlib: of it only this is used, that what was
compressed is uncompressed to the same bytes.
-/

namespace AerospikeBenchmark

open CText

/-- `compressBound`. -/
def compressBound (n : Nat) : Nat := n + n / 2 ^ 12 + n / 2 ^ 14 + n / 2 ^ 25 + 13

/-- The compression: `compress`, and the whole content of a stream that `inflate` reads. -/
structure Zlib where
  compress : List UInt8 → Option (List UInt8)
  uncompress : List UInt8 → Option (List UInt8)
  uncompress_compress : ∀ {bytes data}, compress bytes = some data → uncompress data = some bytes
  length_le : ∀ {bytes data}, compress bytes = some data → data.length ≤ compressBound bytes.length

/-- What can go wrong. Undefined behaviour, such as an access outside of a buffer, is a fault. -/
inductive HdrError where
  | einval
  | enomem
  | eof
  | compressionCookieMismatch
  | encodingCookieMismatch
  | deflateFail
  | inflateFail
  | trailingZerosInvalid
  | valueTruncated
  | encodedInputTooLong
  | fault
deriving DecidableEq, Repr

/-- `struct hdr_histogram` with the fields that only the log reads and writes; the ratio is the bits of a `double`. -/
structure HdrFull extends HdrHistogram where
  normalizingIndexOffset : Nat
  conversionRatio : Nat
deriving DecidableEq, Repr

/-- A histogram as `hdr_init` leaves these fields: no offset, and the ratio 1.0. -/
def HdrHistogram.full (h : HdrHistogram) : HdrFull := { h with normalizingIndexOffset := 0, conversionRatio := 0x3FF0000000000000 }

/-- `V0_COMPRESSION_COOKIE`. -/
def v0CompressionCookie : Nat := 0x1c849309
/-- `V1_COMPRESSION_COOKIE`. -/
def v1CompressionCookie : Nat := 0x1c849302
/-- `V2_ENCODING_COOKIE`. -/
def v2EncodingCookie : Nat := 0x1c849303
/-- `V2_COMPRESSION_COOKIE`. -/
def v2CompressionCookie : Nat := 0x1c849304

/-- `get_cookie_base`. -/
def getCookieBase (cookie : Nat) : Nat := cookie &&& 0xFFFFFF0F

/-! ## Encoding -/

/-- The number that stands for a run of zeros; nothing for none. -/
def encodeZeros (zeros : Nat) : List UInt8 := if zeros = 0 then [] else zigZagEncodeI64 (-(BitVec.ofNat 64 zeros))

/-- The loop of `hdr_encode_compressed` over the counts, with the zeros that its inner loop has counted. -/
def encodeCounts : (zeros : Nat) → (counts : List Nat) → List UInt8
  | zeros, [] => encodeZeros zeros
  | zeros, count :: counts =>
    if count = 0 then encodeCounts (zeros + 1) counts
    else encodeZeros zeros ++ (zigZagEncodeI64 (BitVec.ofNat 64 count) ++ encodeCounts 0 counts)

/-- The counts that are written: those up to the one of the largest value. -/
def countsLimit (h : HdrHistogram) : Nat := min (h.countsIndexFor h.maxValue + 1) h.countsLen

/-- The fields of `encoding_flyweight_v1_t` in front of the counts. -/
def encodingHeader (h : HdrFull) (payloadLen : Nat) : List UInt8 :=
  BigEndian.toBytes 4 (v2EncodingCookie ||| 0x10) ++ (BigEndian.toBytes 4 payloadLen ++
    (BigEndian.toBytes 4 h.normalizingIndexOffset ++ (BigEndian.toBytes 4 h.significantFigures ++
      (BigEndian.toBytes 8 h.lowestTrackableValue ++ (BigEndian.toBytes 8 h.highestTrackableValue ++
        BigEndian.toBytes 8 h.conversionRatio)))))

/-- `hdr_encode_compressed`. -/
def hdrEncodeCompressed (z : Zlib) (h : HdrFull) : Except HdrError (List UInt8) :=
  let payload := encodeCounts 0 (h.counts.take (countsLimit h.toHdrHistogram))
  match z.compress (encodingHeader h payload.length ++ payload) with
  | none => .error .deflateFail
  | some data => .ok (BigEndian.toBytes 4 (v2CompressionCookie ||| 0x10) ++ (BigEndian.toBytes 4 data.length ++ data))

/-! ## Decoding -/

/-- The loop of `apply_to_counts_zz`: where it stopped, and the counts. -/
def applyToCountsLoop (countsLen : Nat) (dataLimit : Int) :
    (fuel : Nat) → (data : List UInt8) → (dataIndex countsIndex : Nat) → (counts : List Nat) → Except HdrError (Nat × List Nat)
  | 0, _, _, _, _ => .error .fault
  | fuel + 1, data, dataIndex, countsIndex, counts =>
    if (dataIndex : Int) < dataLimit ∧ countsIndex < countsLen then
      match zigZagDecodeI64 data with
      | none => .error .fault
      | some (value, bytesRead) =>
        if value.toInt < 0 then
          let zeros := (-value.toInt).toNat
          if value.toInt ≤ -2 ^ 31 ∨ countsLen < countsIndex + zeros then .error .trailingZerosInvalid
          else applyToCountsLoop countsLen dataLimit fuel (data.drop bytesRead) (dataIndex + bytesRead) (countsIndex + zeros) counts
        else applyToCountsLoop countsLen dataLimit fuel (data.drop bytesRead) (dataIndex + bytesRead) (countsIndex + 1)
          (counts.set countsIndex value.toNat)
    else .ok (dataIndex, counts)

/-- `apply_to_counts_zz`. A number takes at least one byte, so that the loop ends. -/
def applyToCountsZz (h : HdrHistogram) (data : List UInt8) (dataLimit : Int) : Except HdrError HdrHistogram :=
  match applyToCountsLoop h.countsLen dataLimit (data.length + 1) data 0 0 h.counts with
  | .error e => .error e
  | .ok (dataIndex, counts) =>
    if dataLimit < dataIndex then .error .valueTruncated
    else if (dataIndex : Int) < dataLimit then .error .encodedInputTooLong
    else .ok { h with counts := counts }

/-- `int32_t` and `int64_t` in big-endian order at an offset, read as a signed number. -/
def readSigned (w : Nat) (bytes : List UInt8) (offset : Nat) : Int :=
  Int.bmod (BigEndian.ofBytes ((bytes.drop offset).take w)) (256 ^ w)

/-- `hdr_decode_compressed_v2`, for a histogram that is not there yet. The first call of `inflate` has to leave something for the
second one, and this has to reach the end of the stream. -/
def hdrDecodeCompressedV2 (z : Zlib) (buffer : List UInt8) : Except HdrError HdrFull :=
  let compressedLength := readSigned 4 buffer 4
  if compressedLength < 0 ∨ ((buffer.length - 8 : Nat) : Int) < compressedLength then .error .einval
  else
    match z.uncompress ((buffer.drop 8).take compressedLength.toNat) with
    | none => .error .inflateFail
    | some encoded =>
      if encoded.length ≤ 40 then .error .inflateFail
      else if getCookieBase (BigEndian.ofBytes (encoded.take 4)) ≠ v2EncodingCookie then .error .encodingCookieMismatch
      else
        let limit := readSigned 4 encoded 4
        let payload := encoded.drop 40
        match hdrInit (readSigned 8 encoded 16).toNat (readSigned 8 encoded 24).toNat (readSigned 4 encoded 12).toNat with
        | none => .error .einval
        | some h =>
          -- a negative size becomes a huge one
          if limit + 9 < 0 then .error .enomem
          else if limit % 2 ^ 32 < payload.length then .error .inflateFail
          else if limit + 9 < payload.length then .error .fault
          else
            match applyToCountsZz h (payload ++ List.replicate ((limit + 9).toNat - payload.length) 0) limit with
            | .error e => .error e
            | .ok h => .ok { hdrResetInternalCounters h with
                normalizingIndexOffset := BigEndian.ofBytes ((encoded.drop 8).take 4)
                conversionRatio := BigEndian.ofBytes ((encoded.drop 32).take 8) }

/-- `hdr_decode_compressed`; the decoders of the two older versions are parameters. -/
def hdrDecodeCompressed (z : Zlib) (v0 v1 : List UInt8 → Except HdrError HdrFull) (buffer : List UInt8) : Except HdrError HdrFull :=
  if buffer.length < 8 then .error .einval
  else
    let cookie := getCookieBase (BigEndian.ofBytes (buffer.take 4))
    if cookie = v0CompressionCookie then v0 buffer
    else if cookie = v1CompressionCookie then v1 buffer
    else if cookie = v2CompressionCookie then hdrDecodeCompressedV2 z buffer
    else .error .compressionCookieMismatch

/-! ## Writing a line -/

/-- `hdr_timespec`. -/
structure HdrTimespec where
  sec : Nat
  nsec : Nat
deriving DecidableEq, Repr

/-- `hdr_timespec_as_double`. -/
def hdrTimespecAsDouble (t : HdrTimespec) : FpNum :=
  binary64.add (binary64.ofRat t.sec) (binary64.unscale 1000000000 (binary64.ofRat t.nsec))

/-- `%.3f` for a number that is not negative: the exact value of the number, to the nearest thousandth. -/
def fixedPoint : FpNum → Text
  | .num q =>
    let n := divNearest (q.num.natAbs * 1000) q.den
    Nat.toDigits 10 (n / 1000) ++ ['.', Nat.digitChar (n / 100 % 10), Nat.digitChar (n / 10 % 10), Nat.digitChar (n % 10)]
  | .inf _ => "inf".toList
  | .nan => "nan".toList

/-- `hdr_log_write`: the line that is written. -/
def hdrLogWrite (z : Zlib) (start finish : HdrTimespec) (h : HdrFull) : Except HdrError Text :=
  match hdrEncodeCompressed z h with
  | .error e => .error e
  | .ok compressed =>
    match hdrBase64EncodedLen compressed.length with
    | none => .error .fault
    | some encodedLen =>
      match hdrBase64Encode compressed encodedLen with
      | none => .error .einval
      | some encoded =>
        .ok (fixedPoint (hdrTimespecAsDouble start) ++ ',' :: (fixedPoint (hdrTimespecAsDouble finish) ++ ',' ::
          (Snprintf.decimal (hdrMax h.toHdrHistogram) ++ '.' :: '0' :: ',' :: (encoded ++ ['\n']))))

/-! ## Reading a line -/

/-- `read_ahead_timestamp`: the time in front of the terminator, and what follows it. -/
def readAheadTimestamp (terminator : Char) :
    (file : Text) → (isSeconds : Bool) → (sec nsec multiplier : Nat) → Option (HdrTimespec × Text)
  | [], _, _, _, _ => none
  | c :: file, isSeconds, sec, nsec, multiplier =>
    if c = terminator then some (⟨sec, nsec * multiplier⟩, file)
    else if c = '.' then readAheadTimestamp terminator file false sec nsec multiplier
    else if '0' ≤ c ∧ c ≤ '9' then
      if isSeconds then readAheadTimestamp terminator file isSeconds (sec * 10 + (c.toNat - '0'.toNat)) nsec multiplier
      else readAheadTimestamp terminator file isSeconds sec (nsec * 10 + (c.toNat - '0'.toNat)) (multiplier / 10)
    else none

/-- What a line holds. -/
structure HdrLogEntry where
  startTimestamp : HdrTimespec
  interval : HdrTimespec
  max : HdrTimespec
  histogram : HdrFull
deriving DecidableEq, Repr

/-- The states of `hdr_log_read_entry` from the first time stamp on: the entry, and what follows its line. -/
def readLogFields (z : Zlib) (v0 v1 : List UInt8 → Except HdrError HdrFull) (file : Text) : Except HdrError (HdrLogEntry × Text) :=
  match readAheadTimestamp ',' file true 0 0 1000000000 with
  | none => .error .einval
  | some (startTimestamp, file) =>
    match readAheadTimestamp ',' file true 0 0 1000000000 with
    | none => .error .einval
    | some (interval, file) =>
      match readAheadTimestamp ',' file true 0 0 1000000000 with
      | none => .error .einval
      | some (max, file) =>
        let base64 := file.takeWhile fun c => c ≠ '\r' ∧ c ≠ '\n'
        match hdrBase64Decode base64 (hdrBase64DecodedLen base64.length) with
        | none => .error .einval
        | some compressed =>
          match hdrDecodeCompressed z v0 v1 compressed with
          | .error e => .error e
          | .ok histogram => .ok (⟨startTimestamp, interval, max, histogram⟩, (file.drop base64.length).tail)

/-- The state for a tag, which `hdr_log_read` does not keep. -/
def readLogTag (z : Zlib) (v0 v1 : List UInt8 → Except HdrError HdrFull) : Text → Except HdrError (HdrLogEntry × Text)
  | [] => .error .einval
  | c :: file =>
    if c = ',' then readLogFields z v0 v1 file
    else if c = '\r' ∨ c = '\n' then .error .einval
    else readLogTag z v0 v1 file

/-- `hdr_log_read`: the entry, and what follows its line. -/
def hdrLogRead (z : Zlib) (v0 v1 : List UInt8 → Except HdrError HdrFull) : Text → Except HdrError (HdrLogEntry × Text)
  | [] => .error .eof
  | c :: file =>
    if c = 'T' then
      if file.take 3 = ['a', 'g', '='] then readLogTag z v0 v1 (file.drop 3) else .error .einval
    else if '0' ≤ c ∧ c ≤ '9' then readLogFields z v0 v1 (c :: file)
    else if c = '\r' ∨ c = '\n' then hdrLogRead z v0 v1 file
    else .error .einval

end AerospikeBenchmark
