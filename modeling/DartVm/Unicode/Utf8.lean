import Mathlib.Data.BitVec

/-! # UTF-8

`Utf8` and `Utf16` of `unicode.cc`.  A pointer into an array together with the length that is left
is the list of the bytes from there on; `uint32_t` and `int32_t` are both `BitVec 32`.  `none`
stands for an assertion that fails.

* `decode`, `encode`: one code point.
* `isValid`, `codeUnitCount`, `decodeToLatin1`, `decodeToUtf16`: the loops. -/

namespace DartVm.Unicode

/-- `uint8_t`. -/
abbrev Byte := BitVec 8

/-- A code point, as the code holds it. -/
abbrev CodePoint := BitVec 32

/-- `Utf8::kTrailBytes`: the length of the sequence that a byte starts, `0` if it starts none. -/
def kTrailBytes : List ℕ :=
  List.replicate 128 1 ++ List.replicate 64 0 ++ List.replicate 32 2 ++ List.replicate 16 3 ++
    List.replicate 8 4 ++ List.replicate 4 5 ++ List.replicate 2 6 ++ List.replicate 2 0

/-- `Utf8::kMagicBits`. -/
def kMagicBits : List CodePoint :=
  [0, 0x00000000, 0x00003080, 0x000E2080, 0x03C82080, 0xFA082080, 0x82082080]

/-- `Utf8::kOverlongMinimum`. -/
def kOverlongMinimum : List CodePoint := [0, 0x0, 0x80, 0x800, 0x10000, 0xFFFFFFFF, 0xFFFFFFFF]

/-- `Utf::kMaxCodePoint`. -/
def kMaxCodePoint : ℤ := 0x10FFFF

/-- `Utf::IsOutOfRange`, on signed code points. -/
def isOutOfRange (codePoint : CodePoint) : Bool :=
  codePoint.toInt < 0 || codePoint.toInt > kMaxCodePoint

/-- `Utf::IsLatin1`. -/
def isLatin1 (codePoint : CodePoint) : Bool := codePoint.toInt ≥ 0 && codePoint.toInt ≤ 0xFF

/-- `Utf8::IsTrailByte`. -/
def isTrailByte (codeUnit : Byte) : Bool := codeUnit &&& 0xC0 == 0x80

/-- `Utf8::IsNonShortestForm`. -/
def isNonShortestForm (codePoint : CodePoint) (numCodeUnits : ℕ) : Bool :=
  codePoint < kOverlongMinimum.getD numCodeUnits 0

/-- `Utf8::IsLatin1SequenceStart`. -/
def isLatin1SequenceStart (codeUnit : Byte) : Bool := codeUnit ≤ 0xC3

/-- `Utf8::IsSupplementarySequenceStart`. -/
def isSupplementarySequenceStart (codeUnit : Byte) : Bool := codeUnit ≥ 0xF0

/-! ## Decoding -/

/-- The loop over the trail bytes of `IsValid` and `Decode`: whether one is malformed, and the bits
so far; `none` if the array ends. -/
def readTrailBytes (bytes : List Byte) (numTrailBytes : ℕ) (ch : CodePoint) :
    Option (Bool × CodePoint) :=
  (List.range' 1 (numTrailBytes - 1)).foldlM (fun (isMalformed, ch) j => do
    let codeUnit ← bytes[j]?
    some (isMalformed || !isTrailByte codeUnit, (ch <<< 6) + codeUnit.setWidth 32)) (false, ch)

/-- The test of a sequence of `j` bytes, in `IsValid` and in `Decode`. -/
def isWellFormed (isMalformed : Bool) (j numTrailBytes : ℕ) (ch : CodePoint) : Bool :=
  !isMalformed && j == numTrailBytes && !isOutOfRange ch && !isNonShortestForm ch j

/-- `Utf8::IsValid`. -/
def isValid : List Byte → Bool
  | [] => true
  | byte :: rest =>
    let ch : CodePoint := byte.setWidth 32
    if ch ≥ 0x80 then
      let numTrailBytes := kTrailBytes.getD ch.toNat 0
      match readTrailBytes (byte :: rest) numTrailBytes ch with
      | none => false
      | some (isMalformed, ch) =>
        -- The loop variable starts at `1`.
        let j := max 1 numTrailBytes
        let ch := ch - kMagicBits.getD numTrailBytes 0
        if isWellFormed isMalformed j numTrailBytes ch then isValid (rest.drop (j - 1)) else false
    else isValid rest
termination_by bytes => bytes.length

/-- `Utf8::Decode`: the code point and the number of bytes, or `-1` and `0`. -/
def decode (bytes : List Byte) : CodePoint × ℕ :=
  let ch : CodePoint := (bytes.headD 0).setWidth 32
  if ch ≥ 0x80 then
    let numTrailBytes := kTrailBytes.getD ch.toNat 0
    match readTrailBytes bytes numTrailBytes ch with
    | none => (-1, 0)
    | some (isMalformed, ch) =>
      let i := max 1 numTrailBytes
      let ch := ch - kMagicBits.getD numTrailBytes 0
      if isWellFormed isMalformed i numTrailBytes ch then (ch, i) else (-1, 0)
  else (ch, 1)

/-- Repeated `Decode`: the code points of the whole array, `none` on an error. -/
def decodeAll : List Byte → Option (List CodePoint)
  | [] => some []
  | byte :: rest =>
    let (ch, numBytes) := decode (byte :: rest)
    if ch = -1 then none
    else (decodeAll (rest.drop (numBytes - 1))).map (ch :: ·)
termination_by bytes => bytes.length

/-! ## Encoding -/

/-- `kMask` of `Encode`. -/
def kMask : CodePoint := ~~~(1 <<< 6)

/-- `Utf8::Encode`: the bytes it stores. -/
def encode (ch : CodePoint) : List Byte :=
  if ch.toInt ≤ 0x7F then [ch.setWidth 8]
  else if ch.toInt ≤ 0x7FF then
    [(0xC0 ||| (ch.sshiftRight 6)).setWidth 8, (0x80 ||| (ch &&& kMask)).setWidth 8]
  else if ch.toInt ≤ 0xFFFF then
    [(0xE0 ||| (ch.sshiftRight 12)).setWidth 8,
      (0x80 ||| ((ch.sshiftRight 6) &&& kMask)).setWidth 8, (0x80 ||| (ch &&& kMask)).setWidth 8]
  else
    [(0xF0 ||| (ch.sshiftRight 18)).setWidth 8,
      (0x80 ||| ((ch.sshiftRight 12) &&& kMask)).setWidth 8,
      (0x80 ||| ((ch.sshiftRight 6) &&& kMask)).setWidth 8, (0x80 ||| (ch &&& kMask)).setWidth 8]

/-! ## Code units -/

/-- `Utf8::Type`. -/
inductive StringType where
  | latin1
  | bmp
  | supplementary
deriving DecidableEq, Repr

/-- The body of the loop of `CodeUnitCount`. -/
def countCodeUnit (count : ℕ × StringType) (codeUnit : Byte) : ℕ × StringType :=
  if isTrailByte codeUnit then count
  else if isLatin1SequenceStart codeUnit then (count.1 + 1, count.2)
  else if isSupplementarySequenceStart codeUnit then (count.1 + 2, .supplementary)
  else (count.1 + 1, if count.2 = .latin1 then .bmp else count.2)

/-- `Utf8::CodeUnitCount`, with the type of the string. -/
def codeUnitCount (bytes : List Byte) : ℕ × StringType := bytes.foldl countCodeUnit (0, .latin1)

/-- `Utf16::Encode`: the two code units it stores. -/
def encodeSurrogates (codePoint : CodePoint) : BitVec 16 × BitVec 16 :=
  -- `kLeadSurrogateOffset` is `0xD800 - (0x10000 >> 10)`.
  ((0xD7C0 + codePoint.sshiftRight 10).setWidth 16, (0xDC00 + (codePoint &&& 0x3FF)).setWidth 16)

/-- `Utf8::DecodeToLatin1`, from index `j` of the destination on. -/
def decodeToLatin1 : List Byte → List Byte → ℕ → Option (Bool × List Byte)
  | [], dst, _ => some (true, dst)
  | byte :: rest, dst, j =>
    if j < dst.length then
      if isLatin1SequenceStart byte then
        let (ch, numBytes) := decode (byte :: rest)
        if ch = -1 then some (false, dst)
        else if isLatin1 ch then
          decodeToLatin1 (rest.drop (numBytes - 1)) (dst.set j (ch.setWidth 8)) (j + 1)
        else none
      else none
    else some (!(j == dst.length), dst)
termination_by bytes => bytes.length

/-- `Utf8::DecodeToUTF16`, from index `j` of the destination on. -/
def decodeToUtf16 : List Byte → List (BitVec 16) → ℕ → Option (Bool × List (BitVec 16))
  | [], dst, _ => some (true, dst)
  | byte :: rest, dst, j =>
    if j < dst.length then
      let (ch, numBytes) := decode (byte :: rest)
      if ch = -1 then some (false, dst)
      else if isSupplementarySequenceStart byte then
        if j = dst.length - 1 then some (false, dst)
        -- `ASSERT(codepoint > Utf16::kMaxCodeUnit)` of `Utf16::Encode`
        else if ch.toInt > 0xFFFF then
          let (lead, trail) := encodeSurrogates ch
          decodeToUtf16 (rest.drop (numBytes - 1)) ((dst.set j lead).set (j + 1) trail) (j + 2)
        else none
      else decodeToUtf16 (rest.drop (numBytes - 1)) (dst.set j (ch.setWidth 16)) (j + 1)
    else some (!(j == dst.length), dst)
termination_by bytes => bytes.length

end DartVm.Unicode
