import Mathlib.Data.BitVec
import Mathlib.Order.Nat

/-! # Write streams and read streams

The variable-length encodings of `datastream.h`.  A C++ integer type `T` of `w` bits, signed or not,
is `BitVec w`.  Shifts to the left, `|` and `-` on types narrower than `int` are computed in `int`
and cut back to `w` bits, with the same result.  `none` means that a writer's fuel ran out or that
`ReadByte` would read behind the end.

* `ReadStream`: a position and the bytes that are left.
* `write`, `writeUnsigned`, `writeLEB128`, `writeSLEB128`: the writers.
* `read`, `readUnsigned`, `readLEB128`, `readSLEB128`: the readers. -/

namespace DartVm.DataStream

/-- `uint8_t`. -/
abbrev Byte := BitVec 8

/-- `kDataBitsPerByte`. -/
def kDataBitsPerByte : ℕ := 7

/-- `kByteMask`. -/
def kByteMask : ℕ := 127

/-- `kMaxUnsignedDataPerByte`. -/
def kMaxUnsignedDataPerByte : ℕ := 127

/-- `kMinDataPerByte`. -/
def kMinDataPerByte : ℤ := -64

/-- `kMaxDataPerByte`. -/
def kMaxDataPerByte : ℤ := 63

/-- `kEndByteMarker`: added to the last byte of a signed value. -/
def kEndByteMarker : Byte := 192

/-- `kEndUnsignedByteMarker`: added to the last byte of an unsigned value. -/
def kEndUnsignedByteMarker : Byte := 128

/-- `kDataByteMask`. -/
def kDataByteMask : Byte := 0x7f

/-- `kMoreDataMask`. -/
def kMoreDataMask : Byte := 0x80

/-- `kSignMask`. -/
def kSignMask : Byte := 0x40

variable {w : ℕ}

/-! ## Writing -/

/-- The loop of `Write` and `WriteUnsigned`: seven bits a byte until the value `fits` into the last,
marked one. -/
def writeMarked (fits : BitVec w → Bool) (shift : BitVec w → BitVec w) (marker : Byte) :
    ℕ → BitVec w → Option (List Byte)
  | 0, _ => none
  | fuel + 1, v =>
    if fits v then some [v.setWidth 8 + marker]
    else do
      let bytes ← writeMarked fits shift marker fuel (shift v)
      some ((v &&& BitVec.ofNat w kByteMask).setWidth 8 :: bytes)

/-- The range of one byte of `Write`. -/
def fitsSigned (v : BitVec w) : Bool := kMinDataPerByte ≤ v.toInt && v.toInt ≤ kMaxDataPerByte

/-- The range of one byte of `WriteUnsigned`. -/
def fitsUnsigned (v : BitVec w) : Bool := v.toNat ≤ kMaxUnsignedDataPerByte

/-- `Write`. -/
def write (v : BitVec w) : Option (List Byte) :=
  writeMarked fitsSigned (·.sshiftRight kDataBitsPerByte) kEndByteMarker w v

/-- `WriteUnsigned`. -/
def writeUnsigned (v : BitVec w) : Option (List Byte) :=
  writeMarked fitsUnsigned (· >>> kDataBitsPerByte) kEndUnsignedByteMarker w v

/-- The loop of `WriteLEB128` and `WriteSLEB128`: bytes of seven bits, all but the last marked.
`next` shifts the remainder, `isLast` decides. -/
def writeParts (next : BitVec w → BitVec w) (isLast : BitVec w → Byte → Bool) :
    ℕ → BitVec w → Option (List Byte)
  | 0, _ => none
  | fuel + 1, remainder =>
    let part := remainder.setWidth 8 &&& kDataByteMask
    let remainder := next remainder
    if isLast remainder part then some [part]
    else do
      let bytes ← writeParts next isLast fuel remainder
      some ((part ||| kMoreDataMask) :: bytes)

/-- `WriteLEB128`. -/
def writeLEB128 (v : BitVec w) : Option (List Byte) :=
  writeParts (· >>> kDataBitsPerByte) (fun remainder _ => remainder == 0) w v

/-- The bits that `WriteSLEB128` sets after it has shifted a negative remainder. -/
def signExtend (w : ℕ) : BitVec w := ~~~((1#w <<< (w - kDataBitsPerByte)) - 1#w)

/-- `WriteSLEB128`: stops when the rest and the sign bit of the part agree. -/
def writeSLEB128 (v : BitVec w) : Option (List Byte) :=
  if v.slt 0 then
    writeParts (fun remainder => remainder.sshiftRight kDataBitsPerByte ||| signExtend w)
      (fun remainder part => remainder == ~~~0#w && part &&& kSignMask != 0) w v
  else
    writeParts (·.sshiftRight kDataBitsPerByte)
      (fun remainder part => remainder == 0#w && part &&& kSignMask == 0) w v

/-! ## Reading -/

/-- **Read stream**: `current_ - buffer_`, and the bytes from `current_` to `end_`. -/
structure ReadStream where
  position : ℕ
  pending : List Byte
deriving DecidableEq

/-- `ReadByte`. -/
def readByte (st : ReadStream) : Option (Byte × ReadStream) :=
  match st.pending with
  | [] => none
  | b :: rest => some (b, ⟨st.position + 1, rest⟩)

/-- The loop of `ReadStream::Read` when the byte `b` with data has been read. -/
def readMore (marker : Byte) (r : BitVec w) (s : ℕ) (b : Byte) (position : ℕ) :
    List Byte → Option (BitVec w × ReadStream)
  | [] => none
  | b' :: rest =>
    let r := r ||| (b.setWidth w <<< s)
    let s := s + kDataBitsPerByte
    if b'.toNat ≤ kMaxUnsignedDataPerByte then readMore marker r s b' (position + 1) rest
    else some (r ||| ((b'.setWidth w - marker.setWidth w) <<< s), ⟨position + 1, rest⟩)

/-- `ReadStream::Read(end_byte_marker)`. -/
def readMarked (marker : Byte) (st : ReadStream) : Option (BitVec w × ReadStream) := do
  let (b, st) ← readByte st
  if kMaxUnsignedDataPerByte < b.toNat then some (b.setWidth w - marker.setWidth w, st)
  else readMore marker 0 0 b st.position st.pending

/-- `Read`. -/
def read : ReadStream → Option (BitVec w × ReadStream) := readMarked kEndByteMarker

/-- `ReadUnsigned`. -/
def readUnsigned : ReadStream → Option (BitVec w × ReadStream) := readMarked kEndUnsignedByteMarker

/-- `UNROLLED_BODY` at each of `bitStarts`, then `UNROLLED_END` at `bitEnd`. -/
def unrolledFrom (marker : Byte) (bitEnd : ℕ) :
    List ℕ → BitVec w → ReadStream → Option (BitVec w × ReadStream)
  | [], r, st => do
    let (b, st) ← readByte st
    some (r ||| ((b.setWidth w - marker.setWidth w) <<< bitEnd), st)
  | bitStart :: bitStarts, r, st => do
    let (b, st) ← readByte st
    if kMaxUnsignedDataPerByte < b.toNat then
      some (r ||| ((b.setWidth w - marker.setWidth w) <<< bitStart), st)
    else unrolledFrom marker bitEnd bitStarts (r ||| (b.setWidth w <<< bitStart)) st

/-- `UNROLLED_INIT` and what follows it. -/
def unrolled (marker : Byte) (bitStarts : List ℕ) (bitEnd : ℕ) (st : ReadStream) :
    Option (BitVec w × ReadStream) := do
  let (b, st) ← readByte st
  if kMaxUnsignedDataPerByte < b.toNat then some (b.setWidth w - marker.setWidth w, st)
  else unrolledFrom marker bitEnd bitStarts (b.setWidth w) st

/-- `Read16`, unrolled. -/
def read16 : ReadStream → Option (BitVec 16 × ReadStream) := unrolled kEndByteMarker [7] 14

/-- `Read32`, unrolled. -/
def read32 : ReadStream → Option (BitVec 32 × ReadStream) := unrolled kEndByteMarker [7, 14, 21] 28

/-- `Read64`, unrolled. -/
def read64 : ReadStream → Option (BitVec 64 × ReadStream) :=
  unrolled kEndByteMarker [7, 14, 21, 28, 35, 42, 49, 56] 63

/-- The loop of `ReadLEB128` and `ReadSLEB128`: the value, the number of data bits and the last
byte. -/
def readParts (r : BitVec w) (s position : ℕ) :
    List Byte → Option ((BitVec w × ℕ × Byte) × ReadStream)
  | [] => none
  | b :: rest =>
    let r := r ||| ((b &&& kDataByteMask).setWidth w <<< s)
    let s := s + kDataBitsPerByte
    if b &&& kMoreDataMask != 0 then readParts r s (position + 1) rest
    else some ((r, s, b), ⟨position + 1, rest⟩)

/-- `ReadLEB128`. -/
def readLEB128 (st : ReadStream) : Option (BitVec w × ReadStream) := do
  let ((r, _, _), st) ← readParts 0 0 st.position st.pending
  some (r, st)

/-- `ReadSLEB128`: extends the sign of the last part. -/
def readSLEB128 (st : ReadStream) : Option (BitVec w × ReadStream) := do
  let ((r, s, b), st) ← readParts 0 0 st.position st.pending
  let signBits := if b &&& kSignMask != 0 && s < w then ~~~((1#w <<< s) - 1#w) else 0#w
  some (r ||| signBits, st)

/-! ## Sequences of values -/

/-- The sizes of the C++ integer types. -/
inductive Width where
  | w8
  | w16
  | w32
  | w64
deriving DecidableEq

/-- The number of bits. -/
def Width.bits : Width → ℕ
  | w8 => 8
  | w16 => 16
  | w32 => 32
  | w64 => 64

/-- A way to write a value, and to read it. -/
inductive Encoding where
  /-- `Write<T>` and `Read<T>`. -/
  | signed (width : Width)
  /-- `Raw<N, T>::Write` and `Raw<N, T>::Read`. -/
  | raw (width : Width)
  /-- `WriteUnsigned<T>` and `ReadUnsigned<T>`. -/
  | unsigned (width : Width)
  /-- `WriteLEB128<T>` and `ReadLEB128<T>`. -/
  | leb128 (width : Width)
  /-- `WriteSLEB128<T>` and `ReadSLEB128<T>`. -/
  | sleb128 (width : Width)
deriving DecidableEq

/-- The size of the type of an encoding. -/
def Encoding.width : Encoding → Width
  | signed width | raw width | unsigned width | leb128 width | sleb128 width => width

/-- A value of the type of an encoding. -/
abbrev Encoding.Value (e : Encoding) : Type := BitVec e.width.bits

/-- The bytes of a value. -/
def Encoding.write : (e : Encoding) → e.Value → Option (List Byte)
  | signed _, v => DataStream.write v
  | raw .w8, v => some [v]
  | raw .w16, v => DataStream.write v
  | raw .w32, v => DataStream.write v
  | raw .w64, v => DataStream.write v
  | unsigned _, v => writeUnsigned v
  | leb128 _, v => writeLEB128 v
  | sleb128 _, v => writeSLEB128 v

/-- The matching read. -/
def Encoding.read : (e : Encoding) → ReadStream → Option (e.Value × ReadStream)
  | signed _ => DataStream.read
  | raw .w8 => readByte
  | raw .w16 => read16
  | raw .w32 => read32
  | raw .w64 => read64
  | unsigned _ => readUnsigned
  | leb128 _ => readLEB128
  | sleb128 _ => readSLEB128

/-- Writes the values one after the other to a stream that holds `bytes`. -/
def writeAll : List (Σ e : Encoding, e.Value) → List Byte → Option (List Byte)
  | [], bytes => some bytes
  | ⟨e, v⟩ :: values, bytes => do
    let new ← e.write v
    writeAll values (bytes ++ new)

/-- Reads values one after the other. -/
def readAll : List Encoding → ReadStream → Option (List (Σ e : Encoding, e.Value) × ReadStream)
  | [], st => some ([], st)
  | e :: encodings, st => do
    let (v, st) ← e.read st
    let (values, st) ← readAll encodings st
    some (⟨e, v⟩ :: values, st)

end DartVm.DataStream
