import Mathlib.Data.List.Basic

/-! # Native types

The types of C signatures, with the sizes and alignments that an ABI gives them:
`compiler/ffi/native_type.cc`.  The constants of `CallingConventions` are the fields of `Abi`.

* `Abi`: the constants of a target.
* `NativeType`: the types, with `sizeInBytes` and their alignments. -/

namespace DartVm.Ffi

/-! ## ABIs -/

/-- How values are aligned. -/
inductive AlignmentStrategy where
  | alignedToWordSize
  | alignedToWordSizeBut8AlignedTo8
  | alignedToValueSize
  | alignedToValueSizeBut8AlignedTo4
deriving DecidableEq, Repr

/-- How small integers are extended. -/
inductive ExtensionStrategy where
  | notExtended
  | extendedTo4
deriving DecidableEq, Repr

/-- The architectures that have a function `AllocateCompound` of their own. -/
inductive Arch where
  | x64
  | x64Windows
  | ia32
  | arm
  | arm64
deriving DecidableEq, Repr

/-- The constants of a target. -/
structure Abi where
  arch : Arch
  /-- `TARGET_OS_MACOS_IOS`. -/
  ios : Bool
  softFp : Bool
  wordSize : ℕ
  /-- `ArgumentRegisters`, of which there are `kNumArgRegs`. -/
  argumentRegisters : List ℕ
  /-- `kPointerToReturnStructRegisterCall`. -/
  pointerToReturnStructRegister : ℕ
  numFpuArgRegs : ℕ
  numDFpuArgRegs : ℕ
  numSFpuArgRegs : ℕ
  argumentIntRegXorFpuReg : Bool
  argumentRegisterAlignment : AlignmentStrategy
  argumentStackAlignment : AlignmentStrategy
  fieldAlignment : AlignmentStrategy
  argumentRegisterExtension : ExtensionStrategy
  argumentStackExtension : ExtensionStrategy
deriving DecidableEq, Repr

/-- `kNumArgRegs`. -/
def Abi.numArgRegs (abi : Abi) : ℕ := abi.argumentRegisters.length

/-! ## Types -/

/-- `PrimitiveType`. -/
inductive PrimitiveType where
  | int8 | uint8 | int16 | uint16 | int32 | uint32 | int64 | uint64
  | float | double | halfDouble
  | void
deriving DecidableEq, Repr

namespace PrimitiveType

/-- `fundamental_size_in_bytes`. -/
def sizeInBytes : PrimitiveType → ℕ
  | .int8 | .uint8 => 1
  | .int16 | .uint16 => 2
  | .int32 | .uint32 => 4
  | .int64 | .uint64 => 8
  | .float => 4
  | .double => 8
  | .halfDouble => 4
  | .void => 0

/-- `IsInt`. -/
def isInt : PrimitiveType → Bool
  | .int8 | .uint8 | .int16 | .uint16 | .int32 | .uint32 | .int64 | .uint64 => true
  | _ => false

/-- `IsFloat`. -/
def isFloat : PrimitiveType → Bool
  | .float | .double | .halfDouble => true
  | _ => false

/-- `IsSigned`. -/
def isSigned : PrimitiveType → Bool
  | .int8 | .int16 | .int32 | .int64 | .float | .double | .halfDouble => true
  | _ => false

/-- `NativePrimitiveType::AlignmentInBytesStack`; the last case stands for the value size. -/
def alignmentInBytesStack (abi : Abi) (p : PrimitiveType) : ℕ :=
  match abi.argumentStackAlignment with
  | .alignedToWordSize => abi.wordSize
  | .alignedToWordSizeBut8AlignedTo8 => if p.sizeInBytes = 8 then 8 else abi.wordSize
  | _ => p.sizeInBytes

/-- `AlignmentInBytesField` of a primitive type. -/
def alignmentInBytesField (abi : Abi) (p : PrimitiveType) : ℕ :=
  match abi.fieldAlignment with
  | .alignedToValueSizeBut8AlignedTo4 => if p.sizeInBytes = 8 then 4 else p.sizeInBytes
  | _ => p.sizeInBytes

/-- `WidenTo4Bytes`. -/
def widenTo4Bytes (p : PrimitiveType) : PrimitiveType :=
  if p.isInt ∧ p.sizeInBytes ≤ 2 then
    if p.isSigned then .int32 else .uint32
  else p

end PrimitiveType

/-- `NativeType`.  A pointer is an integer. -/
inductive NativeType where
  | primitive (representation : PrimitiveType)
  | array (elementType : NativeType) (length : ℕ)
  /-- A compound, with the packing of its members. -/
  | compound (members : List NativeType) (memberPacking : ℕ)
deriving Repr

/-- `Utils::RoundUp`. -/
def roundUp (x alignment : ℕ) : ℕ := (x + alignment - 1) / alignment * alignment

/-- What `NativeCompoundType` keeps of its layout. -/
structure Layout where
  size : ℕ
  alignmentField : ℕ
  alignmentStack : ℕ
  memberOffsets : List ℕ
deriving DecidableEq, Repr

/-- One round of the loop of `FromNativeTypes`; until its end `size` is the offset. -/
def Layout.addMember (abi : Abi) (memberPacking : ℕ) (layout member : Layout) : Layout :=
  let memberAlignField := min member.alignmentField memberPacking
  let memberAlignStack :=
    if member.alignmentStack > memberPacking ∧ memberPacking < abi.wordSize then abi.wordSize
    else member.alignmentStack
  let offset := roundUp layout.size memberAlignField
  { size := offset + member.size
    alignmentField := max layout.alignmentField memberAlignField
    alignmentStack := max layout.alignmentStack memberAlignStack
    memberOffsets := layout.memberOffsets ++ [offset] }

mutual

/-- The loop of `ContainsHomogenuousFloatsRecursive` on one type: `only_float` and `only_double`. -/
def homogenuousFloats : NativeType → Bool × Bool → Bool × Bool
  | .primitive p, (onlyFloat, onlyDouble) => (onlyFloat && p = .float, onlyDouble && p = .double)
  | .array elementType _, st =>
    match elementType with
    | .primitive p => (st.1 && p = .float, st.2 && p = .double)
    | .array _ _ => st
    | .compound members _ => containsHomogenuousFloatsRecursive members st
  | .compound members _, st => containsHomogenuousFloatsRecursive members st

/-- `ContainsHomogenuousFloatsRecursive`, with both flags as state. -/
def containsHomogenuousFloatsRecursive : List NativeType → Bool × Bool → Bool × Bool
  | [], st => st
  | type :: types, st => containsHomogenuousFloatsRecursive types (homogenuousFloats type st)

end

/-- `ContainsHomogenuousFloatsInternal`. -/
def containsHomogenuousFloatsInternal (types : List NativeType) : Bool :=
  let (onlyFloat, onlyDouble) := containsHomogenuousFloatsRecursive types (true, true)
  (onlyDouble || onlyFloat) && 0 < types.length

mutual

/-- The layout of a type. -/
def NativeType.layout (abi : Abi) : NativeType → Layout
  | .primitive p => ⟨p.sizeInBytes, p.alignmentInBytesField abi, p.alignmentInBytesStack abi, []⟩
  | .array elementType length =>
    let element := elementType.layout abi
    ⟨element.size * length, element.alignmentField, element.alignmentStack, []⟩
  | .compound members memberPacking =>
    let alignmentStack :=
      -- On iOS structs are aligned to word size, except for homogenous floats.
      if abi.ios ∧ abi.arch = .arm64 ∧ ¬containsHomogenuousFloatsInternal members then abi.wordSize
      else 1
    let layout := layoutMembers abi memberPacking members ⟨0, 1, alignmentStack, []⟩
    { layout with size := roundUp layout.size layout.alignmentField }

/-- The loop of `FromNativeTypes`. -/
def layoutMembers (abi : Abi) (memberPacking : ℕ) : List NativeType → Layout → Layout
  | [], layout => layout
  | member :: members, layout =>
    layoutMembers abi memberPacking members (layout.addMember abi memberPacking (member.layout abi))

end

/-- `SizeInBytes`. -/
def NativeType.sizeInBytes (abi : Abi) (type : NativeType) : ℕ := (type.layout abi).size

/-- `AlignmentInBytesStack`. -/
def NativeType.alignmentInBytesStack (abi : Abi) (type : NativeType) : ℕ :=
  (type.layout abi).alignmentStack

/-- `WidenTo4Bytes`, for primitive types only. -/
def NativeType.widenTo4Bytes : NativeType → NativeType
  | .primitive p => .primitive p.widenTo4Bytes
  | type => type

/-! ## Members -/

mutual

/-- `NumPrimitiveMembersRecursive`. -/
def NativeType.numPrimitiveMembersRecursive : NativeType → ℕ
  | .primitive _ => 1
  | .array elementType length => elementType.numPrimitiveMembersRecursive * length
  | .compound members _ => sumPrimitiveMembers members

/-- The loop of `NumPrimitiveMembersRecursive`. -/
def sumPrimitiveMembers : List NativeType → ℕ
  | [] => 0
  | member :: members => member.numPrimitiveMembersRecursive + sumPrimitiveMembers members

end

mutual

/-- `FirstPrimitiveMember`. -/
def NativeType.firstPrimitiveMember : NativeType → Option PrimitiveType
  | .primitive p => some p
  | .array elementType _ => elementType.firstPrimitiveMember
  | .compound members _ => firstOfMembers members

/-- The loop of `FirstPrimitiveMember`, which does not end in `UNREACHABLE()`. -/
def firstOfMembers : List NativeType → Option PrimitiveType
  | [] => none
  | member :: members =>
    if member.numPrimitiveMembersRecursive ≥ 1 then member.firstPrimitiveMember
    else firstOfMembers members

end

/-- `Range` of bytes. -/
structure Range where
  start : ℕ
  endExclusive : ℕ
deriving DecidableEq, Repr

namespace Range

/-- `Range::After`. -/
def after (r other : Range) : Bool := other.endExclusive ≤ r.start

/-- `Range::Overlaps`. -/
def overlaps (r other : Range) : Bool := !r.after other && !other.after r

/-- `Range::Intersect`; the source asserts that the ranges overlap. -/
def intersect (r other : Range) : Range :=
  ⟨max r.start other.start, min r.endExclusive other.endExclusive⟩

/-- `Range::Translate` by a negative delta. -/
def back (r : Range) (delta : ℕ) : Range := ⟨r.start - delta, r.endExclusive - delta⟩

end Range

mutual

/-- `ContainsOnlyFloats`: all fields in the range are floats. -/
def NativeType.containsOnlyFloats (abi : Abi) : NativeType → Range → Bool
  | .primitive p, _ => p.isFloat
  | .array elementType _, range =>
    let elementSize := elementType.sizeInBytes abi
    let first := range.start / elementSize
    let last := (range.endExclusive - 1) / elementSize
    let numElements := last - first + 1
    let inElement (i : ℕ) : Range :=
      (range.intersect ⟨i * elementSize, i * elementSize + elementSize⟩).back (i * elementSize)
    if numElements > 2 then elementType.containsOnlyFloats abi ⟨0, elementSize⟩
    else if !elementType.containsOnlyFloats abi (inElement first) then false
    else if numElements = 2 then elementType.containsOnlyFloats abi (inElement (first + 1))
    else true
  | .compound members memberPacking, range =>
    membersContainOnlyFloats abi members
      (NativeType.layout abi (.compound members memberPacking)).memberOffsets range

/-- The loop of `NativeCompoundType::ContainsOnlyFloats`. -/
def membersContainOnlyFloats (abi : Abi) : List NativeType → List ℕ → Range → Bool
  | [], _, _ => true
  | _ :: _, [], _ => true
  | member :: members, offset :: offsets, range =>
    let memberRange : Range := ⟨offset, offset + member.sizeInBytes abi⟩
    if range.overlaps memberRange &&
        !member.containsOnlyFloats abi ((memberRange.intersect range).back offset) then false
    else if memberRange.after range then true
    else membersContainOnlyFloats abi members offsets range

end

mutual

/-- `ContainsUnalignedMembers`: looks at two elements of an array at most. -/
def NativeType.containsUnalignedMembers (abi : Abi) : NativeType → ℕ → Bool
  | .primitive p, offset => offset % p.alignmentInBytesField abi ≠ 0
  | .array elementType length, offset =>
    (List.range (min length 2)).any fun i =>
      elementType.containsUnalignedMembers abi (offset + i * elementType.sizeInBytes abi)
  | .compound members memberPacking, offset =>
    membersContainUnaligned abi members
      (NativeType.layout abi (.compound members memberPacking)).memberOffsets offset

/-- The loop of `NativeCompoundType::ContainsUnalignedMembers`. -/
def membersContainUnaligned (abi : Abi) : List NativeType → List ℕ → ℕ → Bool
  | [], _, _ => false
  | _ :: _, [], _ => false
  | member :: members, memberOffset :: offsets, offset =>
    member.containsUnalignedMembers abi (offset + memberOffset) ||
      membersContainUnaligned abi members offsets offset

end

/-- The word-size chunks of a compound. -/
def NativeType.chunks (abi : Abi) (type : NativeType) : List Range :=
  let size := type.sizeInBytes abi
  (List.range (roundUp size abi.wordSize / abi.wordSize)).map fun i =>
    ⟨i * abi.wordSize, min size (i * abi.wordSize + abi.wordSize)⟩

/-- `NumberOfWordSizeChunksOnlyFloat`. -/
def NativeType.numberOfWordSizeChunksOnlyFloat (abi : Abi) (type : NativeType) : ℕ :=
  (type.chunks abi).countP fun range => type.containsOnlyFloats abi range

/-- `NumberOfWordSizeChunksNotOnlyFloat`. -/
def NativeType.numberOfWordSizeChunksNotOnlyFloat (abi : Abi) (type : NativeType) : ℕ :=
  roundUp (type.sizeInBytes abi) abi.wordSize / abi.wordSize -
    type.numberOfWordSizeChunksOnlyFloat abi

/-- `ContainsHomogenuousFloats`. -/
def NativeType.containsHomogenuousFloats : NativeType → Bool
  | .compound members _ => containsHomogenuousFloatsInternal members
  | _ => false

end DartVm.Ffi
