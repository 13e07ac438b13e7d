import Mathlib.Algebra.Group.Nat.Defs
import DartVm.Ffi.NativeType

/-! # Argument locations

The allocator of registers and stack slots for the arguments of a C signature: `ArgumentAllocator`
and `ArgumentLocations` of `compiler/ffi/native_calling_convention.cc`.  A failed `ASSERT`, an
`UNREACHABLE()` and a shift that is not defined are `none`.

* `ArgumentAllocator`: the counters and the registers that are taken.
* `allocateArgument`: one argument, by its type.
* `argumentLocations`: the arguments of a signature. -/

namespace DartVm.Ffi

/-! ## Locations -/

/-- `FpuRegisterKind`. -/
inductive FpuRegisterKind where
  | single
  | double
  | quad
deriving DecidableEq, Repr

/-- `SizeFromFpuRegisterKind` in parts of four bytes. -/
def FpuRegisterKind.parts : FpuRegisterKind → ℕ
  | .single => 1
  | .double => 2
  | .quad => 4

/-- `FpuRegisterKindFromSize`. -/
def fpuRegisterKindFromSize (sizeInBytes : ℕ) : Option FpuRegisterKind :=
  if sizeInBytes = 16 then some .quad
  else if sizeInBytes = 8 then some .double
  else if sizeInBytes = 4 then some .single
  else none

/-- A location that is not made of others. -/
inductive SimpleLocation where
  | registers (payload container : PrimitiveType) (regs : List ℕ)
  | fpuRegisters (payload container : PrimitiveType) (kind : FpuRegisterKind) (reg : ℕ)
  | stack (payload container : NativeType) (offsetInBytes : ℕ)
deriving Repr

/-- `WithOtherNativeType`. -/
def SimpleLocation.withOtherNativeType (payload container : PrimitiveType) :
    SimpleLocation → SimpleLocation
  | .registers _ _ regs => .registers payload container regs
  | .fpuRegisters _ _ kind reg => .fpuRegisters payload container kind reg
  | .stack _ _ offset => .stack (.primitive payload) (.primitive container) offset

/-- `NativeLocation`: where an argument is passed. -/
inductive NativeLocation where
  | simple (location : SimpleLocation)
  | multiple (payload : NativeType) (locations : List SimpleLocation)
  | pointerToMemory (pointer : SimpleLocation) (payload : NativeType)
deriving Repr

/-- The locations that a location is made of. -/
def NativeLocation.parts : NativeLocation → List SimpleLocation
  | .simple location => [location]
  | .multiple _ locations => locations
  | .pointerToMemory pointer _ => [pointer]

/-! ## The allocator -/

/-- `ArgumentAllocator`: what has been handed out so far. -/
structure ArgumentAllocator where
  cpuRegsUsed : ℕ
  /-- Every bit denotes 32 bits of FPU registers; all bits block the FPU registers. -/
  fpuRegPartsUsed : BitVec 64
  stackHeightInBytes : ℕ
deriving DecidableEq, Repr

namespace ArgumentAllocator

/-- A new allocator. -/
def init : ArgumentAllocator := ⟨0, 0, 0⟩

variable (abi : Abi) (s : ArgumentAllocator)

/-- `NumFpuRegisters`. -/
def numFpuRegisters (kind : FpuRegisterKind) : ℕ :=
  if abi.arch = .arm ∧ abi.softFp then 0
  else match kind with
    | .single => abi.numSFpuArgRegs
    | .double => abi.numDFpuArgRegs
    | .quad => abi.numFpuArgRegs

/-- The bits of registers in a row, from the register with the index on. -/
def fpuMask (kind : FpuRegisterKind) (index amount : ℕ) : BitVec 64 :=
  BitVec.ofNat 64 (2 ^ (kind.parts * amount) - 1) <<< (index * kind.parts)

/-- `FirstFreeFpuRegisterIndex`, where `none` is `kNoFpuRegister`. -/
def firstFreeFpuRegisterIndex (kind : FpuRegisterKind) (amount : ℕ) : Option ℕ :=
  if s.fpuRegPartsUsed = -1 then none
  else (List.range (numFpuRegisters abi kind + 1 - amount)).find? fun index =>
    s.fpuRegPartsUsed &&& fpuMask kind index amount = 0

/-- `AllocateFpuRegisterAtIndex`; the source asserts that the registers are free. -/
def allocateFpuRegisterAtIndex (kind : FpuRegisterKind) (index amount : ℕ) :
    Option ArgumentAllocator :=
  if fpuMask kind index amount &&& s.fpuRegPartsUsed = 0 then
    some { s with fpuRegPartsUsed := s.fpuRegPartsUsed ||| fpuMask kind index amount }
  else none

/-- `BlockAllFpuRegisters`. -/
def blockAllFpuRegisters : ArgumentAllocator := { s with fpuRegPartsUsed := -1 }

/-- `AllocateCpuRegister`: on Windows the FPU register of the same number goes with it. -/
def allocateCpuRegister : Option (ℕ × ArgumentAllocator) := do
  let result ← abi.argumentRegisters[s.cpuRegsUsed]?
  if abi.argumentIntRegXorFpuReg then
    let s' ← s.allocateFpuRegisterAtIndex .quad s.cpuRegsUsed 1
    some (result, { s' with cpuRegsUsed := s.cpuRegsUsed + 1 })
  else some (result, { s with cpuRegsUsed := s.cpuRegsUsed + 1 })

/-- `AllocateStack`. -/
def allocateStack (payloadType : NativeType) : SimpleLocation × ArgumentAllocator :=
  let offset := roundUp s.stackHeightInBytes (payloadType.alignmentInBytesStack abi)
  let containerType :=
    if abi.argumentStackExtension = .extendedTo4 then payloadType.widenTo4Bytes else payloadType
  (.stack payloadType containerType offset,
    { s with stackHeightInBytes := offset + payloadType.sizeInBytes abi })

/-- `ConvertIfSoftFp`. -/
def convertIfSoftFp (rep : PrimitiveType) : PrimitiveType :=
  if abi.softFp ∧ rep.isFloat then
    if rep.sizeInBytes = 4 then .int32 else if rep.sizeInBytes = 8 then .int64 else rep
  else rep

/-- `FpuRegKind`. -/
def fpuRegKind (payloadType : PrimitiveType) : Option FpuRegisterKind :=
  if abi.arch = .arm then fpuRegisterKindFromSize payloadType.sizeInBytes else some .quad

/-- `AllocateFloat`. -/
def allocateFloat (payloadType : PrimitiveType) : Option (SimpleLocation × ArgumentAllocator) := do
  let kind ← fpuRegKind abi payloadType
  match s.firstFreeFpuRegisterIndex abi kind 1 with
  | some index =>
    let s ← s.allocateFpuRegisterAtIndex kind index 1
    let s := if abi.argumentIntRegXorFpuReg then { s with cpuRegsUsed := s.cpuRegsUsed + 1 } else s
    some (.fpuRegisters payloadType payloadType kind index, s)
  | none =>
    if abi.argumentIntRegXorFpuReg ∧ s.cpuRegsUsed ≠ abi.numArgRegs then none
    else some (s.blockAllFpuRegisters.allocateStack abi (.primitive payloadType))

/-- Skips a register where integers of eight bytes start at an even one. -/
def skipToEvenRegister : ArgumentAllocator :=
  if abi.argumentRegisterAlignment = .alignedToWordSizeBut8AlignedTo8 then
    { s with cpuRegsUsed := s.cpuRegsUsed + s.cpuRegsUsed % 2 }
  else s

/-- `AllocateInt`: on 32-bit targets a 64-bit integer takes two registers. -/
def allocateInt (payloadType : PrimitiveType) : Option (SimpleLocation × ArgumentAllocator) :=
  let converted := convertIfSoftFp abi payloadType
  let containerType :=
    if abi.argumentRegisterExtension = .extendedTo4 then converted.widenTo4Bytes else converted
  if abi.wordSize = 4 ∧ payloadType.sizeInBytes = 8 then
    let s := s.skipToEvenRegister abi
    if s.cpuRegsUsed + 2 ≤ abi.numArgRegs then do
      let (register1, s) ← s.allocateCpuRegister abi
      let (register2, s) ← s.allocateCpuRegister abi
      some (.registers payloadType containerType [register1, register2], s)
    else some (s.allocateStack abi (.primitive payloadType))
  else if payloadType.sizeInBytes ≤ abi.wordSize then
    if s.cpuRegsUsed + 1 ≤ abi.numArgRegs then do
      let (register, s) ← s.allocateCpuRegister abi
      some (.registers payloadType containerType [register], s)
    else some (s.allocateStack abi (.primitive payloadType))
  else none

/-- `AllocateArgument` for a primitive type. -/
def allocatePrimitive (payloadType : PrimitiveType) : Option (SimpleLocation × ArgumentAllocator) :=
  let converted := convertIfSoftFp abi payloadType
  if converted.isFloat then s.allocateFloat abi payloadType
  else if converted.isInt then s.allocateInt abi payloadType
  else none

/-- Calls `AllocateArgument` for a number of chunks. -/
def allocateChunks (chunkType : PrimitiveType) :
    ℕ → ArgumentAllocator → Option (List SimpleLocation × ArgumentAllocator)
  | 0, s => some ([], s)
  | n + 1, s => do
    let (location, s) ← s.allocatePrimitive abi chunkType
    let (locations, s) ← allocateChunks chunkType n s
    some (location :: locations, s)

/-! ## Compounds -/

/-- The loop of `AllocateCompound` on x64 over the word-size chunks. -/
def allocateWords (payloadType : NativeType) :
    List Range → ArgumentAllocator → Option (List SimpleLocation × ArgumentAllocator)
  | [], s => some ([], s)
  | range :: ranges, s =>
    if payloadType.containsOnlyFloats abi range then do
      let index ← s.firstFreeFpuRegisterIndex abi .quad 1
      let s ← s.allocateFpuRegisterAtIndex .quad index 1
      let (locations, s) ← allocateWords payloadType ranges s
      some (.fpuRegisters .double .double .quad index :: locations, s)
    else do
      let (register, s) ← s.allocateCpuRegister abi
      let (locations, s) ← allocateWords payloadType ranges s
      some (.registers .int64 .int64 [register] :: locations, s)

/-- A compound on the stack. -/
def onStack (payloadType : NativeType) : NativeLocation × ArgumentAllocator :=
  let (location, s) := s.allocateStack abi payloadType
  (.simple location, s)

/-- Whether `fpu_regs_available` on x64. -/
def fpuRegsAvailable (requiredXmmRegs : ℕ) : Bool :=
  match s.firstFreeFpuRegisterIndex abi .quad 1 with
  | some index => index + requiredXmmRegs ≤ abi.numFpuArgRegs
  | none => false

/-- `AllocateCompound` on x64. -/
def allocateCompoundX64 (payloadType : NativeType) :
    Option (NativeLocation × ArgumentAllocator) :=
  let size := payloadType.sizeInBytes abi
  if size ≤ 16 ∧ size > 0 ∧ ¬payloadType.containsUnalignedMembers abi 0 then
    let requiredRegs := payloadType.numberOfWordSizeChunksNotOnlyFloat abi
    let requiredXmmRegs := payloadType.numberOfWordSizeChunksOnlyFloat abi
    if s.cpuRegsUsed + requiredRegs ≤ abi.numArgRegs ∧
      s.fpuRegsAvailable abi requiredXmmRegs then do
      let (locations, s) ← allocateWords abi payloadType (payloadType.chunks abi) s
      some (.multiple payloadType locations, s)
    else some (s.onStack abi payloadType)
  else some (s.onStack abi payloadType)

/-- `PrimitiveTypeFromSizeInBytes`. -/
def primitiveTypeFromSizeInBytes (size : ℕ) : PrimitiveType :=
  if size = 1 then .uint8 else if size = 2 then .uint16 else if size = 4 then .uint32 else .int64

/-- `kFfiIntPtr`, as a primitive type. -/
def ffiIntPtr : PrimitiveType := if abi.wordSize = 8 then .int64 else .uint32

/-- `AllocateCompound` on x64 for Windows. -/
def allocateCompoundX64Windows (payloadType : NativeType) :
    Option (NativeLocation × ArgumentAllocator) :=
  let size := payloadType.sizeInBytes abi
  if size = 1 ∨ size = 2 ∨ size = 4 ∨ size = 8 then
    if s.cpuRegsUsed < abi.numArgRegs then do
      let type := primitiveTypeFromSizeInBytes size
      let (register, s) ← s.allocateCpuRegister abi
      some (.multiple payloadType [.registers type type [register]], s)
    else some (s.onStack abi payloadType)
  else if size > 0 then do
    let (pointer, s) ← s.allocatePrimitive abi (ffiIntPtr abi)
    some (.pointerToMemory pointer payloadType, s)
  else some (s.onStack abi payloadType)

/-- The part of `AllocateCompound` for homogenous floats, on arm and arm64. -/
def allocateHomogenuousFloats (payloadType : NativeType) :
    Option (NativeLocation × ArgumentAllocator) := do
  let elemType ← payloadType.firstPrimitiveMember
  let size := payloadType.sizeInBytes abi
  let elemSize := elemType.sizeInBytes
  let kind ← fpuRegKind abi elemType
  if size % elemSize = 0 then
    let numRegisters := size / elemSize
    if kind.parts * numRegisters < 31 then
      match s.firstFreeFpuRegisterIndex abi kind numRegisters with
      | some first => do
        let s ← s.allocateFpuRegisterAtIndex kind first numRegisters
        some (.multiple payloadType ((List.range numRegisters).map fun i =>
          .fpuRegisters elemType elemType kind (first + i)), s)
      | none => some (s.blockAllFpuRegisters.onStack abi payloadType)
    else none
  else none

/-- `AllocateCompound` on arm. -/
def allocateCompoundArm (payloadType : NativeType) :
    Option (NativeLocation × ArgumentAllocator) :=
  if payloadType.containsHomogenuousFloats ∧ ¬abi.softFp ∧
      payloadType.numPrimitiveMembersRecursive ≤ 4 then
    s.allocateHomogenuousFloats abi payloadType
  else
    let chunkSize := payloadType.alignmentInBytesStack abi
    if chunkSize = 4 ∨ chunkSize = 8 then do
      let size := payloadType.sizeInBytes abi
      let chunkType := if chunkSize = 4 then .int32 else .int64
      let (locations, s) ← allocateChunks abi chunkType (roundUp size chunkSize / chunkSize) s
      -- The type for a last chunk of four bytes is the chunk type again.
      let locations :=
        if chunkSize = 8 ∧ roundUp size 4 % 8 = 4 then
          locations.modifyLast (SimpleLocation.withOtherNativeType chunkType chunkType)
        else locations
      some (.multiple payloadType locations, s)
    else none

/-- `AllocateCompound` on arm64. -/
def allocateCompoundArm64 (payloadType : NativeType) :
    Option (NativeLocation × ArgumentAllocator) :=
  let size := payloadType.sizeInBytes abi
  if payloadType.containsHomogenuousFloats ∧ payloadType.numPrimitiveMembersRecursive ≤ 4 then
    s.allocateHomogenuousFloats abi payloadType
  else if size ≤ 16 then
    let requiredRegs := size / 8
    if s.cpuRegsUsed + requiredRegs ≤ abi.numArgRegs then do
      let (locations, s) ← allocateChunks abi .int64 (roundUp size 8 / 8) s
      some (.multiple payloadType locations, s)
    else
      -- Block all CPU registers.
      some ({ s with cpuRegsUsed := abi.numArgRegs }.onStack abi payloadType)
  else do
    let (pointer, s) ← s.allocatePrimitive abi .int64
    some (.pointerToMemory pointer payloadType, s)

/-- `AllocateCompound`, by target. -/
def allocateCompound (payloadType : NativeType) : Option (NativeLocation × ArgumentAllocator) :=
  match abi.arch with
  | .x64 => s.allocateCompoundX64 abi payloadType
  | .x64Windows => s.allocateCompoundX64Windows abi payloadType
  | .ia32 => some (s.onStack abi payloadType)
  | .arm => s.allocateCompoundArm abi payloadType
  | .arm64 => s.allocateCompoundArm64 abi payloadType

/-- `AllocateArgument`. -/
def allocateArgument : NativeType → Option (NativeLocation × ArgumentAllocator)
  | .primitive p => do
    let (location, s) ← s.allocatePrimitive abi p
    some (.simple location, s)
  | .compound members memberPacking => s.allocateCompound abi (.compound members memberPacking)
  -- `AsCompound` fails.
  | .array _ _ => none

/-- The loop of `ArgumentLocations`. -/
def allocateArguments : List NativeType → ArgumentAllocator → Option (List NativeLocation)
  | [], _ => some []
  | rep :: reps, s => do
    let (location, s) ← s.allocateArgument abi rep
    let locations ← allocateArguments reps s
    some (location :: locations)

end ArgumentAllocator

/-- Whether the location is the one that `PointerToMemoryResultLocation` fixes for the pointer. -/
def isResultPointer (abi : Abi) : SimpleLocation → Bool
  | .registers _ _ regs => abi.arch ≠ .ia32 ∧ regs = [abi.pointerToReturnStructRegister]
  | .fpuRegisters .. => false
  | .stack _ _ offset => abi.arch = .ia32 ∧ offset = 0

/-- The locations of a signature: of the pointer to a result in memory, if any, and of the
arguments. -/
structure SignatureLocations where
  resultPointer : Option SimpleLocation
  arguments : List NativeLocation
deriving Repr

/-- `ArgumentLocations`, for a signature whose result is in memory or not. -/
def argumentLocations (abi : Abi) (argReps : List NativeType) (pointerToMemoryResult : Bool) :
    Option SignatureLocations :=
  if pointerToMemoryResult then
    if abi.arch = .arm64 then do
      -- The pointer is in a register that is not an argument location.
      let arguments ← ArgumentAllocator.init.allocateArguments abi argReps
      let type := ArgumentAllocator.ffiIntPtr abi
      some ⟨some (.registers type type [abi.pointerToReturnStructRegister]), arguments⟩
    else do
      let (pointer, s) ← ArgumentAllocator.init.allocatePrimitive abi
        (ArgumentAllocator.ffiIntPtr abi)
      if isResultPointer abi pointer then do
        let arguments ← s.allocateArguments abi argReps
        some ⟨some pointer, arguments⟩
      else none
  else do
    let arguments ← ArgumentAllocator.init.allocateArguments abi argReps
    some ⟨none, arguments⟩

end DartVm.Ffi
