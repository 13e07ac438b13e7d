import DartVm.Ffi.Allocates

/-! # Argument locations are disjoint

The targets of the repository, and the main result: over a whole signature `ArgumentLocations` uses
every register, part of an FPU register and byte of the stack at most once.

* `targets_supported`: the targets of the repository.
* `payloadType_argumentLocations`: every argument has a location of its type.
* `argumentLocations_correct`: the locations are disjoint and aligned. -/

namespace DartVm.Ffi

open Allocation Postcondition

/-! ## Targets -/

/-- `CallingConventions` of `constants_x64.h`. -/
def x64 : Abi where
  arch := .x64
  ios := false
  softFp := false
  wordSize := 8
  -- RDI, RSI, RDX, RCX, R8, R9
  argumentRegisters := [7, 6, 2, 1, 8, 9]
  pointerToReturnStructRegister := 7
  numFpuArgRegs := 8
  numDFpuArgRegs := 0
  numSFpuArgRegs := 0
  argumentIntRegXorFpuReg := false
  argumentRegisterAlignment := .alignedToWordSize
  argumentStackAlignment := .alignedToWordSize
  fieldAlignment := .alignedToValueSize
  argumentRegisterExtension := .extendedTo4
  argumentStackExtension := .extendedTo4

/-- `CallingConventions` of `constants_x64.h` for Windows. -/
def x64Windows : Abi where
  arch := .x64Windows
  ios := false
  softFp := false
  wordSize := 8
  -- RCX, RDX, R8, R9
  argumentRegisters := [1, 2, 8, 9]
  pointerToReturnStructRegister := 1
  numFpuArgRegs := 4
  numDFpuArgRegs := 0
  numSFpuArgRegs := 0
  argumentIntRegXorFpuReg := true
  argumentRegisterAlignment := .alignedToWordSize
  argumentStackAlignment := .alignedToWordSize
  fieldAlignment := .alignedToValueSize
  argumentRegisterExtension := .notExtended
  argumentStackExtension := .notExtended

/-- `CallingConventions` of `constants_ia32.h`; Windows aligns fields in another way. -/
def ia32 (windows : Bool) : Abi where
  arch := .ia32
  ios := false
  softFp := false
  wordSize := 4
  argumentRegisters := []
  pointerToReturnStructRegister := 0
  numFpuArgRegs := 0
  numDFpuArgRegs := 0
  numSFpuArgRegs := 0
  argumentIntRegXorFpuReg := false
  argumentRegisterAlignment := .alignedToWordSize
  argumentStackAlignment := .alignedToWordSize
  fieldAlignment := if windows then .alignedToValueSize else .alignedToValueSizeBut8AlignedTo4
  argumentRegisterExtension := .notExtended
  argumentStackExtension := .extendedTo4

/-- `CallingConventions` of `constants_arm.h`. -/
def arm (ios softFp : Bool) : Abi where
  arch := .arm
  ios := ios
  softFp := softFp
  wordSize := 4
  argumentRegisters := [0, 1, 2, 3]
  pointerToReturnStructRegister := 0
  numFpuArgRegs := 4
  numDFpuArgRegs := 8
  numSFpuArgRegs := 16
  argumentIntRegXorFpuReg := false
  argumentRegisterAlignment := .alignedToWordSizeBut8AlignedTo8
  argumentStackAlignment := .alignedToWordSizeBut8AlignedTo8
  fieldAlignment := if ios then .alignedToValueSizeBut8AlignedTo4 else .alignedToValueSize
  argumentRegisterExtension := .extendedTo4
  argumentStackExtension := .extendedTo4

/-- `CallingConventions` of `constants_arm64.h`. -/
def arm64 (ios : Bool) : Abi where
  arch := .arm64
  ios := ios
  softFp := false
  wordSize := 8
  argumentRegisters := [0, 1, 2, 3, 4, 5, 6, 7]
  pointerToReturnStructRegister := 8
  numFpuArgRegs := 8
  numDFpuArgRegs := 0
  numSFpuArgRegs := 0
  argumentIntRegXorFpuReg := false
  argumentRegisterAlignment := .alignedToWordSize
  argumentStackAlignment := if ios then .alignedToValueSize else .alignedToWordSize
  fieldAlignment := .alignedToValueSize
  argumentRegisterExtension := if ios then .extendedTo4 else .notExtended
  argumentStackExtension := .notExtended

/-- The targets of the repository. -/
def targets : List Abi :=
  [x64, x64Windows, ia32 false, ia32 true, arm false false, arm false true, arm true false,
    arm true true, arm64 false, arm64 true]

/-- **Every target is supported.** -/
theorem targets_supported : ∀ abi ∈ targets, abi.Supported := by
  intro abi habi
  simp only [targets, List.mem_cons, List.not_mem_nil, or_false] at habi
  rcases habi with rfl | rfl | rfl | rfl | rfl | rfl | rfl | rfl | rfl | rfl <;>
    constructor <;> first | decide | (unfold Abi.AlignsToWords; decide)

/-! ## Signatures -/

/-- The locations that the locations of a signature are made of. -/
def SignatureLocations.parts (locations : SignatureLocations) : List SimpleLocation :=
  locations.resultPointer.toList ++ locations.arguments.flatMap NativeLocation.parts

/-- `payload_type()` of a location that is not made of others. -/
def SimpleLocation.payloadType : SimpleLocation → NativeType
  | .registers payload _ _ | .fpuRegisters payload _ _ _ => .primitive payload
  | .stack payload _ _ => payload

/-- `payload_type()`: the type of the value that is in the location, or that it points to. -/
def NativeLocation.payloadType : NativeLocation → NativeType
  | .simple location => location.payloadType
  | .multiple payload _ | .pointerToMemory _ payload => payload

/-- **The locations are disjoint**: no register, part of an FPU register or stack byte is used
twice, and stack slots are aligned. -/
structure SignatureLocations.Disjoint (abi : Abi) (locations : SignatureLocations) : Prop where
  nodup : (locations.parts.flatMap (SimpleLocation.resources abi)).Nodup
  aligned : ∀ location ∈ locations.parts, location.Aligned abi

open ArgumentAllocator

variable {abi : Abi} {abort : Prop} {s s' : ArgumentAllocator}

/-- What has been allocated is disjoint. -/
theorem disjoint_of_allocates {locations : SignatureLocations}
    (h : Allocates abi s locations.parts s') : locations.Disjoint abi :=
  ⟨h.handsOut.nodup, h.aligned⟩

/-- The register of the result pointer on arm64 is not an argument register. -/
theorem disjoint_arm64 (habi : abi.Supported) (harch : abi.arch = .arm64)
    {arguments : List NativeLocation} (type : PrimitiveType)
    (h : Allocates abi s (arguments.flatMap NativeLocation.parts) s') :
    SignatureLocations.Disjoint abi
      ⟨some (.registers type type [abi.pointerToReturnStructRegister]), arguments⟩ := by
  have hpointer := habi.pointer
  rw [if_pos harch] at hpointer
  constructor
  · refine List.nodup_append'.mpr ⟨by simp [SimpleLocation.resources], h.handsOut.nodup, ?_⟩
    intro u hu hu'
    have hregister : u = .cpuRegister abi.pointerToReturnStructRegister := by
      simpa [SimpleLocation.resources] using hu
    obtain ⟨i, -, hi⟩ : Taken abi s' (.cpuRegister abi.pointerToReturnStructRegister) :=
      hregister ▸ h.handsOut.taken u hu'
    exact hpointer (List.mem_of_getElem? hi)
  · intro location hlocation
    rcases List.mem_append.mp hlocation with hlocation | hlocation
    · obtain rfl : location = .registers type type [abi.pointerToReturnStructRegister] := by
        simpa using hlocation
      trivial
    · exact h.aligned location hlocation

/-- **The result pointer** is allocated first, where `PointerToMemoryResultLocation` expects it. -/
theorem returns_resultPointer (habi : abi.Supported) (harch : abi.arch ≠ .arm64) :
    Returns abort (init.allocatePrimitive abi (ffiIntPtr abi)) fun result =>
      isResultPointer abi result.1 ∧ Allocates abi init [result.1] result.2 := by
  obtain ⟨⟨pointer, s⟩, h1, hallocates⟩ := ((allots_primitive habi (consistent_init abi)
    (ffiIntPtr abi)).mono_abort (ffiIntPtr_ne_void abi)).exists_eq_some
  rw [h1]
  refine ⟨?_, hallocates⟩
  -- A pointer is an integer of the size of a word.
  have hsize : (ffiIntPtr abi).sizeInBytes = abi.wordSize := by
    unfold ffiIntPtr
    rcases habi.word with hword | hword <;> rw [hword] <;> decide
  have hint : (ffiIntPtr abi).isFloat = false ∧ (ffiIntPtr abi).isInt = true := by
    unfold ffiIntPtr
    split <;> decide
  have hconvert : convertIfSoftFp abi (ffiIntPtr abi) = ffiIntPtr abi := by
    rw [convertIfSoftFp, if_neg (by simp [hint.1])]
  have hpair : ¬(abi.wordSize = 4 ∧ (ffiIntPtr abi).sizeInBytes = 8) := by omega
  rw [allocatePrimitive, hconvert, hint.1, hint.2, if_neg (by decide), if_pos rfl,
    allocateInt] at h1
  rw [if_neg hpair, if_pos (Nat.le_of_eq hsize)] at h1
  have hpointer := habi.pointer
  rw [if_neg harch] at hpointer
  split at hpointer
  next hia32 =>
    rw [if_neg (by simp [init, Abi.numArgRegs, hpointer])] at h1
    rw [← (Prod.mk.inj (Option.some.inj h1)).1]
    simp [isResultPointer, hia32, init, roundUp_zero]
  next hia32 =>
    have hnonempty : 0 < abi.numArgRegs := by
      rw [Abi.numArgRegs, List.length_pos_iff]
      rintro hnil
      simp [hnil] at hpointer
    rw [if_pos (show init.cpuRegsUsed + 1 ≤ abi.numArgRegs from hnonempty)] at h1
    obtain ⟨⟨register, t⟩, h2, h1⟩ := Option.bind_eq_some_iff.mp h1
    rw [← (Prod.mk.inj (Option.some.inj h1)).1]
    have hregister := (allocateCpuRegister_cases h2).1
    rw [show init.cpuRegsUsed = 0 from rfl, ← List.head?_eq_getElem?, hpointer] at hregister
    simp [isResultPointer, hia32, ← Option.some.inj hregister]

/-- What `ArgumentLocations` returns is disjoint, and for declared types it does return. -/
theorem argumentLocations_returns (habi : abi.Supported) (argReps : List NativeType)
    (pointerToMemoryResult : Bool) :
    Returns (¬∀ type ∈ argReps, type.DeclaredArgument)
      (argumentLocations abi argReps pointerToMemoryResult) fun locations =>
        locations.Disjoint abi := by
  have hinit := allots_arguments habi (consistent_init abi) argReps
  refine returns_ite (fun _ => returns_ite (fun harch => ?_) fun harch => ?_) fun _ => ?_
  · exact hinit.bind fun _ ⟨s', h⟩ => disjoint_arm64 habi harch _ h
  · refine (returns_resultPointer habi harch).bind fun result hresult => ?_
    dsimp only
    rw [if_pos hresult.1]
    exact (allots_arguments habi hresult.2.consistent argReps).bind fun _ ⟨s', h⟩ =>
      disjoint_of_allocates (hresult.2.append h)
  · exact hinit.bind fun _ ⟨s', h⟩ => disjoint_of_allocates h

/-- For declared types `ArgumentLocations` returns. -/
theorem argumentLocations_completes (habi : abi.Supported) {argReps : List NativeType}
    (htypes : ∀ type ∈ argReps, type.DeclaredArgument) (pointerToMemoryResult : Bool) :
    ∃ locations, argumentLocations abi argReps pointerToMemoryResult = some locations := by
  have hreturns := argumentLocations_returns habi argReps pointerToMemoryResult
  obtain ⟨locations, h, -⟩ := (hreturns.mono_abort fun hnot => hnot htypes).exists_eq_some
  exact ⟨locations, h⟩

/-! ## What a location is for -/

variable {p : PrimitiveType} {type : NativeType}

/-- The location of a float holds that float type. -/
theorem payloadType_allocateFloat :
    Returns True (s.allocateFloat abi p) fun result => result.1.payloadType = .primitive p := by
  refine returns_bind_of_forall fun kind => ?_
  split
  · exact returns_bind_of_forall fun t => rfl
  · exact returns_ite (fun _ => trivial) fun _ => rfl

/-- The location of an integer holds that integer type. -/
theorem payloadType_allocateInt :
    Returns True (s.allocateInt abi p) fun result => result.1.payloadType = .primitive p := by
  refine returns_ite (fun _ => returns_ite (fun _ => ?_) fun _ => rfl) fun _ =>
    returns_ite (fun _ => returns_ite (fun _ => ?_) fun _ => rfl) fun _ => trivial
  · exact returns_bind_of_forall fun first => returns_bind_of_forall fun second => rfl
  · exact returns_bind_of_forall fun register => rfl

/-- The location of a primitive type holds that type. -/
theorem payloadType_allocatePrimitive :
    Returns True (s.allocatePrimitive abi p) fun result => result.1.payloadType = .primitive p :=
  returns_ite (fun _ => payloadType_allocateFloat) fun _ =>
    returns_ite (fun _ => payloadType_allocateInt) fun _ => trivial

/-- The location of a compound of floats holds the compound. -/
theorem payloadType_allocateHomogenuousFloats :
    Returns True (s.allocateHomogenuousFloats abi type) fun result =>
      result.1.payloadType = type := by
  refine returns_bind_of_forall fun elemType => returns_bind_of_forall fun kind =>
    returns_ite (fun _ => returns_ite (fun _ => ?_) fun _ => trivial) fun _ => trivial
  split
  · exact returns_bind_of_forall fun t => rfl
  · rfl

/-- **`AllocateCompound`** places the compound itself, its words, or a pointer to it. -/
theorem payloadType_allocateCompound :
    Returns True (s.allocateCompound abi type) fun result => result.1.payloadType = type := by
  unfold allocateCompound
  split
  · refine returns_ite (fun _ => returns_ite (fun _ => ?_) fun _ => rfl) fun _ => rfl
    exact returns_bind_of_forall fun words => rfl
  · refine returns_ite (fun _ => returns_ite (fun _ => ?_) fun _ => rfl) fun _ =>
      returns_ite (fun _ => ?_) fun _ => rfl
    · exact returns_bind_of_forall fun register => rfl
    · exact returns_bind_of_forall fun pointer => rfl
  · rfl
  · refine returns_ite (fun _ => payloadType_allocateHomogenuousFloats) fun _ =>
      returns_ite (fun _ => ?_) fun _ => trivial
    exact returns_bind_of_forall fun chunks => rfl
  · refine returns_ite (fun _ => payloadType_allocateHomogenuousFloats) fun _ =>
      returns_ite (fun _ => returns_ite (fun _ => ?_) fun _ => rfl) fun _ => ?_
    · exact returns_bind_of_forall fun chunks => rfl
    · exact returns_bind_of_forall fun pointer => rfl

/-- The location of an argument holds its type. -/
theorem payloadType_allocateArgument :
    Returns True (s.allocateArgument abi type) fun result => result.1.payloadType = type := by
  cases type with
  | primitive p => exact payloadType_allocatePrimitive.bind fun location h => h
  | compound members packing => exact payloadType_allocateCompound
  | array element length => trivial

/-- **Each argument has a location of its type**, in order. -/
theorem payloadType_allocateArguments (argReps : List NativeType) :
    Returns True (s.allocateArguments abi argReps) fun locations =>
      locations.map NativeLocation.payloadType = argReps := by
  induction argReps generalizing s with
  | nil => rfl
  | cons type argReps ih =>
    refine payloadType_allocateArgument.bind fun first hfirst => ih.bind fun rest hrest => ?_
    rw [returns_some, List.map_cons, hfirst, hrest]

/-- **One location for each argument**, which holds its type. -/
theorem payloadType_argumentLocations (argReps : List NativeType) (pointerToMemoryResult : Bool) :
    Returns True (argumentLocations abi argReps pointerToMemoryResult) fun locations =>
      locations.arguments.map NativeLocation.payloadType = argReps := by
  refine returns_ite (fun _ => returns_ite (fun _ => ?_) fun _ => ?_) fun _ => ?_
  · exact (payloadType_allocateArguments argReps).bind fun _ h => h
  · refine returns_bind_of_forall fun pointer => returns_ite (fun _ => ?_) fun _ => trivial
    exact (payloadType_allocateArguments argReps).bind fun _ h => h
  · exact (payloadType_allocateArguments argReps).bind fun _ h => h

/-- **`ArgumentLocations`**, on every supported target, for all argument types, with or without a
result in memory: every CPU register and every 32-bit part of an FPU register is used at most once,
stack slots are disjoint and aligned, and each argument has a location of its type. For the types
that signatures declare it does return. -/
theorem argumentLocations_correct (abi : Abi) (habi : abi.Supported) (argReps : List NativeType)
    (pointerToMemoryResult : Bool) :
    (∀ locations, argumentLocations abi argReps pointerToMemoryResult = some locations →
      locations.Disjoint abi ∧ locations.arguments.map NativeLocation.payloadType = argReps) ∧
    ((∀ type ∈ argReps, type.DeclaredArgument) →
      ∃ locations, argumentLocations abi argReps pointerToMemoryResult = some locations) := by
  refine ⟨fun locations h => ?_, fun htypes => ?_⟩
  · exact ⟨(argumentLocations_returns habi argReps pointerToMemoryResult).of_eq_some h,
      (payloadType_argumentLocations argReps pointerToMemoryResult).of_eq_some h⟩
  · exact argumentLocations_completes habi htypes pointerToMemoryResult

/-- A compound that is split over both kinds of registers on x64, after a small integer. -/
theorem argumentLocations_correct_x64 :
    ∃ locations, argumentLocations x64
      [.primitive .int8,
        .compound [.primitive .float, .primitive .float, .primitive .int32] 0x7FFFFFFF]
      true = some locations ∧ locations.Disjoint x64 ∧ locations.arguments.length = 2 := by
  have hsupported : x64.Supported := targets_supported x64 (by simp [targets])
  have hcorrect := argumentLocations_correct x64 hsupported
    [.primitive .int8,
      .compound [.primitive .float, .primitive .float, .primitive .int32] 0x7FFFFFFF]
    true
  obtain ⟨locations, hlocations⟩ := hcorrect.2 (by
    intro type htype
    simp only [List.mem_cons, List.not_mem_nil, or_false] at htype
    rcases htype with rfl | rfl <;>
      simp [NativeType.DeclaredArgument, NativeType.Declared, AllDeclared, packings])
  obtain ⟨hdisjoint, htypes⟩ := hcorrect.1 locations hlocations
  exact ⟨locations, hlocations, hdisjoint, by simpa using congrArg List.length htypes⟩

end DartVm.Ffi
