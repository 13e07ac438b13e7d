import DartVm.Ffi.CallingConvention
import DartVm.Ffi.Layout
import DartVm.Library.Allocation
import Mathlib.Data.List.Range

/-! # Resources of argument locations

The registers, parts of FPU registers and bytes of the stack that locations use.  Every function of
`ArgumentAllocator` hands out resources that were free.

* `Abi.Supported`: what the targets have in common.
* `handsOut_cpu`, `handsOut_fpu`, `handsOut_stack`: the three kinds of resources. -/

namespace DartVm.Ffi

open Allocation BitVec List

/-- A resource that a location uses. -/
inductive Resource where
  | cpuRegister (reg : ℕ)
  /-- 32 bits of an FPU register. -/
  | fpuPart (part : ℕ)
  | stackByte (offset : ℕ)
deriving DecidableEq, Repr

/-- The resources of a location; a stack slot has the size of its container. -/
def SimpleLocation.resources (abi : Abi) : SimpleLocation → List Resource
  | .registers _ _ regs => regs.map .cpuRegister
  | .fpuRegisters _ _ kind reg =>
    (List.range kind.parts).map fun i => .fpuPart (reg * kind.parts + i)
  | .stack _ container offset =>
    (List.range (container.sizeInBytes abi)).map fun i => .stackByte (offset + i)

/-- A stack slot is aligned as its type asks for. -/
def SimpleLocation.Aligned (abi : Abi) : SimpleLocation → Prop
  | .stack payload _ offset => offset % payload.alignmentInBytesStack abi = 0
  | _ => True

/-- **Supported targets**: what the constants of the targets have in common. -/
structure Abi.Supported (abi : Abi) : Prop where
  registers_nodup : abi.argumentRegisters.Nodup
  word : abi.wordSize = 4 ∨ abi.wordSize = 8
  word_of_arch : abi.wordSize = 8 ↔ abi.arch = .x64 ∨ abi.arch = .x64Windows ∨ abi.arch = .arm64
  /-- Small integers on the stack are only extended where slots are words. -/
  extended : abi.argumentStackExtension = .extendedTo4 → abi.AlignsToWords
  arm_aligned : abi.arch = .arm → abi.AlignsToWords
  soft_fp : abi.softFp → abi.arch = .arm
  quads : abi.numFpuArgRegs * 4 ≤ 32
  doubles : abi.numDFpuArgRegs * 2 ≤ 32
  singles : abi.numSFpuArgRegs ≤ 32
  /-- Where arguments use a CPU register or an FPU register, there are as many of each. -/
  xor_regs : abi.argumentIntRegXorFpuReg → abi.numFpuArgRegs = abi.numArgRegs
  xor_arch : abi.argumentIntRegXorFpuReg ↔ abi.arch = .x64Windows
  pointer : if abi.arch = .arm64 then abi.pointerToReturnStructRegister ∉ abi.argumentRegisters
    else if abi.arch = .ia32 then abi.argumentRegisters = []
    else abi.argumentRegisters.head? = some abi.pointerToReturnStructRegister

namespace Abi.Supported

variable {abi : Abi}

/-- Words are not empty. -/
theorem word_pos (h : abi.Supported) : 0 < abi.wordSize := by
  have := h.word
  omega

/-- All FPU argument registers fit the bit mask. -/
theorem fpu_parts (h : abi.Supported) (kind : FpuRegisterKind) :
    ArgumentAllocator.numFpuRegisters abi kind * kind.parts ≤ 32 := by
  have h1 := h.quads
  have h2 := h.doubles
  have h3 := h.singles
  unfold ArgumentAllocator.numFpuRegisters
  split
  · omega
  · cases kind <;> simp only [FpuRegisterKind.parts] <;> omega

end Abi.Supported

namespace ArgumentAllocator

variable {abi : Abi} {s s' : ArgumentAllocator}

/-! ## What is taken -/

/-- The end of the part of the stack that is taken. -/
def stackEnd (abi : Abi) (s : ArgumentAllocator) : ℕ :=
  if abi.argumentStackExtension = .extendedTo4 then roundUp s.stackHeightInBytes 4
  else s.stackHeightInBytes

/-- The resources that an allocator has handed out or blocked. -/
def Taken (abi : Abi) (s : ArgumentAllocator) : Resource → Prop
  | .cpuRegister reg => ∃ i < s.cpuRegsUsed, abi.argumentRegisters[i]? = some reg
  | .fpuPart part => s.fpuRegPartsUsed.getLsbD part
  | .stackByte offset => offset < stackEnd abi s

/-- More use takes no less. -/
theorem taken_mono (hcpu : s.cpuRegsUsed ≤ s'.cpuRegsUsed)
    (hfpu : ∀ part, s.fpuRegPartsUsed.getLsbD part → s'.fpuRegPartsUsed.getLsbD part)
    (hstack : s.stackHeightInBytes ≤ s'.stackHeightInBytes) (u : Resource) (hu : Taken abi s u) :
    Taken abi s' u := by
  cases u with
  | cpuRegister reg =>
    obtain ⟨i, hi, hreg⟩ := hu
    exact ⟨i, Nat.lt_of_lt_of_le hi hcpu, hreg⟩
  | fpuPart part => exact hfpu part hu
  | stackByte offset =>
    refine Nat.lt_of_lt_of_le hu ?_
    unfold stackEnd
    split
    · exact roundUp_mono 4 (by decide) hstack
    · exact hstack

/-! ## FPU registers -/

/-- The bits of the mask of an FPU register. -/
theorem getLsbD_fpuMask (kind : FpuRegisterKind) (index amount : ℕ) {part : ℕ} (hpart : part < 64) :
    (fpuMask kind index amount).getLsbD part =
      decide (index * kind.parts ≤ part ∧ part < index * kind.parts + kind.parts * amount) := by
  rw [fpuMask, getLsbD_shiftLeft, getLsbD_ofNat, Nat.testBit_two_pow_sub_one]
  rw [Bool.eq_iff_iff]
  simp only [Bool.and_eq_true, Bool.not_eq_true', decide_eq_true_eq, decide_eq_false_iff_not]
  omega

/-- Masks are disjoint if they share no part. -/
theorem and_eq_zero_iff (x y : BitVec 64) :
    x &&& y = 0 ↔ ∀ part < 64, ¬(x.getLsbD part ∧ y.getLsbD part) := by
  constructor
  · intro h part _ hboth
    have hbit := congrArg (fun z => z.getLsbD part) h
    simp [getLsbD_and, hboth] at hbit
  intro h
  apply eq_of_getLsbD_eq
  intro part hpart
  rw [getLsbD_and, ofNat_eq_ofNat, getLsbD_zero, Bool.eq_false_iff, ne_eq, Bool.and_eq_true]
  exact h part hpart

/-- The parts of FPU registers in a row. -/
def fpuParts (kind : FpuRegisterKind) (index amount : ℕ) : List Resource :=
  (List.range (kind.parts * amount)).map fun i => .fpuPart (index * kind.parts + i)

variable {kind : FpuRegisterKind} {amount index reg : ℕ}

/-- The parts of an FPU register. -/
theorem mem_fpuParts {u : Resource} :
    u ∈ fpuParts kind index amount ↔ ∃ part, u = .fpuPart part ∧ index * kind.parts ≤ part ∧
      part < index * kind.parts + kind.parts * amount := by
  rw [fpuParts, mem_map]
  constructor
  · rintro ⟨i, hi, rfl⟩
    rw [mem_range] at hi
    exact ⟨_, rfl, by omega, by omega⟩
  · rintro ⟨part, rfl, hle, hlt⟩
    exact ⟨part - index * kind.parts, by rw [mem_range]; omega, by rw [Nat.add_sub_cancel' hle]⟩

/-- **`AllocateFpuRegisterAtIndex`** hands out the parts of the registers. -/
theorem handsOut_fpu (hbound : index * kind.parts + kind.parts * amount ≤ 64)
    (h : s.allocateFpuRegisterAtIndex kind index amount = some s') :
    HandsOut (Taken abi) s (fpuParts kind index amount) s' := by
  rw [allocateFpuRegisterAtIndex] at h
  split at h
  next hfree =>
    cases h
    rw [and_eq_zero_iff] at hfree
    refine ⟨?_, fun u hu => ?_, fun u hu => ?_, taken_mono (le_rfl) (fun part hpart => ?_)
      (le_rfl)⟩
    · exact nodup_range.map fun i j hij => by simpa using hij
    · obtain ⟨part, rfl, hle, hlt⟩ := mem_fpuParts.mp hu
      have hmask : (fpuMask kind index amount).getLsbD part := by
        rw [getLsbD_fpuMask kind index amount (by omega)]
        exact decide_eq_true ⟨hle, hlt⟩
      exact fun htaken => hfree part (by omega) ⟨hmask, htaken⟩
    · obtain ⟨part, rfl, hle, hlt⟩ := mem_fpuParts.mp hu
      change (s.fpuRegPartsUsed ||| fpuMask kind index amount).getLsbD part = true
      rw [getLsbD_or, getLsbD_fpuMask kind index amount (by omega), Bool.or_eq_true]
      exact .inr (decide_eq_true ⟨hle, hlt⟩)
    · rw [getLsbD_or, hpart, Bool.true_or]
  next => cases h

/-- The first free register is an argument register. -/
theorem firstFree_bound (h : s.firstFreeFpuRegisterIndex abi kind amount = some index) :
    index + amount ≤ numFpuRegisters abi kind := by
  rw [firstFreeFpuRegisterIndex] at h
  split at h
  · cases h
  · have hmem := mem_of_find?_eq_some h
    rw [mem_range] at hmem
    omega

/-- The first free register can be allocated. -/
theorem firstFree_free (h : s.firstFreeFpuRegisterIndex abi kind amount = some index) :
    ∃ s', s.allocateFpuRegisterAtIndex kind index amount = some s' := by
  rw [firstFreeFpuRegisterIndex] at h
  split at h
  · cases h
  · have hfree := find?_some h
    rw [decide_eq_true_eq, BitVec.and_comm] at hfree
    rw [allocateFpuRegisterAtIndex, if_pos hfree]
    exact ⟨_, rfl⟩

/-- Blocking the FPU registers hands out nothing. -/
theorem handsOut_block : HandsOut (Taken abi) s [] s.blockAllFpuRegisters := by
  refine handsOut_nil (taken_mono (le_rfl) (fun part hpart => ?_) (le_rfl))
  have hlt := lt_of_getLsbD hpart
  change (-1 : BitVec 64).getLsbD part = true
  rw [show (-1 : BitVec 64) = BitVec.allOnes 64 from rfl, getLsbD_allOnes]
  exact decide_eq_true hlt

/-! ## CPU registers -/

/-- What allocating a CPU register does. -/
theorem allocateCpuRegister_cases (h : s.allocateCpuRegister abi = some (reg, s')) :
    abi.argumentRegisters[s.cpuRegsUsed]? = some reg ∧ s'.cpuRegsUsed = s.cpuRegsUsed + 1 ∧
      s'.stackHeightInBytes = s.stackHeightInBytes ∧
      (∀ part, s.fpuRegPartsUsed.getLsbD part → s'.fpuRegPartsUsed.getLsbD part) := by
  rw [allocateCpuRegister] at h
  cases hreg : abi.argumentRegisters[s.cpuRegsUsed]? with
  | none => simp [hreg] at h
  | some result =>
    simp only [hreg, Option.bind_eq_bind, Option.bind_some] at h
    split at h
    · cases hfpu : s.allocateFpuRegisterAtIndex .quad s.cpuRegsUsed 1 with
      | none => simp [hfpu] at h
      | some t =>
        simp only [hfpu, Option.bind_some, Option.some.injEq, Prod.mk.injEq] at h
        obtain ⟨rfl, rfl⟩ := h
        rw [allocateFpuRegisterAtIndex] at hfpu
        split at hfpu
        · cases hfpu
          refine ⟨rfl, rfl, rfl, fun part hpart => ?_⟩
          rw [getLsbD_or, hpart, Bool.true_or]
        · cases hfpu
    · obtain ⟨rfl, rfl⟩ := h
      exact ⟨rfl, rfl, rfl, fun _ hpart => hpart⟩

/-- **`AllocateCpuRegister`** hands out the next register. -/
theorem handsOut_cpu (habi : abi.Supported)
    (h : s.allocateCpuRegister abi = some (reg, s')) :
    HandsOut (Taken abi) s [.cpuRegister reg] s' := by
  obtain ⟨hreg, hcpu, hstack, hfpu⟩ := allocateCpuRegister_cases h
  refine ⟨nodup_singleton _, fun u hu => ?_, fun u hu => ?_,
    taken_mono (by omega) hfpu (Nat.le_of_eq hstack.symm)⟩
  · obtain rfl := mem_singleton.mp hu
    rintro ⟨i, hi, hreg'⟩
    have hlt := (List.getElem?_eq_some_iff.mp hreg).1
    exact nodup_iff_getElem?_ne_getElem?.mp habi.registers_nodup i s.cpuRegsUsed hi hlt
      (hreg'.trans hreg.symm)
  · obtain rfl := mem_singleton.mp hu
    exact ⟨s.cpuRegsUsed, by omega, hreg⟩

/-! ## The stack -/

/-- A type that `AllocateStack` is called with. -/
def IsArgument (type : NativeType) : Prop :=
  (∃ p, type = .primitive p ∧ 0 < p.sizeInBytes) ∨
    ∃ members packing, type = .compound members packing

/-- Widening changes the size to four bytes only. -/
theorem size_widenTo4Bytes (abi : Abi) (type : NativeType) :
    type.widenTo4Bytes.sizeInBytes abi = type.sizeInBytes abi ∨
      type.widenTo4Bytes.sizeInBytes abi = 4 ∧ 0 < type.sizeInBytes abi := by
  cases type with
  | primitive p =>
    simp only [NativeType.widenTo4Bytes, NativeType.sizeInBytes, NativeType.layout]
    cases p <;> decide
  | array e n | compound members packing => exact .inl rfl

/-- **`AllocateStack`** hands out the bytes of the container. -/
theorem handsOut_stack (habi : abi.Supported) {type : NativeType} (htype : IsArgument type) :
    HandsOut (Taken abi) s ((s.allocateStack abi type).1.resources abi)
      (s.allocateStack abi type).2 ∧
      (s.allocateStack abi type).1.Aligned abi := by
  have hpos := alignmentInBytesStack_pos habi.word_pos htype
  have hle := le_roundUp s.stackHeightInBytes hpos
  have hbytes : ∀ u ∈ (s.allocateStack abi type).1.resources abi, ∃ offset, u = .stackByte offset ∧
      stackEnd abi s ≤ offset ∧ offset < stackEnd abi (s.allocateStack abi type).2 := by
    intro u hu
    rw [allocateStack, SimpleLocation.resources, mem_map] at hu
    obtain ⟨i, hi, rfl⟩ := hu
    rw [mem_range] at hi
    refine ⟨_, rfl, ?_⟩
    rw [stackEnd, stackEnd, allocateStack]
    dsimp only
    by_cases hext : abi.argumentStackExtension = .extendedTo4
    · rw [if_pos hext] at hi
      rw [if_pos hext, if_pos hext]
      -- A slot that is not empty starts at a multiple of four.
      have hsize : 0 < type.sizeInBytes abi := by
        rcases size_widenTo4Bytes abi type with h | h <;> omega
      have hdvd := four_dvd_alignment (habi.extended hext) hsize
      have hstart := roundUp_le_roundUp_of_dvd s.stackHeightInBytes hpos hdvd
      have hmod : roundUp s.stackHeightInBytes (type.alignmentInBytesStack abi) % 4 = 0 :=
        Nat.mod_eq_zero_of_dvd (Nat.dvd_trans hdvd (Nat.dvd_of_mod_eq_zero (roundUp_mod _ _)))
      have hend := le_roundUp (roundUp s.stackHeightInBytes (type.alignmentInBytesStack abi) +
        type.sizeInBytes abi) (by decide : 0 < 4)
      have hmod' := roundUp_mod (roundUp s.stackHeightInBytes (type.alignmentInBytesStack abi) +
        type.sizeInBytes abi) 4
      rcases size_widenTo4Bytes abi type with h | h <;> omega
    · rw [if_neg hext] at hi
      rw [if_neg hext, if_neg hext]
      omega
  refine ⟨⟨?_, fun u hu => ?_, fun u hu => ?_, taken_mono (le_rfl) (fun _ h => h) ?_⟩,
    roundUp_mod _ _⟩
  · exact nodup_range.map fun i j hij => by simpa using hij
  · obtain ⟨offset, rfl, hge, -⟩ := hbytes u hu
    exact Nat.not_lt_of_le hge
  · obtain ⟨offset, rfl, -, hlt⟩ := hbytes u hu
    exact hlt
  · change s.stackHeightInBytes ≤ roundUp s.stackHeightInBytes _ + _
    omega

end ArgumentAllocator

end DartVm.Ffi
