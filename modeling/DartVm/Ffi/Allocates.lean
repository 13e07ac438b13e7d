import DartVm.Ffi.Resources
import DartVm.Library.Postcondition
import Mathlib.Data.List.ModifyLast

/-! # Allocations of arguments

Each function of `ArgumentAllocator` that returns locations hands out their resources, and aligns
their stack slots.  For the types that a signature can declare, no assertion fails.  On x64 this
depends on which FPU registers are taken: always the first ones, or all.

* `Allocates`: what an allocation does.
* `allots_argument`: one argument.
* `allots_arguments`: all arguments of a signature. -/

namespace DartVm.Ffi

open List NativeLocation SimpleLocation Option

/-- A type that a signature can declare for an argument. -/
def NativeType.DeclaredArgument (type : NativeType) : Prop :=
  type.Declared ∧ ∀ elementType length, type ≠ .array elementType length

namespace ArgumentAllocator

open Allocation Postcondition

variable {abi : Abi} {s s' s'' : ArgumentAllocator} {n : ℕ} {abort : Prop} {index : ℕ}

/-! ## FPU registers from the first on -/

/-- The first FPU registers are taken, and no others. -/
def Quads (n : ℕ) (s : ArgumentAllocator) : Prop :=
  ∀ part < 64, s.fpuRegPartsUsed.getLsbD part = decide (part < 4 * n)

/-- At the start no quad register is in use. -/
theorem quads_init : Quads 0 init := by
  intro part _
  rw [init]
  simp

/-- Quad registers in use do not look like blocked ones. -/
theorem Quads.ne_blocked (h : Quads n s) (hn : n ≤ 8) : s.fpuRegPartsUsed ≠ -1 := by
  intro hblocked
  have hlast := h 63 (by decide)
  rw [hblocked, show (-1 : BitVec 64).getLsbD 63 = true from by decide] at hlast
  have := of_decide_eq_true hlast.symm
  omega

/-- A quad register is free exactly if it is not among those in use. -/
theorem Quads.and_mask (h : Quads n s) (hindex : index < 8) :
    s.fpuRegPartsUsed &&& fpuMask .quad index 1 = 0 ↔ n ≤ index := by
  rw [and_eq_zero_iff]
  constructor
  · intro hfree
    by_contra hlt
    refine hfree (index * 4) (by omega) ⟨?_, ?_⟩
    · rw [h _ (by omega)]
      exact decide_eq_true (by omega)
    · rw [getLsbD_fpuMask _ _ _ (by omega)]
      exact decide_eq_true ⟨le_rfl, by simp [FpuRegisterKind.parts]⟩
  · rintro hle part hpart ⟨hused, hmask⟩
    rw [h part hpart] at hused
    rw [getLsbD_fpuMask _ _ _ hpart] at hmask
    have hlt := of_decide_eq_true hused
    have hge := (of_decide_eq_true hmask).1
    simp only [FpuRegisterKind.parts] at hge
    omega

/-- Outside Arm there are as many quad registers as FPU argument registers. -/
theorem numFpuRegisters_quad (harch : abi.arch ≠ .arm) :
    numFpuRegisters abi .quad = abi.numFpuArgRegs := by
  rw [numFpuRegisters, if_neg fun h => harch h.1]

/-- Searching for the first index from `n` on. -/
theorem find?_range_of_le {p : ℕ → Bool} {n m : ℕ} (hp : ∀ i < m, p i ↔ n ≤ i) :
    (List.range m).find? p = if n < m then some n else none := by
  split
  next h =>
    rw [find?_range_eq_some]
    refine ⟨(hp n h).mpr le_rfl, mem_range.mpr h, fun j hj => ?_⟩
    rw [Bool.not_eq_true', Bool.eq_false_iff, ne_eq, hp j (by omega)]
    omega
  next h =>
    rw [find?_eq_none]
    intro i hi
    rw [mem_range] at hi
    rw [hp i hi]
    omega

/-- **The first free register** is the one after those that are taken. -/
theorem Quads.firstFree (habi : abi.Supported) (harch : abi.arch ≠ .arm) (h : Quads n s)
    (hn : n ≤ abi.numFpuArgRegs) : s.firstFreeFpuRegisterIndex abi .quad 1 =
      if n < abi.numFpuArgRegs then some n else none := by
  have hquads := habi.quads
  rw [firstFreeFpuRegisterIndex, if_neg (h.ne_blocked (by omega)), numFpuRegisters_quad harch,
    Nat.add_sub_cancel]
  refine find?_range_of_le fun index hindex => ?_
  rw [decide_eq_true_eq]
  exact h.and_mask (by omega)

/-- The next quad register can be allocated. -/
theorem Quads.allocate (h : Quads n s) (hn : n < 8) :
    ∃ s', s.allocateFpuRegisterAtIndex .quad n 1 = some s' ∧ Quads (n + 1) s' ∧
      s'.cpuRegsUsed = s.cpuRegsUsed := by
  have hfree := (h.and_mask hn).mpr le_rfl
  rw [BitVec.and_comm] at hfree
  rw [allocateFpuRegisterAtIndex, if_pos hfree]
  refine ⟨_, rfl, fun part hpart => ?_, rfl⟩
  rw [BitVec.getLsbD_or, h part hpart, getLsbD_fpuMask _ _ _ hpart, ← Bool.decide_or,
    decide_eq_decide]
  simp only [FpuRegisterKind.parts]
  omega

/-! ## Consistent allocators -/

/-- **Which FPU registers are taken** on x64: on Windows with the CPU register of
the same number. -/
structure Consistent (abi : Abi) (s : ArgumentAllocator) : Prop where
  x64 : abi.arch = .x64 → s.fpuRegPartsUsed = -1 ∨ ∃ n ≤ abi.numFpuArgRegs, Quads n s
  x64Windows : abi.arch = .x64Windows → s.cpuRegsUsed ≤ abi.numArgRegs ∧
    (Quads s.cpuRegsUsed s ∨ s.fpuRegPartsUsed = -1 ∧ s.cpuRegsUsed = abi.numArgRegs)

/-- The initial state is consistent. -/
theorem consistent_init (abi : Abi) : Consistent abi init :=
  ⟨fun _ => .inr ⟨0, Nat.zero_le _, quads_init⟩, fun _ => ⟨Nat.zero_le _, .inl quads_init⟩⟩

/-- Only the x64 conventions ask for consistency. -/
theorem consistent_of_arch (h : abi.arch ≠ .x64) (h' : abi.arch ≠ .x64Windows) :
    Consistent abi s :=
  ⟨fun harch => absurd harch h, fun harch => absurd harch h'⟩

/-- On x64 a state with quad registers in use is consistent. -/
theorem consistent_of_quads (harch : abi.arch = .x64) (hn : n ≤ abi.numFpuArgRegs)
    (h : Quads n s) : Consistent abi s :=
  ⟨fun _ => .inr ⟨n, hn, h⟩, fun hwindows => by rw [harch] at hwindows; cases hwindows⟩

/-- Blocking the FPU registers is consistent. -/
theorem consistent_block (harch : abi.arch ≠ .x64Windows ∨ s.cpuRegsUsed = abi.numArgRegs) :
    Consistent abi s.blockAllFpuRegisters := by
  refine ⟨fun _ => .inl rfl, fun hwindows => ?_⟩
  have hall := harch.resolve_left fun h => h hwindows
  exact ⟨le_of_eq hall, .inr ⟨rfl, hall⟩⟩

/-- Only Windows on x64 uses up both kinds of registers at once. -/
theorem Abi.xor_iff (habi : abi.Supported) :
    abi.argumentIntRegXorFpuReg = false ↔ abi.arch ≠ .x64Windows := by
  rw [← Bool.not_eq_true, habi.xor_arch]

/-- On x64 the first free register is the number of those in use. -/
theorem Consistent.quads_of_firstFree (habi : abi.Supported) (harch : abi.arch = .x64)
    (h : Consistent abi s) (hindex : s.firstFreeFpuRegisterIndex abi .quad 1 = some index) :
    index < abi.numFpuArgRegs ∧ Quads index s := by
  rcases h.x64 harch with hblocked | ⟨n, hn, hquad⟩
  · rw [firstFreeFpuRegisterIndex, if_pos hblocked] at hindex
    cases hindex
  rw [hquad.firstFree habi (by simp [harch]) hn] at hindex
  split at hindex
  · cases hindex
    exact ⟨‹_›, hquad⟩
  · cases hindex

/-! ## Allocations -/

/-- **An allocation**: the resources are handed out, slots are aligned, and the allocator stays
consistent. -/
structure Allocates (abi : Abi) (s : ArgumentAllocator) (locations : List SimpleLocation)
    (s' : ArgumentAllocator) : Prop where
  handsOut : HandsOut (Taken abi) s (locations.flatMap (SimpleLocation.resources abi)) s'
  aligned : ∀ location ∈ locations, location.Aligned abi
  consistent : Consistent abi s'

/-- A step allocates the locations that it returns, or aborts. -/
abbrev Allots {α : Type} (abi : Abi) (abort : Prop) (s : ArgumentAllocator)
    (parts : α → List SimpleLocation) (r : Option (α × ArgumentAllocator)) : Prop :=
  Returns abort r fun result => Allocates abi s (parts result.1) result.2

variable {location : SimpleLocation} {locations locations' : List SimpleLocation}

theorem allocates_nil (h : Consistent abi s) : Allocates abi s [] s :=
  ⟨handsOut_nil fun _ h => h, by simp, h⟩

/-- Two allocations after one another. -/
theorem Allocates.append (h : Allocates abi s locations s')
    (h' : Allocates abi s' locations' s'') : Allocates abi s (locations ++ locations') s'' := by
  refine ⟨by rw [flatMap_append]; exact h.handsOut.append h'.handsOut, fun l hl => ?_,
    h'.consistent⟩
  rcases mem_append.mp hl with hl | hl
  · exact h.aligned l hl
  · exact h'.aligned l hl

/-- One location, then more. -/
theorem Allocates.cons (h : Allocates abi s [location] s')
    (h' : Allocates abi s' locations s'') : Allocates abi s (location :: locations) s'' :=
  h.append h'

/-- A location whose resources were free. -/
theorem Allocates.of_simple (h : HandsOut (Taken abi) s (location.resources abi) s')
    (haligned : location.Aligned abi) (hs : Consistent abi s') : Allocates abi s [location] s' :=
  ⟨by rwa [flatMap_singleton], fun l hl => by rwa [mem_singleton.mp hl], hs⟩

/-- Resources may be given up before an allocation. -/
theorem Allocates.mono_left (hmono : ∀ u, Taken abi s u → Taken abi s' u)
    (h : Allocates abi s' locations s'') : Allocates abi s locations s'' :=
  ⟨h.handsOut.mono_left hmono, h.aligned, h.consistent⟩

variable {p : PrimitiveType} {kind : FpuRegisterKind} {index : ℕ} {type : NativeType}

/-- Every float type has a kind of register. -/
theorem fpuRegKind_isSome (hp : p.isFloat) : ∃ kind, fpuRegKind abi p = some kind := by
  unfold fpuRegKind
  split
  · cases p <;> first | exact ⟨_, rfl⟩ | cases hp
  · exact ⟨_, rfl⟩

/-- Outside Arm floats are passed in quad registers. -/
theorem fpuRegKind_quad (harch : abi.arch ≠ .arm) : fpuRegKind abi p = some .quad := by
  rw [fpuRegKind, if_neg harch]

/-- Skipping CPU registers gives nothing back. -/
theorem taken_of_cpu_le {cpu : ℕ} (h : s.cpuRegsUsed ≤ cpu) (u : Resource) (hu : Taken abi s u) :
    Taken abi { s with cpuRegsUsed := cpu } u := by
  refine taken_mono ?_ ?_ ?_ u hu
  · exact h
  · exact fun _ h => h
  · exact le_rfl

/-- Using up all CPU registers gives nothing back. -/
theorem taken_of_all_cpu (u : Resource) (hu : Taken abi s u) :
    Taken abi { s with cpuRegsUsed := abi.numArgRegs } u := by
  cases u with
  | cpuRegister reg =>
    obtain ⟨i, -, hreg⟩ := hu
    exact ⟨i, (List.getElem?_eq_some_iff.mp hreg).1, hreg⟩
  | fpuPart part | stackByte offset => exact hu

/-- Skipping to an even register gives nothing back. -/
theorem taken_skipToEvenRegister (u : Resource) (hu : Taken abi s u) :
    Taken abi (s.skipToEvenRegister abi) u := by
  unfold skipToEvenRegister
  split
  · exact taken_of_cpu_le (Nat.le_add_right _ _) u hu
  · exact hu

/-- What `AllocateInt` can do: take two registers, or one, or a stack slot. -/
theorem allocateInt_cases (h : s.allocateInt abi p = some (location, s')) :
    ∃ container, container = (if abi.argumentRegisterExtension = .extendedTo4 then
        (convertIfSoftFp abi p).widenTo4Bytes else convertIfSoftFp abi p) ∧
      ((∃ register1 register2 t, (s.skipToEvenRegister abi).allocateCpuRegister abi =
          some (register1, t) ∧ t.allocateCpuRegister abi = some (register2, s') ∧
          location = .registers p container [register1, register2]) ∨
        (∃ register, s.allocateCpuRegister abi = some (register, s') ∧
          location = .registers p container [register]) ∨
        (∃ t, (t = s ∨ t = s.skipToEvenRegister abi) ∧
          t.allocateStack abi (.primitive p) = (location, s'))) := by
  rw [allocateInt] at h
  dsimp only at h
  refine ⟨_, rfl, ?_⟩
  split at h
  · split at h
    · obtain ⟨⟨register1, t₁⟩, h1, h⟩ := bind_eq_some_iff.mp h
      obtain ⟨⟨register2, t₂⟩, h2, h⟩ := bind_eq_some_iff.mp h
      cases h
      exact .inl ⟨register1, register2, t₁, h1, h2, rfl⟩
    · exact .inr (.inr ⟨_, .inr rfl, some.inj h⟩)
  · split at h
    · split at h
      · obtain ⟨⟨register, t⟩, h1, h⟩ := bind_eq_some_iff.mp h
        cases h
        exact .inr (.inl ⟨register, h1, rfl⟩)
      · exact .inr (.inr ⟨s, .inl rfl, some.inj h⟩)
    · cases h

/-- A chunk of an integer type already has the type it would be given. -/
theorem withOtherNativeType_chunk (hp : p = .int32 ∨ p = .int64)
    (h : s.allocatePrimitive abi p = some (location, s')) :
    location.withOtherNativeType p p = location := by
  have hconvert : convertIfSoftFp abi p = p := by
    rw [convertIfSoftFp, if_neg]
    rcases hp with rfl | rfl <;> simp [PrimitiveType.isFloat]
  have hwiden : p.widenTo4Bytes = p := by rcases hp with rfl | rfl <;> decide
  have hint : p.isFloat = false ∧ p.isInt = true := by rcases hp with rfl | rfl <;> decide
  rw [allocatePrimitive, hconvert, hint.1, hint.2] at h
  obtain ⟨container, hcontainer, hcases⟩ := allocateInt_cases h
  rw [hconvert, hwiden, ite_self] at hcontainer
  subst hcontainer
  rcases hcases with ⟨register1, register2, t, -, -, rfl⟩ | ⟨register, -, rfl⟩ | ⟨t, -, h1⟩
  · rfl
  · rfl
  · rw [← (Prod.mk.inj h1).1]
    dsimp only [withOtherNativeType, NativeType.widenTo4Bytes]
    rw [hwiden, ite_self]

/-- So do all chunks of a compound. -/
theorem withOtherNativeType_chunks (hp : p = .int32 ∨ p = .int64) {n : ℕ}
    (h : allocateChunks abi p n s = some (locations, s')) :
    ∀ l ∈ locations, l.withOtherNativeType p p = l := by
  induction n generalizing s locations with
  | zero =>
    cases h
    simp
  | succ n ih =>
    obtain ⟨⟨first, t⟩, h1, h⟩ := bind_eq_some_iff.mp h
    obtain ⟨⟨rest, t'⟩, h2, h⟩ := bind_eq_some_iff.mp h
    cases h
    exact forall_mem_cons.mpr ⟨withOtherNativeType_chunk hp h1, ih h2⟩

/-- Changing the last element to itself. -/
theorem modifyLast_eq_self {α : Type} {f : α → α} {l : List α} (h : ∀ a ∈ l, f a = a) :
    l.modifyLast f = l := by
  rcases eq_nil_or_concat l with rfl | ⟨init, last, rfl⟩
  · rfl
  · rw [concat_eq_append, modifyLast_concat, h last (by simp)]

/-- Chunks are float only or not. -/
theorem countP_notOnlyFloat (abi : Abi) (type : NativeType) :
    (type.chunks abi).countP (fun range => !type.containsOnlyFloats abi range) =
      type.numberOfWordSizeChunksNotOnlyFloat abi := by
  rw [NativeType.numberOfWordSizeChunksNotOnlyFloat, NativeType.numberOfWordSizeChunksOnlyFloat]
  have hlength : (type.chunks abi).length =
      roundUp (type.sizeInBytes abi) abi.wordSize / abi.wordSize := by
    simp [NativeType.chunks]
  have hsum := length_eq_countP_add_countP (l := type.chunks abi)
    (fun range => type.containsOnlyFloats abi range)
  simp only [decide_not, Bool.decide_eq_true] at hsum
  omega

/-- A pointer is not void. -/
theorem ffiIntPtr_ne_void (abi : Abi) : ffiIntPtr abi ≠ .void := by
  unfold ffiIntPtr
  split <;> decide

/-- The parts of registers in a row are those of the single registers. -/
theorem flatMap_fpuRegisters (p : PrimitiveType) (kind : FpuRegisterKind) (first amount : ℕ) :
    ((List.range amount).map fun i => fpuRegisters p p kind (first + i)).flatMap
      (resources abi) = fpuParts kind first amount := by
  induction amount with
  | zero => rfl
  | succ amount ih =>
    rw [range_succ, map_append, flatMap_append, ih, fpuParts, fpuParts,
      Nat.mul_add, Nat.mul_one, range_add, map_append, List.map_map]
    congr 1
    rw [map_singleton, flatMap_singleton, resources]
    refine map_congr_left fun i _ => ?_
    rw [Function.comp_apply, Nat.add_mul, Nat.mul_comm kind.parts amount, Nat.add_assoc]

section

variable (habi : abi.Supported)
include habi

variable (h : Consistent abi s)
include h

/-- **The stack**: the next aligned bytes are free. -/
theorem allocates_stack (htype : IsArgument type) :
    Allocates abi s [(s.allocateStack abi type).1] (s.allocateStack abi type).2 :=
  let hstack := handsOut_stack habi htype
  Allocates.of_simple hstack.1 hstack.2 ⟨h.x64, h.x64Windows⟩

omit h in
/-- An FPU register that was free is handed out. -/
theorem handsOut_fpuRegister (hbound : index + 1 ≤ numFpuRegisters abi kind) (p : PrimitiveType)
    (h : s.allocateFpuRegisterAtIndex kind index 1 = some s') :
    HandsOut (Taken abi) s ((fpuRegisters p p kind index).resources abi) s' := by
  have hparts := habi.fpu_parts kind
  have hle := Nat.mul_le_mul_right kind.parts hbound
  rw [Nat.add_mul, Nat.one_mul] at hle
  have hhands : HandsOut (Taken abi) s _ s' := handsOut_fpu (by omega) h
  rwa [fpuParts, mul_one] at hhands

omit h in
/-- On other targets than Windows the FPU registers stay as they are. -/
theorem allocateCpuRegister_eq (harch : abi.arch ≠ .x64Windows)
    (hlt : s.cpuRegsUsed < abi.numArgRegs) :
    ∃ reg, s.allocateCpuRegister abi = some (reg, { s with cpuRegsUsed := s.cpuRegsUsed + 1 }) := by
  rw [allocateCpuRegister, getElem?_eq_getElem hlt, (Abi.xor_iff habi).mpr harch]
  exact ⟨_, rfl⟩

/-- **`AllocateCpuRegister`** allocates while there are registers. -/
theorem allots_cpu (hlt : s.cpuRegsUsed < abi.numArgRegs) (p q : PrimitiveType) :
    Allots abi abort s (fun reg => [.registers p q [reg]]) (s.allocateCpuRegister abi) := by
  have hcompletes : ∃ result, s.allocateCpuRegister abi = some result ∧
    Consistent abi result.2 := by
    rw [allocateCpuRegister, getElem?_eq_getElem hlt]
    split
    next hxor =>
      have harch := habi.xor_arch.mp hxor
      have hnum := habi.xor_regs hxor
      have hquads := habi.quads
      obtain ⟨-, hquad | ⟨-, hall⟩⟩ := h.x64Windows harch
      · obtain ⟨t, ht, htquads, -⟩ := hquad.allocate (by omega)
        rw [ht]
        refine ⟨_, rfl, fun hx64 => ?_, fun _ => ⟨hlt, .inl htquads⟩⟩
        rw [harch] at hx64
        cases hx64
      · omega
    next hxor =>
      have harch := (Abi.xor_iff habi).mp (Bool.eq_false_iff.mpr hxor)
      exact ⟨_, rfl, h.x64, fun hwindows => absurd hwindows harch⟩
  obtain ⟨⟨reg, t⟩, ht, hconsistent⟩ := hcompletes
  rw [ht]
  exact Allocates.of_simple (handsOut_cpu habi ht) trivial hconsistent

/-! ## Primitive types -/

/-- On Windows the first free FPU register has the number of the next CPU register. -/
theorem firstFree_windows (harch : abi.arch = .x64Windows) :
    s.firstFreeFpuRegisterIndex abi .quad 1 =
        (if s.cpuRegsUsed < abi.numArgRegs then some s.cpuRegsUsed else none) ∧
      s.cpuRegsUsed ≤ abi.numArgRegs ∧
        (s.cpuRegsUsed < abi.numArgRegs → Quads s.cpuRegsUsed s) := by
  have hnum := habi.xor_regs (habi.xor_arch.mpr harch)
  obtain ⟨hle, hquad | ⟨hblocked, hall⟩⟩ := h.x64Windows harch
  · rw [← hnum] at hle ⊢
    exact ⟨hquad.firstFree habi (by simp [harch]) hle, hle, fun _ => hquad⟩
  · rw [firstFreeFpuRegisterIndex, if_pos hblocked, if_neg (by omega)]
    exact ⟨rfl, hle, fun hlt => absurd hlt (by omega)⟩

/-- The FPU register that is free can be taken, on Windows with the CPU register. -/
theorem exists_allocate (hkind : fpuRegKind abi p = some kind)
    (hindex : s.firstFreeFpuRegisterIndex abi kind 1 = some index) :
    ∃ t, s.allocateFpuRegisterAtIndex kind index 1 = some t ∧
      Consistent abi (if abi.argumentIntRegXorFpuReg then
        { t with cpuRegsUsed := t.cpuRegsUsed + 1 }
        else t) := by
  have hquads := habi.quads
  by_cases hwindows : abi.arch = .x64Windows
  · rw [fpuRegKind_quad (by simp [hwindows])] at hkind
    cases hkind
    have hxor := habi.xor_arch.mpr hwindows
    have hnum := habi.xor_regs hxor
    obtain ⟨hfree, hle, hquad⟩ := firstFree_windows habi h hwindows
    rw [hfree] at hindex
    split at hindex <;> cases hindex
    next hlt =>
      obtain ⟨t, ht, htquads, hcpu⟩ := (hquad hlt).allocate (by omega)
      refine ⟨t, ht, ?_⟩
      rw [if_pos hxor, hcpu]
      exact ⟨fun hx64 => (by simp [hwindows] at hx64), fun _ => ⟨hlt, .inl htquads⟩⟩
  · rw [(Abi.xor_iff habi).mpr hwindows]
    by_cases hx64 : abi.arch = .x64
    · rw [fpuRegKind_quad (by simp [hx64])] at hkind
      cases hkind
      obtain ⟨hlt, hquad⟩ := h.quads_of_firstFree habi hx64 hindex
      obtain ⟨t, ht, htquads, -⟩ := hquad.allocate (by omega)
      exact ⟨t, ht, consistent_of_quads hx64 hlt htquads⟩
    · obtain ⟨t, ht⟩ := firstFree_free hindex
      exact ⟨t, ht, consistent_of_arch hx64 hwindows⟩

/-- **`AllocateFloat`**. -/
theorem allots_float (hp : p.isFloat) :
    Allots abi abort s (fun l => [l]) (s.allocateFloat abi p) := by
  have hsize : 0 < p.sizeInBytes := by cases p <;> first | decide | cases hp
  obtain ⟨kind, hkind⟩ : ∃ kind, fpuRegKind abi p = some kind := fpuRegKind_isSome hp
  refine returns_bind_of_eq hkind ?_
  split
  next index hindex =>
    obtain ⟨t, ht, hconsistent⟩ := exists_allocate habi h hkind hindex
    have hhands := handsOut_fpuRegister habi (firstFree_bound hindex) p ht
    refine returns_bind_of_eq ht (Allocates.of_simple (hhands.mono_right ?_) trivial hconsistent)
    intro u hu
    split
    · exact taken_of_cpu_le (Nat.le_succ _) u hu
    · exact hu
  next hindex =>
    have hall : abi.arch ≠ .x64Windows ∨ s.cpuRegsUsed = abi.numArgRegs := by
      by_cases hwindows : abi.arch = .x64Windows
      · rw [fpuRegKind_quad (by simp [hwindows])] at hkind
        cases hkind
        obtain ⟨hfree, hle, -⟩ := firstFree_windows habi h hwindows
        rw [hfree] at hindex
        split at hindex
        · cases hindex
        · exact .inr (by omega)
      · exact .inl hwindows
    rw [if_neg fun hxor => hall.elim (fun h => h (habi.xor_arch.mp hxor.1)) hxor.2]
    exact (allocates_stack habi (consistent_block hall) (.inl ⟨p, rfl, hsize⟩)).mono_left
      handsOut_block.mono

/-- **`AllocateInt`** allocates whatever is not larger than eight bytes. -/
theorem allots_int (hpos : 0 < p.sizeInBytes) (hp : p.sizeInBytes = 8 ∨ p.sizeInBytes ≤ 4) :
    Allots abi abort s (fun l => [l]) (s.allocateInt abi p) := by
  have htype : IsArgument (.primitive p) := .inl ⟨p, rfl, hpos⟩
  rw [allocateInt]
  refine returns_ite (fun hpair => ?_) (fun hsingle => ?_)
  · -- Two registers are only taken on targets of 32 bits.
    have hword : ¬abi.wordSize = 8 := by omega
    rw [habi.word_of_arch, not_or, not_or] at hword
    have hconsistent : ∀ t, Consistent abi t := fun t => consistent_of_arch hword.1 hword.2.1
    refine returns_ite (fun hlt => ?_) (fun _ =>
      (allocates_stack habi (hconsistent _) htype).mono_left taken_skipToEvenRegister)
    obtain ⟨⟨register1, t⟩, h1, halloc1⟩ := (allots_cpu habi
      (hconsistent (s.skipToEvenRegister abi)) (Nat.lt_of_succ_lt hlt) p p).exists_eq_some
    refine returns_bind_of_eq h1 ?_
    have hcpu := (allocateCpuRegister_cases h1).2.1
    refine (allots_cpu habi (hconsistent t) (by omega) p p).bind fun result halloc2 => ?_
    have hboth := halloc1.append halloc2
    exact ⟨hboth.handsOut.mono_left taken_skipToEvenRegister, by simp [SimpleLocation.Aligned],
      hconsistent _⟩
  · have hword := habi.word
    refine returns_ite (fun _ => ?_) (fun hsize => absurd ?_ hsize)
    · refine returns_ite (fun hlt => ?_) (fun _ => allocates_stack habi h htype)
      exact (allots_cpu habi h hlt p _).bind fun _ halloc => halloc
    · omega

/-- **`AllocateArgument`** of a primitive type: nothing is allocated for void. -/
theorem allots_primitive (p : PrimitiveType) :
    Allots abi (p = .void) s (fun l => [l]) (s.allocatePrimitive abi p) := by
  have hsize : p.sizeInBytes = 8 ∨ p.sizeInBytes ≤ 4 := by cases p <;> decide
  refine returns_ite (fun hfloat => allots_float habi h ?_) (fun hfloat => ?_)
  · revert hfloat
    unfold convertIfSoftFp
    split
    · exact fun _ => ‹_ ∧ _›.2
    · exact id
  · refine returns_ite (fun hint => allots_int habi h ?_ hsize) (fun hint => ?_) <;>
    · revert hfloat hint
      unfold convertIfSoftFp
      cases p <;> cases abi.softFp <;>
        simp [PrimitiveType.isFloat, PrimitiveType.isInt, PrimitiveType.sizeInBytes, Returns]

omit h in
/-- Allocating one integer after another. -/
theorem allots_chunks (hp : p ≠ .void) (count : ℕ) (h : Consistent abi s) :
    Allots abi abort s id (allocateChunks abi p count s) := by
  induction count generalizing s with
  | zero => exact allocates_nil h
  | succ count ih =>
    refine ((allots_primitive habi h p).mono_abort fun hvoid => absurd hvoid hp).bind
      fun first hfirst => ?_
    exact (ih hfirst.consistent).bind fun rest hrest => hfirst.cons hrest

/-! ## Compounds -/

omit h in
/-- **The chunks of a compound on x64**: there are registers for all chunks that are left. -/
theorem allots_words (harch : abi.arch = .x64) (ranges : List Range) (hquad : Quads n s)
    (hfpu : n + ranges.countP (fun range => type.containsOnlyFloats abi range) ≤ abi.numFpuArgRegs)
    (hcpu : s.cpuRegsUsed + ranges.countP (fun range => !type.containsOnlyFloats abi range) ≤
      abi.numArgRegs) : Allots abi abort s id (allocateWords abi type ranges s) := by
  have hquads := habi.quads
  have harm : abi.arch ≠ .arm := by simp [harch]
  induction ranges generalizing s n with
  | nil => exact allocates_nil (consistent_of_quads harch hfpu hquad)
  | cons range ranges ih =>
    rw [countP_cons] at hfpu hcpu
    refine returns_ite (fun hfloats => ?_) (fun hfloats => ?_)
    · rw [if_pos hfloats] at hfpu
      have hfree := hquad.firstFree habi harm (by omega)
      rw [if_pos (by omega)] at hfree
      obtain ⟨t, ht, htquads, htcpu⟩ := hquad.allocate (by omega)
      refine returns_bind_of_eq hfree (returns_bind_of_eq ht ?_)
      have hhands := handsOut_fpuRegister habi (firstFree_bound hfree) .double ht
      exact (ih htquads (by omega) (by omega)).bind fun rest hrest =>
        (Allocates.of_simple hhands trivial
          (consistent_of_quads harch (by omega) htquads)).cons hrest
    · rw [if_pos (by simpa using hfloats)] at hcpu
      obtain ⟨reg, hreg⟩ := allocateCpuRegister_eq habi (s := s) (by simp [harch]) (by omega)
      have hconsistent : Consistent abi { s with cpuRegsUsed := s.cpuRegsUsed + 1 } :=
        consistent_of_quads harch (by omega) hquad
      refine returns_bind_of_eq hreg ?_
      refine (ih (s := { s with cpuRegsUsed := s.cpuRegsUsed + 1 }) hquad (by omega) ?_).bind
        fun rest hrest => Allocates.cons
          (.of_simple (handsOut_cpu habi hreg) trivial hconsistent) hrest
      change s.cpuRegsUsed + 1 + _ ≤ _
      omega

variable (htype : IsArgument type)
include htype

/-- A compound on the stack. -/
theorem allots_onStack : Allots abi abort s parts (some (s.onStack abi type)) :=
  allocates_stack habi h htype

omit h in
/-- `AllocateCompound` on x64 outside Windows. -/
theorem allots_x64 (harch : abi.arch = .x64) (h : Consistent abi s) :
    Allots abi abort s parts (s.allocateCompoundX64 abi type) := by
  rw [allocateCompoundX64]
  refine returns_ite (fun _ => ?_) (fun _ => allots_onStack habi h htype)
  refine returns_ite (fun havailable => ?_) (fun _ => allots_onStack habi h htype)
  obtain ⟨hcpu, hfpu⟩ := havailable
  rw [fpuRegsAvailable] at hfpu
  split at hfpu
  next index hindex =>
    have hquad := (h.quads_of_firstFree habi harch hindex).2
    rw [← countP_notOnlyFloat] at hcpu
    exact (allots_words habi harch _ hquad (of_decide_eq_true hfpu) hcpu).bind
      fun _ hwords => hwords
  next => cases hfpu

/-- `AllocateCompound` on Windows. -/
theorem allots_x64Windows :
    Allots abi abort s parts (s.allocateCompoundX64Windows abi type) := by
  rw [allocateCompoundX64Windows]
  refine returns_ite (fun _ => ?_) (fun _ => ?_)
  · refine returns_ite (fun hlt => ?_) (fun _ => allots_onStack habi h htype)
    exact (allots_cpu habi h hlt _ _).bind fun _ hcpu => hcpu
  · refine returns_ite (fun _ => ?_) (fun _ => allots_onStack habi h htype)
    exact ((allots_primitive habi h _).mono_abort fun hvoid =>
      absurd hvoid (ffiIntPtr_ne_void abi)).bind fun _ hpointer => hpointer

omit h in
/-- **Homogenous floats**: at most four members are as large as the compound. -/
theorem allots_homogenuousFloats (hx64 : abi.arch ≠ .x64) (hwindows : abi.arch ≠ .x64Windows)
    (hfloats : type.containsHomogenuousFloats)
    (hmembers : type.numPrimitiveMembersRecursive ≤ 4) :
    Allots abi (¬type.Declared) s parts (s.allocateHomogenuousFloats abi type) := by
  have hconsistent : ∀ t, Consistent abi t := fun t => consistent_of_arch hx64 hwindows
  -- Only a declared type has these properties.
  have hspec := fun hdeclared => @homogenuousFloats_spec abi type hdeclared hfloats
  refine @Returns.bind _ _ _ _ _ (fun p => type.Declared → (p = .float ∨ p = .double) ∧
    type.sizeInBytes abi = p.sizeInBytes * type.numPrimitiveMembersRecursive) _ ?_ fun p hp => ?_
  · cases hfirst : type.firstPrimitiveMember with
    | none =>
      intro hdeclared
      obtain ⟨p, -, hsome, -⟩ := hspec hdeclared
      cases hfirst.symm.trans hsome
    | some p =>
      intro hdeclared
      obtain ⟨q, hq, hsome, hsize⟩ := hspec hdeclared
      cases hfirst.symm.trans hsome
      exact ⟨hq, hsize⟩
  refine @Returns.bind _ _ _ _ _ (fun _ => True) _ ?_ fun kind _ => ?_
  · cases hkind : fpuRegKind abi p with
    | none =>
      intro hdeclared
      obtain ⟨kind, hsome⟩ : ∃ kind, fpuRegKind abi p = some kind :=
        fpuRegKind_isSome (by rcases (hp hdeclared).1 with rfl | rfl <;> decide)
      cases hkind.symm.trans hsome
    | some kind => trivial
  have hpos : type.Declared → 0 < p.sizeInBytes := fun hdeclared => by
    rcases (hp hdeclared).1 with rfl | rfl <;> decide
  refine returns_ite (fun _ => returns_ite (fun _ => ?_) fun hshift hdeclared => hshift ?_)
    fun hmod hdeclared => hmod ?_
  · split
    next first hfirst =>
      obtain ⟨t, ht⟩ := firstFree_free hfirst
      have hparts := habi.fpu_parts kind
      have hle := Nat.mul_le_mul_right kind.parts (firstFree_bound hfirst)
      rw [Nat.add_mul, Nat.mul_comm (_ / _) kind.parts] at hle
      refine returns_bind_of_eq ht ⟨?_, fun l hl => ?_, hconsistent t⟩
      · rw [parts, flatMap_fpuRegisters]
        exact handsOut_fpu (by omega) ht
      · obtain ⟨i, -, rfl⟩ := mem_map.mp hl
        trivial
    next => exact (allocates_stack habi (hconsistent _) htype).mono_left handsOut_block.mono
  · have hparts : kind.parts ≤ 4 := by cases kind <;> decide
    rw [(hp hdeclared).2, Nat.mul_div_cancel_left _ (hpos hdeclared)]
    exact Nat.lt_of_le_of_lt (Nat.mul_le_mul hparts hmembers) (by decide)
  · rw [(hp hdeclared).2, Nat.mul_mod_right]

omit h in
/-- `AllocateCompound` on Arm. -/
theorem allots_arm (harch : abi.arch = .arm) :
    Allots abi (¬type.Declared) s parts (s.allocateCompoundArm abi type) := by
  have hx64 : abi.arch ≠ .x64 := by simp [harch]
  have hwindows : abi.arch ≠ .x64Windows := by simp [harch]
  refine returns_ite (fun hfloats => ?_) (fun _ => ?_)
  · exact allots_homogenuousFloats habi htype hx64 hwindows hfloats.1 hfloats.2.2
  refine returns_ite (fun _ => ?_) fun hsize hdeclared =>
    hsize (NativeType.alignment_of_declared (habi.arm_aligned harch) type hdeclared)
  refine (allots_chunks habi ?_ _ (consistent_of_arch hx64 hwindows)).with_eq.bind
    fun ⟨locations, t⟩ ⟨hchunks, halloc⟩ => ?_
  · split <;> decide
  · have hsame := withOtherNativeType_chunks (by split <;> simp) hchunks
    dsimp only [returns_some, parts]
    rw [modifyLast_eq_self hsame, ite_self]
    exact halloc

omit h in
/-- `AllocateCompound` on arm64. -/
theorem allots_arm64 (harch : abi.arch = .arm64) :
    Allots abi (¬type.Declared) s parts (s.allocateCompoundArm64 abi type) := by
  have hx64 : abi.arch ≠ .x64 := by simp [harch]
  have hwindows : abi.arch ≠ .x64Windows := by simp [harch]
  have hconsistent : ∀ t, Consistent abi t := fun t => consistent_of_arch hx64 hwindows
  refine returns_ite (fun hfloats => ?_) (fun _ => returns_ite (fun _ => ?_) fun _ => ?_)
  · exact allots_homogenuousFloats habi htype hx64 hwindows hfloats.1 hfloats.2
  · refine returns_ite (fun _ => ?_) fun _ =>
      (allocates_stack habi (hconsistent _) htype).mono_left taken_of_all_cpu
    exact (allots_chunks habi (by decide) _ (hconsistent s)).bind fun _ hchunks => hchunks
  · exact ((allots_primitive habi (hconsistent s) _).mono_abort fun hvoid => by cases hvoid).bind
      fun _ hpointer => hpointer

/-! ## Arguments -/

omit htype

/-- **`AllocateArgument`** aborts only for a type that no signature declares for an argument. -/
theorem allots_argument (type : NativeType) :
    Allots abi (¬type.DeclaredArgument) s parts (s.allocateArgument abi type) := by
  cases type with
  | primitive p =>
    refine ((allots_primitive habi h p).mono_abort fun hvoid hdeclared => ?_).bind
      fun _ hlocation => hlocation
    exact hdeclared.1 hvoid
  | array e n => exact fun hdeclared => hdeclared.2 e n rfl
  | compound members packing =>
    have htype : IsArgument (.compound members packing) := .inr ⟨members, packing, rfl⟩
    rw [allocateArgument, allocateCompound]
    split
    next harch => exact allots_x64 habi htype harch h
    next => exact allots_x64Windows habi h htype
    next => exact allots_onStack habi h htype
    next harch => exact (allots_arm habi htype harch).mono_abort fun hnot h => hnot h.1
    next harch => exact (allots_arm64 habi htype harch).mono_abort fun hnot h => hnot h.1

/-- **The loop of `ArgumentLocations`**: each step hands out what was free, so the
whole run does. -/
theorem allots_arguments (types : List NativeType) :
    Returns (¬∀ type ∈ types, type.DeclaredArgument) (s.allocateArguments abi types) fun results =>
      ∃ s', Allocates abi s (results.flatMap parts) s' := by
  induction types generalizing s with
  | nil => exact ⟨s, allocates_nil h⟩
  | cons type types ih =>
    refine ((allots_argument habi h type).mono_abort fun hnot hall =>
      hnot (hall type (by simp))).bind
      fun first hfirst => ?_
    refine ((ih hfirst.consistent).mono_abort fun hnot hall =>
      hnot fun t ht => hall t (by simp [ht])).bind fun rest ⟨s', hrest⟩ => ?_
    exact ⟨s', hfirst.append hrest⟩

end

end ArgumentAllocator

end DartVm.Ffi
