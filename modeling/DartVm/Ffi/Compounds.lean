import Mathlib.Algebra.Order.Ring.Nat
import DartVm.Ffi.Correct
import DartVm.Ffi.Eightbytes

/-! # Registers of small compounds

Where `ArgumentLocations` puts a compound of at most 16 bytes: on arm64 in registers or on the stack
as a whole, on x64 in registers where enough of them remain.  Both hold for all allocators but some,
which the theorems name.

* `argumentLocations_whole_iff`: when a compound on arm64 is in one piece.
* `argumentLocations_eightbytes_iff`: when a compound on x64 is in registers.
* `argumentLocations_not_whole`, `argumentLocations_not_eightbytes`: signatures for which they are
  not. -/

namespace DartVm.Ffi

open List Option NativeLocation

namespace ArgumentAllocator

variable {abi : Abi} {s s' : ArgumentAllocator} {before after : List NativeType} {type : NativeType}

/-! ## An argument within a signature -/

/-- The allocator after some arguments. -/
def afterArguments (abi : Abi) : List NativeType → ArgumentAllocator → Option ArgumentAllocator
  | [], s => some s
  | rep :: reps, s => do
    let (_, s) ← s.allocateArgument abi rep
    afterArguments abi reps s

variable {results : List NativeLocation}

/-- **One argument of many**: it is allocated after those before it. -/
theorem allocateArguments_split
    (h : s.allocateArguments abi (before ++ type :: after) = some results) :
    ∃ t t' location, s.afterArguments abi before = some t ∧
      t.allocateArgument abi type = some (location, t') ∧ results[before.length]? = some location ∧
      s.allocateArguments abi before = some (results.take before.length) := by
  induction before generalizing s results with
  | nil =>
    obtain ⟨⟨location, t⟩, h1, h⟩ := bind_eq_some_iff.mp h
    obtain ⟨rest, -, h⟩ := bind_eq_some_iff.mp h
    cases h
    exact ⟨s, t, location, rfl, h1, rfl, rfl⟩
  | cons rep reps ih =>
    obtain ⟨⟨first, t⟩, h1, h⟩ := bind_eq_some_iff.mp h
    obtain ⟨rest, h2, h⟩ := bind_eq_some_iff.mp h
    cases h
    obtain ⟨u, u', location, hafter, halloc, hget, htake⟩ := ih h2
    refine ⟨u, u', location, ?_, halloc, hget, ?_⟩
    · rw [afterArguments, h1]
      exact hafter
    · rw [allocateArguments, h1]
      exact congrArg (bind · _) htake

end ArgumentAllocator

open ArgumentAllocator

/-! ## Whole compounds on arm64 -/

/-- **A compound in one piece**: its chunks are in consecutive argument registers, or one stack slot
holds it. -/
def NativeLocation.Whole (abi : Abi) (type : NativeType) (location : NativeLocation) : Prop :=
  (∃ first, first + roundUp (type.sizeInBytes abi) 8 / 8 ≤ abi.numArgRegs ∧
    location.parts =
      ((abi.argumentRegisters.drop first).take (roundUp (type.sizeInBytes abi) 8 / 8)).map
      fun reg => .registers .int64 .int64 [reg]) ∨
  ∃ payload container offset, location.parts = [.stack payload container offset] ∧
    type.sizeInBytes abi ≤ payload.sizeInBytes abi

variable {location : NativeLocation} {argReps : List NativeType}

/-- A location split between a register and the stack is not whole. -/
theorem NativeLocation.not_whole {abi : Abi} {type payload container : NativeType}
    {p q : PrimitiveType} {regs : List ℕ} {offset : ℕ}
    (h : location.parts = [.registers p q regs, .stack payload container offset]) :
    ¬location.Whole abi type := by
  rintro (⟨first, -, heq⟩ | ⟨payload', container', offset', heq, -⟩) <;> rw [h] at heq
  · have hmem : SimpleLocation.stack payload container offset ∈
        [.registers p q regs, .stack payload container offset] := by simp
    rw [heq, List.mem_map] at hmem
    obtain ⟨reg, -, hreg⟩ := hmem
    cases hreg
  · cases heq

section Arm64

variable {ios : Bool} {s s' : ArgumentAllocator}

/-- **A chunk** takes the next register while there is one. -/
theorem allocatePrimitive_int64 (ios : Bool) (s : ArgumentAllocator) :
    s.allocatePrimitive (arm64 ios) .int64 =
      if s.cpuRegsUsed < 8 then
        some (.registers .int64 .int64 [s.cpuRegsUsed], { s with cpuRegsUsed := s.cpuRegsUsed + 1 })
      else some (s.allocateStack (arm64 ios) (.primitive .int64)) := by
  by_cases hlt : s.cpuRegsUsed < 8
  · have hreg : (arm64 ios).argumentRegisters[s.cpuRegsUsed]? = some s.cpuRegsUsed := by
      rw [show (arm64 ios).argumentRegisters = range 8 from rfl, getElem?_range hlt]
    have hcpu : s.allocateCpuRegister (arm64 ios) =
        some (s.cpuRegsUsed, { s with cpuRegsUsed := s.cpuRegsUsed + 1 }) := by
      rw [allocateCpuRegister, hreg]
      rfl
    rw [if_pos hlt]
    refine (if_pos hlt).trans ?_
    rw [hcpu]
    cases ios <;> rfl
  · rw [if_neg hlt]
    exact if_neg hlt

/-- As long as there are registers, every chunk gets one. -/
theorem allocateChunks_registers {n : ℕ} (hn : s.cpuRegsUsed + n ≤ 8) :
    ∃ t, allocateChunks (arm64 ios) .int64 n s =
      some ((((arm64 ios).argumentRegisters.drop s.cpuRegsUsed).take n).map
        fun reg => .registers .int64 .int64 [reg], t) := by
  induction n generalizing s with
  | zero => exact ⟨s, rfl⟩
  | succ n ih =>
    have hlt : s.cpuRegsUsed < 8 := by omega
    obtain ⟨t, ht⟩ := ih (s := { s with cpuRegsUsed := s.cpuRegsUsed + 1 }) (by dsimp only; omega)
    have hdrop : (arm64 ios).argumentRegisters.drop s.cpuRegsUsed =
        s.cpuRegsUsed :: (arm64 ios).argumentRegisters.drop (s.cpuRegsUsed + 1) := by
      rw [show (arm64 ios).argumentRegisters = range 8 from rfl,
        drop_eq_getElem_cons (by simpa using hlt), getElem_range]
    refine ⟨t, ?_⟩
    rw [allocateChunks, allocatePrimitive_int64, if_pos hlt, hdrop]
    exact congrArg (bind · _) ht

variable {type : NativeType} {members : List NativeType} {packing : ℕ} {location : NativeLocation}

/-- **A compound is whole** unless it needs one register and part of another and one is left: the
registers that `AllocateCompound` asks for do not count the last chunk. -/
theorem allocateArgument_whole_iff (htype : type = .compound members packing)
    (hsize : type.sizeInBytes (arm64 ios) ≤ 16)
    (hfloats : ¬(type.containsHomogenuousFloats ∧ type.numPrimitiveMembersRecursive ≤ 4))
    (h : s.allocateArgument (arm64 ios) type = some (location, s')) :
    location.Whole (arm64 ios) type ↔
      ¬(s.cpuRegsUsed = 7 ∧ 8 < type.sizeInBytes (arm64 ios) ∧
        type.sizeInBytes (arm64 ios) < 16) := by
  rw [htype, allocateArgument, ← htype] at h
  change s.allocateCompoundArm64 (arm64 ios) _ = _ at h
  rw [allocateCompoundArm64, if_neg hfloats, if_pos hsize] at h
  set size := type.sizeInBytes (arm64 ios)
  have hchunks : roundUp size 8 / 8 = (size + 7) / 8 := by
    unfold roundUp
    omega
  change (if s.cpuRegsUsed + size / 8 ≤ 8 then _ else _) = _ at h
  split at h
  next hregs =>
    obtain ⟨⟨locations, t⟩, h1, h⟩ := bind_eq_some_iff.mp h
    cases h
    by_cases hall : s.cpuRegsUsed + roundUp size 8 / 8 ≤ 8
    · obtain ⟨t, ht⟩ := @allocateChunks_registers ios _ _ hall
      cases h1.symm.trans ht
      exact iff_of_true (.inl ⟨s.cpuRegsUsed, hall, rfl⟩) (by omega)
    by_cases hseven : s.cpuRegsUsed = 7
    · -- One register is left for two chunks.
      rw [show roundUp size 8 / 8 = 2 by omega, allocateChunks, allocatePrimitive_int64,
        if_pos (by omega)] at h1
      simp only [bind_eq_bind, bind_some] at h1
      rw [allocateChunks, allocatePrimitive_int64, if_neg (by dsimp only; omega)] at h1
      cases h1
      exact iff_of_false (not_whole rfl) (by omega)
    · -- The only chunk is on the stack.
      rw [show roundUp size 8 / 8 = 1 by omega, allocateChunks, allocatePrimitive_int64,
        if_neg (by omega)] at h1
      cases h1
      exact iff_of_true (.inr ⟨_, _, _, rfl, show size ≤ 8 by omega⟩) (by omega)
  next hregs =>
    cases h
    exact iff_of_true (.inr ⟨_, _, _, rfl, le_rfl⟩) (by omega)

variable {pointerToMemoryResult : Bool}

/-- On arm64 the result pointer takes no argument register. -/
theorem argumentLocations_arm64
    {locations : SignatureLocations}
    (h : argumentLocations (arm64 ios) argReps pointerToMemoryResult = some locations) :
    init.allocateArguments (arm64 ios) argReps = some locations.arguments := by
  cases pointerToMemoryResult <;>
  · obtain ⟨arguments, h1, h⟩ := bind_eq_some_iff.mp h
    cases h
    exact h1

/-- **Compounds on arm64**, for every list of argument types: a compound of at most 16 bytes that is
not homogenous floats is in registers or on the stack as a whole, unless seven registers are used
before it and it has between 8 and 16 bytes. -/
theorem argumentLocations_whole_iff (ios : Bool) (before after members : List NativeType)
    (packing : ℕ)
    (type : NativeType) (htype : type = .compound members packing) (pointerToMemoryResult : Bool)
    (hsize : type.sizeInBytes (arm64 ios) ≤ 16)
    (hfloats : ¬(type.containsHomogenuousFloats ∧ type.numPrimitiveMembersRecursive ≤ 4)) :
    (∀ locations, argumentLocations (arm64 ios) (before ++ type :: after) pointerToMemoryResult =
        some locations →
      ∃ s location, init.afterArguments (arm64 ios) before = some s ∧
        locations.arguments[before.length]? = some location ∧
        (location.Whole (arm64 ios) type ↔
          ¬(s.cpuRegsUsed = 7 ∧ 8 < type.sizeInBytes (arm64 ios) ∧
            type.sizeInBytes (arm64 ios) < 16))) ∧
    ((∀ rep ∈ before ++ type :: after, rep.DeclaredArgument) →
      ∃ locations, argumentLocations (arm64 ios) (before ++ type :: after) pointerToMemoryResult =
        some locations) := by
  refine ⟨fun locations h => ?_, fun htypes => ?_⟩
  · obtain ⟨s, s', location, hafter, halloc, hget, -⟩ :=
      allocateArguments_split (argumentLocations_arm64 h)
    exact ⟨s, location, hafter, hget, allocateArgument_whole_iff htype hsize hfloats halloc⟩
  · have hsupported : (arm64 ios).Supported := targets_supported _ (by cases ios <;> simp [targets])
    exact argumentLocations_completes hsupported htypes pointerToMemoryResult

/-- Three integers of four bytes. -/
def threeInts : NativeType :=
  .compound [.primitive .int32, .primitive .int32, .primitive .int32] 0x7FFFFFFF

/-- A compound of 12 bytes after seven integers: one chunk is in the last register, one on the
stack. -/
theorem argumentLocations_not_whole :
    ∃ locations location,
      argumentLocations (arm64 false) (List.replicate 7 (.primitive .int64) ++ [threeInts]) false =
        some locations ∧
      locations.arguments[7]? = some location ∧ ¬location.Whole (arm64 false) threeInts :=
  ⟨_, _, rfl, rfl, not_whole rfl⟩

/-- As the first argument the compound is whole. -/
theorem argumentLocations_whole_first :
    ∃ locations location, argumentLocations (arm64 false) [threeInts] false = some locations ∧
      locations.arguments[0]? = some location ∧ location.Whole (arm64 false) threeInts := by
  have hmain := argumentLocations_whole_iff false [] [] _ _ threeInts rfl false
    (by decide) (by decide)
  obtain ⟨s, location, hs, hget, hiff⟩ := hmain.1 _ rfl
  cases hs
  exact ⟨_, location, rfl, hget, hiff.mpr (by decide)⟩

end Arm64

/-! ## Compounds on x64 -/

/-- The CPU registers of a location. -/
def SimpleLocation.cpuRegs : SimpleLocation → ℕ
  | .registers _ _ regs => regs.length
  | _ => 0

/-- The FPU registers of a location. -/
def SimpleLocation.fpuRegs : SimpleLocation → ℕ
  | .fpuRegisters .. => 1
  | _ => 0

/-- The CPU registers that locations use. -/
def cpuRegsOf (locations : List SimpleLocation) : ℕ := (locations.map SimpleLocation.cpuRegs).sum

/-- The FPU registers that locations use. -/
def fpuRegsOf (locations : List SimpleLocation) : ℕ := (locations.map SimpleLocation.fpuRegs).sum

/-- All parts of a location are registers. -/
def NativeLocation.InRegisters (location : NativeLocation) : Prop :=
  ∀ part ∈ location.parts, 0 < part.cpuRegs + part.fpuRegs

/-- A location is one stack slot. -/
def NativeLocation.OnStack (location : NativeLocation) : Prop :=
  ∃ payload container offset, location = .simple (.stack payload container offset)

/-- A location is not on the stack and in registers. -/
theorem NativeLocation.OnStack.not_inRegisters (h : location.OnStack) :
    ¬location.InRegisters := by
  obtain ⟨payload, container, offset, rfl⟩ := h
  exact fun hin => absurd (hin _ mem_cons_self) (lt_irrefl 0)

/-- **An allocator on x64** after locations: exactly their registers are used. -/
structure Uses (locations : List SimpleLocation) (s : ArgumentAllocator) : Prop where
  cpu : s.cpuRegsUsed = cpuRegsOf locations
  fpu : fpuRegsOf locations ≤ 8 ∧ Quads (fpuRegsOf locations) s ∨
    s.fpuRegPartsUsed = -1 ∧ fpuRegsOf locations = 8

section X64

variable {locations : List SimpleLocation} {s s' : ArgumentAllocator} {type : NativeType}

/-- The x64 convention is supported. -/
theorem x64_supported : x64.Supported := targets_supported x64 (by simp [targets])

/-- Nothing is in use at the start. -/
theorem uses_init : Uses [] init := ⟨rfl, .inl ⟨by decide, quads_init⟩⟩

/-- At most eight FPU registers are in use. -/
theorem Uses.fpu_le (h : Uses locations s) : fpuRegsOf locations ≤ 8 := by
  rcases h.fpu with hfpu | hfpu <;> omega

/-- The first free FPU register is the number of those in use. -/
theorem Uses.firstFree (h : Uses locations s) : s.firstFreeFpuRegisterIndex x64 .quad 1 =
    if fpuRegsOf locations < 8 then some (fpuRegsOf locations) else none := by
  rcases h.fpu with ⟨hle, hquads⟩ | ⟨hblocked, hall⟩
  · exact hquads.firstFree x64_supported (by decide) hle
  · rw [firstFreeFpuRegisterIndex, if_pos hblocked, if_neg (by omega)]

open Classical in
/-- The counted chunks are the eightbytes with float fields only. -/
theorem numberOfWordSizeChunksOnlyFloat_eq (htype : type.Declared) :
    type.numberOfWordSizeChunksOnlyFloat x64 = type.floatEightbytes x64 := by
  refine countP_congr fun range hrange => ?_
  obtain ⟨i, hi, rfl⟩ := mem_map.mp hrange
  rw [mem_range, roundUp, show x64.wordSize = 8 from rfl] at hi
  rw [decide_eq_true_iff]
  refine containsOnlyFloats_iff x64 type htype _ ?_ (min_le_left _ _)
  rw [show x64.wordSize = 8 from rfl]
  dsimp only
  omega

section

variable (h : Uses locations s)
include h

/-- A stack location uses no register. -/
theorem Uses.stack (type : NativeType) :
    Uses (locations ++ [(s.allocateStack x64 type).1]) (s.allocateStack x64 type).2 := by
  constructor
  · rw [cpuRegsOf, map_append, sum_append]
    exact h.cpu
  · rw [fpuRegsOf, map_append, sum_append]
    exact h.fpu

/-- The next FPU register is put to use. -/
theorem Uses.fpuRegister (hlt : fpuRegsOf locations < 8) (p : PrimitiveType) :
    ∃ t, s.allocateFpuRegisterAtIndex .quad (fpuRegsOf locations) 1 = some t ∧
      Uses (locations ++ [.fpuRegisters p p .quad (fpuRegsOf locations)]) t := by
  obtain ⟨-, hquads⟩ := h.fpu.resolve_right (by omega)
  obtain ⟨t, ht, htquads, hcpu⟩ := hquads.allocate hlt
  refine ⟨t, ht, ?_, .inl ?_⟩
  · rw [cpuRegsOf, map_append, sum_append, hcpu]
    exact h.cpu
  · rw [fpuRegsOf, map_append, sum_append]
    exact ⟨hlt, htquads⟩

/-- The next CPU register is put to use. -/
theorem Uses.cpuRegister {reg : ℕ} (p q : PrimitiveType)
    (halloc : s.allocateCpuRegister x64 = some (reg, s')) :
    Uses (locations ++ [.registers p q [reg]]) s' := by
  obtain ⟨result, -, halloc⟩ := bind_eq_some_iff.mp halloc
  cases halloc
  constructor
  · rw [cpuRegsOf, map_append, sum_append]
    exact congrArg (· + 1) h.cpu
  · rw [fpuRegsOf, map_append, sum_append]
    exact h.fpu

/-- **A primitive argument** uses the registers of its location. -/
theorem Uses.primitive {p : PrimitiveType} {location : SimpleLocation}
    (halloc : s.allocatePrimitive x64 p = some (location, s')) :
    Uses (locations ++ [location]) s' := by
  rw [allocatePrimitive] at halloc
  split at halloc
  · rw [allocateFloat, fpuRegKind_quad (by decide)] at halloc
    simp only [bind_eq_bind, bind_some, h.firstFree] at halloc
    by_cases hlt : fpuRegsOf locations < 8
    · obtain ⟨t, ht, huses⟩ := h.fpuRegister hlt p
      rw [if_pos hlt] at halloc
      simp only [ht, bind_some] at halloc
      cases halloc
      exact huses
    · rw [if_neg hlt] at halloc
      cases halloc
      have hle := h.fpu_le
      have hblocked : Uses locations s.blockAllFpuRegisters := ⟨h.cpu, .inr ⟨rfl, by omega⟩⟩
      exact hblocked.stack _
  · split at halloc
    · obtain ⟨container, -, hcases⟩ := allocateInt_cases halloc
      have hskip : s.skipToEvenRegister x64 = s := rfl
      rcases hcases with ⟨register1, register2, t, h1, h2, rfl⟩ | ⟨register, h1, rfl⟩ | ⟨t, ht, h1⟩
      · have hboth := (h.cpuRegister p container h1).cpuRegister p container h2
        exact ⟨by simpa [cpuRegsOf, SimpleLocation.cpuRegs] using hboth.cpu,
          by simpa [fpuRegsOf, SimpleLocation.fpuRegs] using hboth.fpu⟩
      · exact h.cpuRegister _ _ h1
      · obtain rfl : t = s := ht.elim id id
        have hstack := h.stack (.primitive p)
        rwa [h1] at hstack
    · cases halloc

/-- The words of a compound are put to use, each with a register. -/
theorem Uses.words {ranges : List Range} {words : List SimpleLocation}
    (halloc : allocateWords x64 type ranges s = some (words, s')) :
    Uses (locations ++ words) s' ∧ ∀ word ∈ words, 0 < word.cpuRegs + word.fpuRegs := by
  induction ranges generalizing locations s words with
  | nil =>
    cases halloc
    exact ⟨by rwa [append_nil], by simp⟩
  | cons range ranges ih =>
    rw [allocateWords] at halloc
    split at halloc
    · obtain ⟨index, hindex, halloc⟩ := bind_eq_some_iff.mp halloc
      rw [h.firstFree] at hindex
      split at hindex
      next hlt =>
        cases hindex
        obtain ⟨t, ht, huses⟩ := h.fpuRegister hlt .double
        obtain ⟨t', ht', halloc⟩ := bind_eq_some_iff.mp halloc
        cases ht.symm.trans ht'
        obtain ⟨⟨rest, u⟩, hrest, halloc⟩ := bind_eq_some_iff.mp halloc
        cases halloc
        obtain ⟨hwords, hall⟩ := ih huses hrest
        rw [append_assoc] at hwords
        exact ⟨hwords, forall_mem_cons.mpr ⟨one_pos, hall⟩⟩
      next => cases hindex
    · obtain ⟨⟨register, t⟩, ht, halloc⟩ := bind_eq_some_iff.mp halloc
      obtain ⟨⟨rest, u⟩, hrest, halloc⟩ := bind_eq_some_iff.mp halloc
      cases halloc
      obtain ⟨hwords, hall⟩ := ih (h.cpuRegister _ _ ht) hrest
      rw [append_assoc] at hwords
      exact ⟨hwords, forall_mem_cons.mpr ⟨one_pos, hall⟩⟩

end

/-- **Registers for a compound**: enough of each kind, and an FPU register even where none is
needed. -/
def Available (type : NativeType) (locations : List SimpleLocation) : Prop :=
  cpuRegsOf locations + type.numberOfWordSizeChunksNotOnlyFloat x64 ≤ 6 ∧ fpuRegsOf locations < 8 ∧
    fpuRegsOf locations + type.numberOfWordSizeChunksOnlyFloat x64 ≤ 8

variable {type : NativeType} {location : NativeLocation}

/-- The allocator asks whether enough registers of both kinds are left. -/
theorem Uses.available_iff (h : Uses locations s) :
    (s.cpuRegsUsed + type.numberOfWordSizeChunksNotOnlyFloat x64 ≤ x64.numArgRegs ∧
      s.fpuRegsAvailable x64 (type.numberOfWordSizeChunksOnlyFloat x64)) ↔
        Available type locations := by
  rw [fpuRegsAvailable, h.firstFree, h.cpu, Available]
  refine and_congr_right fun _ => ?_
  split
  next index hindex =>
    split at hindex <;> cases hindex
    rw [decide_eq_true_iff]
    exact ⟨fun hle => ⟨‹_›, hle⟩, fun hle => hle.2⟩
  next hindex =>
    split at hindex
    · cases hindex
    · exact iff_of_false (by simp) fun hle => ‹¬_› hle.1

/-- **A compound argument** uses the registers of its location. -/
theorem Uses.compound (h : Uses locations s)
    (halloc : s.allocateCompoundX64 x64 type = some (location, s')) :
    Uses (locations ++ location.parts) s' ∧
      (type.sizeInBytes x64 ≤ 16 ∧ type.sizeInBytes x64 > 0 ∧ ¬type.containsUnalignedMembers x64 0 →
        Available type locations → location.InRegisters) ∧
      (¬Available type locations → location.OnStack) := by
  rw [allocateCompoundX64] at halloc
  dsimp only at halloc
  have hstack : s.onStack x64 type = (location, s') →
      Uses (locations ++ location.parts) s' ∧ location.OnStack := by
    intro heq
    cases heq
    exact ⟨h.stack type, _, _, _, rfl⟩
  split at halloc
  next hsmall =>
    split at halloc
    next havailable =>
      rw [h.available_iff] at havailable
      obtain ⟨⟨words, t⟩, hwords, halloc⟩ := bind_eq_some_iff.mp halloc
      cases halloc
      have hwords := h.words hwords
      exact ⟨hwords.1, fun _ _ => hwords.2, fun hnot => absurd havailable hnot⟩
    next havailable =>
      rw [h.available_iff] at havailable
      have hstack := hstack (some.inj halloc)
      exact ⟨hstack.1, fun _ h => absurd h havailable, fun _ => hstack.2⟩
  next hlarge =>
    have hstack := hstack (some.inj halloc)
    exact ⟨hstack.1, fun h => absurd h hlarge, fun _ => hstack.2⟩

/-- **One argument**: what it uses adds to what was in use. -/
theorem Uses.argument (h : Uses locations s)
    (halloc : s.allocateArgument x64 type = some (location, s')) :
    Uses (locations ++ location.parts) s' := by
  cases type with
  | primitive p =>
    obtain ⟨⟨location, t⟩, h1, halloc⟩ := bind_eq_some_iff.mp halloc
    cases halloc
    exact h.primitive h1
  | array e n => cases halloc
  | compound members packing => exact (h.compound halloc).1

/-- **Earlier arguments**: the registers in use are those of their locations. -/
theorem Uses.arguments {types : List NativeType}
    (h : Uses locations s) (halloc : s.allocateArguments x64 types = some results)
    (hafter : s.afterArguments x64 types = some s') :
    Uses (locations ++ results.flatMap parts) s' := by
  induction types generalizing locations s results with
  | nil =>
    cases halloc
    cases hafter
    simpa using h
  | cons type types ih =>
    obtain ⟨⟨first, t⟩, h1, halloc⟩ := bind_eq_some_iff.mp halloc
    obtain ⟨rest, h2, halloc⟩ := bind_eq_some_iff.mp halloc
    obtain ⟨⟨first', t'⟩, h1', hafter⟩ := bind_eq_some_iff.mp hafter
    cases halloc
    cases h1.symm.trans h1'
    rw [flatMap_cons, ← append_assoc]
    exact ih (h.argument h1) h2 hafter

/-- On x64 the result pointer takes the first argument register. -/
theorem argumentLocations_x64
    {locations : SignatureLocations}
    (h : argumentLocations x64 argReps pointerToMemoryResult = some locations) :
    ∃ s, s = { init with cpuRegsUsed := pointerToMemoryResult.toNat } ∧
      s.allocateArguments x64 argReps = some locations.arguments ∧
      Uses locations.resultPointer.toList s := by
  cases pointerToMemoryResult with
  | false =>
    obtain ⟨arguments, h1, h⟩ := bind_eq_some_iff.mp h
    cases h
    exact ⟨init, rfl, h1, uses_init⟩
  | true =>
    obtain ⟨arguments, h1, h⟩ := bind_eq_some_iff.mp h
    cases h
    exact ⟨_, rfl, h1, rfl, .inl ⟨Nat.zero_le 8, quads_init⟩⟩

/-- **Compounds on x64**, for every list of argument types: a compound of 1 to 16 bytes without
unaligned members is in registers if enough of each kind remain, and on the stack otherwise, unless
all FPU registers are taken, it needs none, and there are enough CPU registers. -/
theorem argumentLocations_eightbytes_iff (before after members : List NativeType) (packing : ℕ)
    (type : NativeType) (htype : type = .compound members packing) (pointerToMemoryResult : Bool)
    (htypes : ∀ rep ∈ before ++ type :: after, rep.DeclaredArgument)
    (hsize : 0 < type.sizeInBytes x64 ∧ type.sizeInBytes x64 ≤ 16)
    (haligned : ¬type.containsUnalignedMembers x64 0) :
    ∃ locations s location,
      argumentLocations x64 (before ++ type :: after) pointerToMemoryResult = some locations ∧
      afterArguments x64 before { init with cpuRegsUsed := pointerToMemoryResult.toNat } = some s ∧
      locations.arguments[before.length]? = some location ∧
      let earlier := locations.resultPointer.toList ++
        (locations.arguments.take before.length).flatMap parts
      let floats := type.floatEightbytes x64
      let others := (type.sizeInBytes x64 + 7) / 8 - floats
      let fits := cpuRegsOf earlier + others ≤ 6 ∧ fpuRegsOf earlier + floats ≤ 8
      ((location.InRegisters ↔ fits) ∧ (location.OnStack ↔ ¬fits) ↔
        ¬(s.firstFreeFpuRegisterIndex x64 .quad 1 = none ∧ floats = 0 ∧
          s.cpuRegsUsed + others ≤ 6)) := by
  obtain ⟨locations, hresult⟩ :=
    argumentLocations_completes x64_supported htypes pointerToMemoryResult
  obtain ⟨start, rfl, halloc, huses⟩ := argumentLocations_x64 hresult
  obtain ⟨s, s', location, hafter, hone, hget, htake⟩ := allocateArguments_split halloc
  refine ⟨locations, s, location, hresult, hafter, hget, ?_⟩
  have hs := huses.arguments htake hafter
  rw [htype, allocateArgument, ← htype] at hone
  obtain ⟨-, hregisters, hstack⟩ := hs.compound hone
  have hregisters := hregisters ⟨hsize.2, hsize.1, haligned⟩
  have hle := hs.fpu_le
  have hfloats := numberOfWordSizeChunksOnlyFloat_eq (htypes type (by simp)).1
  have hothers : type.numberOfWordSizeChunksNotOnlyFloat x64 =
      (type.sizeInBytes x64 + 7) / 8 - type.floatEightbytes x64 := by
    rw [NativeType.numberOfWordSizeChunksNotOnlyFloat, hfloats, roundUp,
      show x64.wordSize = 8 from rfl, Nat.mul_div_cancel _ (by decide)]
    rfl
  dsimp only
  rw [hs.firstFree, hs.cpu, ← hothers, ← hfloats]
  generalize locations.resultPointer.toList ++
    (locations.arguments.take before.length).flatMap parts = earlier at *
  -- What is left is arithmetic on the registers in use.
  have hin : location.InRegisters ↔ Available type earlier :=
    ⟨fun hin => by_contra fun hnot => (hstack hnot).not_inRegisters hin, hregisters⟩
  have hout : location.OnStack ↔ ¬location.InRegisters :=
    ⟨NativeLocation.OnStack.not_inRegisters, fun hnot => hstack (hnot ∘ hregisters)⟩
  rw [hout, hin, Available, ite_eq_right_iff]
  simp only [reduceCtorEq, imp_false]
  omega

/-- One integer of eight bytes. -/
def oneInt : NativeType := .compound [.primitive .int64] 0x7FFFFFFF

/-- The struct of the example has no float eightbyte. -/
theorem oneInt_floatEightbytes : oneInt.floatEightbytes x64 = 0 := by
  rw [← numberOfWordSizeChunksOnlyFloat_eq
    (by simp [oneInt, NativeType.Declared, AllDeclared, packings])]
  decide

/-- A compound of one integer after eight doubles is on the stack, with all CPU registers free. -/
theorem argumentLocations_not_eightbytes :
    ∃ locations location,
      argumentLocations x64 (List.replicate 8 (.primitive .double) ++ [oneInt]) false =
        some locations ∧
      locations.arguments[8]? = some location ∧ location.OnStack ∧
      cpuRegsOf ((locations.arguments.take 8).flatMap parts) +
        ((oneInt.sizeInBytes x64 + 7) / 8 - oneInt.floatEightbytes x64) ≤ 6 ∧
      fpuRegsOf ((locations.arguments.take 8).flatMap parts) +
        oneInt.floatEightbytes x64 ≤ 8 := by
  rw [oneInt_floatEightbytes]
  exact ⟨_, _, rfl, rfl, ⟨_, _, _, rfl⟩, by decide, by decide⟩

/-- As the first argument the compound is in a register. -/
theorem argumentLocations_eightbytes_first :
    ∃ locations location, argumentLocations x64 [oneInt] false = some locations ∧
      locations.arguments[0]? = some location ∧ location.InRegisters := by
  obtain ⟨locations, s, location, h, hs, hget, hiff⟩ := argumentLocations_eightbytes_iff [] [] _ _
    oneInt rfl false
      (by simp [oneInt, NativeType.DeclaredArgument, NativeType.Declared, AllDeclared,
      packings]) (by decide) (by decide)
  cases hs
  refine ⟨locations, location, h, hget, ((hiff.mpr ?_).1).mpr ?_⟩
  · rintro ⟨hnone, -⟩
    revert hnone
    decide
  · cases h
    rw [oneInt_floatEightbytes]
    decide

end X64

end DartVm.Ffi
