import DartVm.Ffi.NativeType
import Mathlib.Algebra.Order.Group.Nat

/-! # Layout of native types

Facts about the sizes and alignments that `FromNativeTypes` computes: the alignment on the stack is
positive, a multiple of four where the ABI aligns to words, and a compound of homogenous floats is
as large as its members together.

* `WordAligned`, `Homogenous`: properties of layouts.
* `homogenuousFloats_spec`: compounds of homogenous floats. -/

namespace DartVm.Ffi

open NativeType

/-! ## Rounding -/

/-- Rounding up does not make smaller. -/
theorem le_roundUp (x : ℕ) {a : ℕ} (ha : 0 < a) : x ≤ roundUp x a := by
  unfold roundUp
  have h := Nat.div_add_mod (x + a - 1) a
  have hlt := Nat.mod_lt (x + a - 1) ha
  rw [mul_comm] at h
  omega

/-- A rounded value is aligned. -/
theorem roundUp_mod (x a : ℕ) : roundUp x a % a = 0 := Nat.mul_mod_left _ _

/-- An aligned value stays. -/
theorem roundUp_of_mod {x a : ℕ} (h : x % a = 0) : roundUp x a = x := by
  rcases eq_zero_or_pos a with rfl | ha
  · rw [Nat.mod_zero] at h
    subst h
    rfl
  · obtain ⟨k, rfl⟩ := Nat.dvd_of_mod_eq_zero h
    rw [roundUp, Nat.add_sub_assoc ha, Nat.mul_add_div ha, Nat.div_eq_of_lt (by omega),
      Nat.add_zero,
      mul_comm]

/-- Zero is aligned. -/
theorem roundUp_zero (a : ℕ) : roundUp 0 a = 0 := roundUp_of_mod (Nat.zero_mod a)

/-- Rounding up stops at the next aligned value. -/
theorem roundUp_le {x y a : ℕ} (hxy : x ≤ y) (hy : y % a = 0) : roundUp x a ≤ y := by
  rcases Nat.eq_zero_or_pos a with rfl | ha
  · exact Nat.zero_le _
  obtain ⟨k, rfl⟩ := Nat.dvd_of_mod_eq_zero hy
  rw [mul_comm a k]
  apply Nat.mul_le_mul_right
  rw [Nat.div_le_iff_le_mul_add_pred ha]
  omega

/-- A coarser alignment rounds up further. -/
theorem roundUp_le_roundUp_of_dvd (x : ℕ) {a b : ℕ} (hb : 0 < b) (hab : a ∣ b) :
    roundUp x a ≤ roundUp x b :=
  roundUp_le (le_roundUp x hb) (Nat.mod_eq_zero_of_dvd
    (Nat.dvd_trans hab (Nat.dvd_of_mod_eq_zero (roundUp_mod x b))))

/-- Rounding up is monotone. -/
theorem roundUp_mono {x y : ℕ} (a : ℕ) (ha : 0 < a) (h : x ≤ y) : roundUp x a ≤ roundUp y a :=
  roundUp_le (h.trans (le_roundUp y ha)) (roundUp_mod y a)

/-! ## Alignment on the stack -/

section Alignment

variable {abi : Abi}

/-- Members only raise the alignment. -/
theorem le_alignmentStack_layoutMembers (abi : Abi) (packing : ℕ) (members : List NativeType)
    (layout : Layout) :
    layout.alignmentStack ≤ (layoutMembers abi packing members layout).alignmentStack := by
  induction members generalizing layout with
  | nil => exact le_rfl
  | cons member members ih =>
    have hstep : layout.alignmentStack ≤
        (layout.addMember abi packing (member.layout abi)).alignmentStack := le_max_left _ _
    exact hstep.trans (ih _)

/-- Alignments on the stack are positive. -/
theorem alignmentInBytesStack_pos (hword : 0 < abi.wordSize) {type : NativeType}
    (htype : (∃ p, type = .primitive p ∧ 0 < p.sizeInBytes) ∨
      ∃ members packing, type = .compound members packing) :
    0 < type.alignmentInBytesStack abi := by
  rcases htype with ⟨p, rfl, hp⟩ | ⟨members, packing, rfl⟩
  · rw [alignmentInBytesStack, layout]
    dsimp only
    unfold PrimitiveType.alignmentInBytesStack
    split
    · exact hword
    · split
      · decide
      · exact hword
    · exact hp
  · refine lt_of_lt_of_le ?_ (le_alignmentStack_layoutMembers abi packing members _)
    split
    · exact hword
    · decide

/-- **Alignment to words**: a type that takes up space is aligned to four or eight bytes. -/
structure WordAligned (layout : Layout) : Prop where
  cases : layout.alignmentStack = 1 ∨ layout.alignmentStack = 4 ∨ layout.alignmentStack = 8
  large : 0 < layout.size → layout.alignmentStack ≠ 1

/-- Adding a member keeps the alignment one of words. -/
theorem WordAligned.addMember (hword : abi.wordSize = 4 ∨ abi.wordSize = 8) (packing : ℕ)
    {layout member : Layout} (h : WordAligned layout) (hmember : WordAligned member) :
    WordAligned (layout.addMember abi packing member) := by
  have hcases := h.cases
  have hcases' := hmember.cases
  constructor
  · rw [Layout.addMember]
    dsimp only
    split <;> omega
  rw [Layout.addMember]
  dsimp only
  intro hsize
  rcases eq_zero_or_pos member.size with hzero | hpos
  · have hne : layout.alignmentStack ≠ 1 := by
      apply h.large
      by_contra hle
      obtain hle : layout.size = 0 := by omega
      rw [hle, roundUp_zero] at hsize
      omega
    omega
  · have hne := hmember.large hpos
    split <;> omega

/-- An ABI that aligns stack arguments to words. -/
def Abi.AlignsToWords (abi : Abi) : Prop :=
  (abi.wordSize = 4 ∨ abi.wordSize = 8) ∧
    (abi.argumentStackAlignment = .alignedToWordSize ∨
      abi.argumentStackAlignment = .alignedToWordSizeBut8AlignedTo8)

mutual

/-- On a target that aligns to words every type is aligned so. -/
theorem NativeType.wordAligned_layout (habi : abi.AlignsToWords) :
    ∀ type : NativeType, WordAligned (type.layout abi)
  | .primitive p => by
    obtain ⟨hword, halign⟩ := habi
    rw [layout]
    rcases halign with halign | halign
    · constructor <;> simp only [PrimitiveType.alignmentInBytesStack, halign] <;> omega
    · constructor <;> simp only [PrimitiveType.alignmentInBytesStack, halign] <;> split <;> omega
  | .array elementType length => by
    have h := elementType.wordAligned_layout habi
    exact ⟨h.cases, fun hsize => h.large (Nat.pos_of_mul_pos_right hsize)⟩
  | .compound members packing => by
    rw [layout]
    have hstart : ∀ a, a = 1 ∨ a = 4 ∨ a = 8 → WordAligned ⟨0, 1, a, []⟩ := fun a ha =>
      ⟨ha, fun h => absurd h (lt_irrefl 0)⟩
    have h := wordAligned_layoutMembers habi packing members
      ⟨0, 1, if abi.ios ∧ abi.arch = .arm64 ∧ ¬containsHomogenuousFloatsInternal members then
        abi.wordSize else 1, []⟩ (hstart _ (by have := habi.1; split <;> omega))
    refine ⟨h.cases, fun hsize => h.large ?_⟩
    by_contra hle
    obtain hzero := Nat.eq_zero_of_not_pos hle
    rw [hzero, roundUp_zero] at hsize
    exact absurd hsize (Nat.lt_irrefl 0)

/-- So are the members of a compound. -/
theorem wordAligned_layoutMembers (habi : abi.AlignsToWords) (packing : ℕ) :
    ∀ (members : List NativeType) (layout : Layout), WordAligned layout →
      WordAligned (layoutMembers abi packing members layout)
  | [], _, h => h
  | member :: members, _, h =>
    wordAligned_layoutMembers habi packing members _
      (h.addMember habi.1 packing (member.wordAligned_layout habi))

end

/-- On such a target alignments are multiples of four. -/
theorem four_dvd_alignment (habi : abi.AlignsToWords) {type : NativeType}
    (hsize : 0 < type.sizeInBytes abi) : 4 ∣ type.alignmentInBytesStack abi := by
  have h := type.wordAligned_layout habi
  have hcases := h.cases
  have hlarge := h.large hsize
  unfold alignmentInBytesStack
  omega

end Alignment

/-! ## Declared types -/

/-- The packings that a declaration can ask for; the last one stands for none. -/
def packings : List ℕ := [1, 2, 4, 8, 16, 0x7FFFFFFF]

mutual

/-- **Types of declarations**: no part is void, array elements are not arrays, and a compound has
members. -/
def NativeType.Declared : NativeType → Prop
  | .primitive p => p ≠ .void
  | .array elementType length =>
    elementType.Declared ∧ (∀ e n, elementType ≠ .array e n) ∧ 0 < length
  | .compound members memberPacking =>
    members ≠ [] ∧ memberPacking ∈ packings ∧ AllDeclared members

/-- All members of a compound are declared. -/
def AllDeclared : List NativeType → Prop
  | [] => True
  | member :: members => member.Declared ∧ AllDeclared members

end

mutual

/-- All primitive members are of one type. -/
def NativeType.onlyOf (p : PrimitiveType) : NativeType → Bool
  | .primitive q => q = p
  | .array elementType _ => elementType.onlyOf p
  | .compound members _ => allOnlyOf p members

/-- All primitive members of some members are of one type. -/
def allOnlyOf (p : PrimitiveType) : List NativeType → Bool
  | [] => true
  | member :: members => member.onlyOf p && allOnlyOf p members

end

mutual

/-- The flags of the recursion, in closed form: a type has only floats, or only doubles. -/
theorem homogenuousFloats_eq : ∀ (type : NativeType), type.Declared → ∀ f d : Bool,
    homogenuousFloats type (f, d) = (f && type.onlyOf .float, d && type.onlyOf .double)
  | .primitive p, _, f, d => by rw [homogenuousFloats, onlyOf, onlyOf]
  | .array (.primitive p) length, _, f, d => by
    simp only [homogenuousFloats, onlyOf]
  | .array (.array e n) length, h, f, d => absurd rfl (h.2.1 e n)
  | .array (.compound members packing) length, h, f, d => by
    rw [homogenuousFloats, containsHomogenuousFloatsRecursive_eq members h.1.2.2]
    simp only [onlyOf]
  | .compound members packing, h, f, d => by
    rw [homogenuousFloats, containsHomogenuousFloatsRecursive_eq members h.2.2]
    simp only [onlyOf]

/-- The same for lists of types. -/
theorem containsHomogenuousFloatsRecursive_eq : ∀ (types : List NativeType), AllDeclared types →
    ∀ f d : Bool, containsHomogenuousFloatsRecursive types (f, d) =
      (f && allOnlyOf .float types, d && allOnlyOf .double types)
  | [], _, f, d => by simp [containsHomogenuousFloatsRecursive, allOnlyOf]
  | type :: types, h, f, d => by
    rw [containsHomogenuousFloatsRecursive, homogenuousFloats_eq type h.1,
      containsHomogenuousFloatsRecursive_eq types h.2, allOnlyOf, allOnlyOf, Bool.and_assoc,
      Bool.and_assoc]

end

/-- **Homogenous layout**: the size of a number of elements, with a field alignment
that divides it. -/
structure Homogenous (elemSize count : ℕ) (layout : Layout) : Prop where
  size_eq : layout.size = elemSize * count
  align_le : layout.alignmentField ≤ elemSize
  align_cases : layout.alignmentField = 1 ∨ layout.alignmentField = 2 ∨ layout.alignmentField = 4 ∨
    layout.alignmentField = 8

section Homogenous

variable {abi : Abi} {elemSize : ℕ}

/-- Multiples of the size of a float are aligned for every smaller alignment. -/
theorem mod_of_cases (helem : elemSize = 4 ∨ elemSize = 8) {a : ℕ} (hle : a ≤ elemSize)
    (ha : a = 1 ∨ a = 2 ∨ a = 4 ∨ a = 8) (count : ℕ) : elemSize * count % a = 0 := by
  apply Nat.mod_eq_zero_of_dvd
  apply Nat.dvd_mul_right_of_dvd
  rcases helem with rfl | rfl <;> rcases ha with rfl | rfl | rfl | rfl <;> revert hle <;> decide

/-- A member of the same float type leaves no gap. -/
theorem Homogenous.addMember (helem : elemSize = 4 ∨ elemSize = 8) {packing : ℕ}
    (hpacking : packing ∈ packings) {count count' : ℕ} {layout member : Layout}
    (h : Homogenous elemSize count layout) (hmember : Homogenous elemSize count' member) :
    Homogenous elemSize (count + count') (layout.addMember abi packing member) := by
  have halign : min member.alignmentField packing = 1 ∨ min member.alignmentField packing = 2 ∨
      min member.alignmentField packing = 4 ∨ min member.alignmentField packing = 8 := by
    have hcases := hmember.align_cases
    simp only [packings, List.mem_cons, List.not_mem_nil, or_false] at hpacking
    omega
  have hle : min member.alignmentField packing ≤ elemSize :=
    (Nat.min_le_left _ _).trans hmember.align_le
  constructor
  · rw [Layout.addMember]
    rw [h.size_eq, hmember.size_eq, roundUp_of_mod (mod_of_cases helem hle halign count),
      Nat.mul_add]
  · exact Nat.max_le.mpr ⟨h.align_le, hle⟩
  have hcases := h.align_cases
  change max layout.alignmentField (min member.alignmentField packing) = 1 ∨
    max layout.alignmentField (min member.alignmentField packing) = 2 ∨
    max layout.alignmentField (min member.alignmentField packing) = 4 ∨
    max layout.alignmentField (min member.alignmentField packing) = 8
  omega

variable {p : PrimitiveType}

/-- A float is one float. -/
theorem homogenous_primitive (hp : p = .float ∨ p = .double) :
    Homogenous p.sizeInBytes 1 (layout abi (.primitive p)) := by
  rw [layout]
  refine ⟨(mul_one _).symm, ?_, ?_⟩ <;> dsimp only [PrimitiveType.alignmentInBytesField] <;>
    rcases hp with rfl | rfl <;> split <;> decide

mutual

/-- A declared type whose primitive members are all floats, or all doubles. -/
theorem NativeType.homogenous_layout (hp : p = .float ∨ p = .double) :
    ∀ type : NativeType, type.Declared → type.onlyOf p →
      Homogenous p.sizeInBytes type.numPrimitiveMembersRecursive (type.layout abi)
  | .primitive q, _, honly => by
    rw [onlyOf, decide_eq_true_eq] at honly
    subst honly
    rw [numPrimitiveMembersRecursive]
    exact homogenous_primitive hp
  | .array elementType length, h, honly => by
    rw [NativeType.Declared] at h
    rw [onlyOf] at honly
    have helement := elementType.homogenous_layout hp h.1 honly
    rw [numPrimitiveMembersRecursive, layout]
    refine ⟨?_, helement.align_le, helement.align_cases⟩
    dsimp only
    rw [helement.size_eq, mul_assoc]
  | .compound members packing, h, honly => by
    rw [NativeType.Declared] at h
    rw [onlyOf] at honly
    have helem : p.sizeInBytes = 4 ∨ p.sizeInBytes = 8 := by rcases hp with rfl | rfl <;> decide
    rw [numPrimitiveMembersRecursive, layout]
    have hmembers := homogenous_layoutMembers hp h.2.1 members h.2.2 honly 0
      ⟨0, 1, if abi.ios ∧ abi.arch = .arm64 ∧ ¬containsHomogenuousFloatsInternal members then
        abi.wordSize else 1, []⟩
      ⟨rfl, by dsimp only; omega, .inl rfl⟩
    rw [zero_add] at hmembers
    refine ⟨?_, hmembers.align_le, hmembers.align_cases⟩
    dsimp only
    rw [hmembers.size_eq, roundUp_of_mod (mod_of_cases helem hmembers.align_le
      hmembers.align_cases _)]

/-- Members of one float type are laid out without gaps. -/
theorem homogenous_layoutMembers (hp : p = .float ∨ p = .double) {packing : ℕ}
    (hpacking : packing ∈ packings) :
    ∀ members : List NativeType, AllDeclared members → allOnlyOf p members →
      ∀ (count : ℕ) (layout : Layout), Homogenous p.sizeInBytes count layout →
      Homogenous p.sizeInBytes (count + sumPrimitiveMembers members)
        (layoutMembers abi packing members layout)
  | [], _, _, count, layout, hlayout => hlayout
  | member :: members, h, honly, count, layout, hlayout => by
    rw [allOnlyOf, Bool.and_eq_true] at honly
    have helem : p.sizeInBytes = 4 ∨ p.sizeInBytes = 8 := by rcases hp with rfl | rfl <;> decide
    rw [sumPrimitiveMembers, ← add_assoc]
    exact homogenous_layoutMembers hp hpacking members h.2 honly.2 _ _
      (hlayout.addMember helem hpacking (member.homogenous_layout hp h.1 honly.1))

end

/-- A declared type has a primitive member. -/
theorem NativeType.numPrimitiveMembers_pos : ∀ type : NativeType, type.Declared →
    0 < type.numPrimitiveMembersRecursive
  | .primitive _, _ => one_pos
  | .array elementType _, h => Nat.mul_pos (elementType.numPrimitiveMembers_pos h.1) h.2.2
  | .compound [] _, h => absurd rfl h.1
  | .compound (member :: _) _, h =>
    Nat.add_pos_left (member.numPrimitiveMembers_pos h.2.2.1) _

/-- A type of floats only has the float as its first member. -/
theorem NativeType.firstPrimitiveMember_of_onlyOf :
    ∀ type : NativeType, type.Declared → type.onlyOf p → type.firstPrimitiveMember = some p
  | .primitive q, _, honly => by
    rw [onlyOf, decide_eq_true_eq] at honly
    rw [firstPrimitiveMember, honly]
  | .array elementType length, h, honly => elementType.firstPrimitiveMember_of_onlyOf h.1 honly
  | .compound [] _, h, _ => absurd rfl h.1
  | .compound (member :: members) _, h, honly => by
    rw [onlyOf, allOnlyOf, Bool.and_eq_true] at honly
    rw [firstPrimitiveMember, firstOfMembers,
      if_pos (show _ ≥ 1 from member.numPrimitiveMembers_pos h.2.2.1)]
    exact member.firstPrimitiveMember_of_onlyOf h.2.2.1 honly.1

end Homogenous

/-- Declared types are aligned to four or eight bytes. -/
theorem NativeType.alignment_of_declared {abi : Abi} (habi : abi.AlignsToWords) :
    ∀ type : NativeType, type.Declared →
      type.alignmentInBytesStack abi = 4 ∨ type.alignmentInBytesStack abi = 8
  | .primitive p, h => by
    have hsize : 0 < p.sizeInBytes := by
      cases p <;> first | exact absurd rfl h | decide
    have haligned := wordAligned_layout habi (.primitive p)
    have hlarge := haligned.large (by rwa [layout])
    have hcases := haligned.cases
    unfold alignmentInBytesStack
    omega
  | .array elementType length, h => by
    have helement := elementType.alignment_of_declared habi h.1
    rwa [alignmentInBytesStack, layout]
  | .compound [] _, h => absurd rfl h.1
  | .compound (member :: members) packing, h => by
    have hmember := member.alignment_of_declared habi h.2.2.1
    have hword := habi.1
    have hcases := (wordAligned_layout habi (.compound (member :: members) packing)).cases
    unfold alignmentInBytesStack at hmember ⊢
    rw [layout, layoutMembers] at hcases ⊢
    dsimp only at hcases ⊢
    -- The first member already raises the alignment.
    have hle := le_alignmentStack_layoutMembers abi packing members
      (Layout.addMember abi packing ⟨0, 1, if abi.ios ∧ abi.arch = .arm64 ∧
        ¬containsHomogenuousFloatsInternal (member :: members) then abi.wordSize else 1, []⟩
        (member.layout abi))
    have hfirst : 4 ≤ (Layout.addMember abi packing ⟨0, 1, if abi.ios ∧ abi.arch = .arm64 ∧
        ¬containsHomogenuousFloatsInternal (member :: members) then abi.wordSize else 1, []⟩
        (member.layout abi)).alignmentStack := by
      refine le_trans ?_ (le_max_right _ _)
      split <;> omega
    omega

/-- **A declared compound of homogenous floats** begins with a float or a double, and is as large as
its members together. -/
theorem homogenuousFloats_spec (abi : Abi) {type : NativeType} (h : type.Declared)
    (hfloats : type.containsHomogenuousFloats) :
    ∃ p, (p = .float ∨ p = .double) ∧ type.firstPrimitiveMember = some p ∧
      type.sizeInBytes abi = p.sizeInBytes * type.numPrimitiveMembersRecursive := by
  cases type with
  | primitive p | array e n => exact absurd hfloats (by simp [containsHomogenuousFloats])
  | compound members packing =>
    have hmembers : AllDeclared members := h.2.2
    rw [containsHomogenuousFloats, containsHomogenuousFloatsInternal,
      containsHomogenuousFloatsRecursive_eq members hmembers] at hfloats
    simp only [Bool.true_and, Bool.and_eq_true, Bool.or_eq_true] at hfloats
    rcases hfloats.1 with honly | honly
    · have honly' : onlyOf .double (.compound members packing) := by
        rwa [onlyOf]
      exact ⟨.double, .inr rfl, firstPrimitiveMember_of_onlyOf _ h honly',
        (homogenous_layout (.inr rfl) _ h honly').size_eq⟩
    · have honly' : onlyOf .float (.compound members packing) := by
        rwa [onlyOf]
      exact ⟨.float, .inl rfl, firstPrimitiveMember_of_onlyOf _ h honly',
        (homogenous_layout (.inl rfl) _ h honly').size_eq⟩

end DartVm.Ffi
