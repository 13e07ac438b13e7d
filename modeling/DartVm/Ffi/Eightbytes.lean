import DartVm.Ffi.Layout

/-! # Eightbytes that hold only floats

`ContainsOnlyFloats` walks through nested compounds and arrays with a range that is clipped to each
of their parts.  Here a type is the set of its primitive members with their offsets, and a range
holds only floats if every member that has a byte in it is one; for the types that signatures
declare the two agree.

* `NativeType.HasField`: the primitive members of a type.
* `containsOnlyFloats_iff`: the walk decides what it should. -/

namespace DartVm.Ffi

open NativeType Range Nat

mutual

/-- **A primitive member** at an offset. -/
def NativeType.HasField (abi : Abi) : NativeType → ℕ → PrimitiveType → Prop
  | .primitive q, offset, p => offset = 0 ∧ p = q
  | .array elementType length, offset, p =>
    ∃ i < length, ∃ o, offset = i * elementType.sizeInBytes abi + o ∧ elementType.HasField abi o p
  | .compound members memberPacking, offset, p =>
    MembersHaveField abi members
      (layout abi (.compound members memberPacking)).memberOffsets offset p

/-- A primitive member of some members, which have offsets of their own. -/
def MembersHaveField (abi : Abi) : List NativeType → List ℕ → ℕ → PrimitiveType → Prop
  | member :: members, memberOffset :: offsets, offset, p =>
    (∃ o, offset = memberOffset + o ∧ member.HasField abi o p) ∨
      MembersHaveField abi members offsets offset p
  | _, _, _, _ => False

end

/-- **A range holds only floats**: every primitive member that has a byte in it is one. -/
def NativeType.FloatOnly (abi : Abi) (type : NativeType) (range : Range) : Prop :=
  ∀ offset p, type.HasField abi offset p → offset < range.endExclusive →
    range.start < offset + p.sizeInBytes → p.isFloat

section Fields

variable {abi : Abi} {member : NativeType}

/-- The offsets that the loop of `FromNativeTypes` adds. -/
def offsetsFrom (abi : Abi) (packing : ℕ) : List NativeType → ℕ → List ℕ
  | [], _ => []
  | member :: members, size =>
    let offset := roundUp size (min (member.layout abi).alignmentField packing)
    offset :: offsetsFrom abi packing members (offset + member.sizeInBytes abi)

/-- The offsets of the members, from the end of those before. -/
theorem memberOffsets_layoutMembers (packing : ℕ) (members : List NativeType) (layout : Layout) :
    (layoutMembers abi packing members layout).memberOffsets =
      layout.memberOffsets ++ offsetsFrom abi packing members layout.size := by
  induction members generalizing layout with
  | nil => simp [layoutMembers, offsetsFrom]
  | cons member members ih =>
    rw [layoutMembers, ih, offsetsFrom, Layout.addMember]
    simp [sizeInBytes]

/-- The layout of a compound is that of its members, with a rounded size. -/
theorem layout_compound (abi : Abi) (members : List NativeType) (packing : ℕ) :
    ∃ start : Layout, start.size = 0 ∧ start.alignmentField = 1 ∧
      sizeInBytes abi (.compound members packing) =
        roundUp (layoutMembers abi packing members start).size
          (layoutMembers abi packing members start).alignmentField ∧
      (layout abi (.compound members packing)).alignmentField =
        (layoutMembers abi packing members start).alignmentField ∧
      (layout abi (.compound members packing)).memberOffsets =
        offsetsFrom abi packing members start.size := by
  refine ⟨⟨0, 1, if abi.ios ∧ abi.arch = .arm64 ∧ ¬containsHomogenuousFloatsInternal members then
    abi.wordSize else 1, []⟩, rfl, rfl, ?_⟩
  exact ⟨rfl, rfl, memberOffsets_layoutMembers packing members _⟩

/-- **Laid out**: a type takes up space, and its primitive members lie within it. -/
structure NativeType.Laid (abi : Abi) (type : NativeType) : Prop where
  size_pos : 0 < type.sizeInBytes abi
  align_pos : 0 < (type.layout abi).alignmentField
  field : ∀ offset p, type.HasField abi offset p →
    offset + p.sizeInBytes ≤ type.sizeInBytes abi ∧ 0 < p.sizeInBytes

/-- Members laid out after others: their space comes after these, and their primitive members lie in
it. -/
structure MembersLaid (abi : Abi) (packing : ℕ) (members : List NativeType) (layout : Layout) :
    Prop where
  align_le : layout.alignmentField ≤ (layoutMembers abi packing members layout).alignmentField
  size_le : layout.size ≤ (layoutMembers abi packing members layout).size
  size_lt : members ≠ [] → layout.size < (layoutMembers abi packing members layout).size
  field : ∀ offset p, MembersHaveField abi members (offsetsFrom abi packing members layout.size)
    offset p → layout.size ≤ offset ∧
      offset + p.sizeInBytes ≤ (layoutMembers abi packing members layout).size ∧ 0 < p.sizeInBytes

/-- An array is as large as its elements. -/
theorem sizeInBytes_array (elementType : NativeType) (length : ℕ) :
    sizeInBytes abi (.array elementType length) = length * elementType.sizeInBytes abi :=
  mul_comm _ _

/-- A member is added at the next offset with its alignment. -/
theorem size_addMember (abi : Abi) (layout : Layout) (packing : ℕ) (member : NativeType) :
    (layout.addMember abi packing (member.layout abi)).size =
      roundUp layout.size
        (min (member.layout abi).alignmentField packing) + member.sizeInBytes abi :=
  rfl

theorem not_membersHaveField_nil {offsets : List ℕ} {offset : ℕ} {p : PrimitiveType} :
    ¬MembersHaveField abi [] offsets offset p := by
  rw [MembersHaveField]
  · exact not_false
  · nofun

/-- No packing is zero. -/
theorem packing_pos {packing : ℕ} (h : packing ∈ packings) : 0 < packing := by
  simp only [packings, List.mem_cons, List.not_mem_nil, or_false] at h
  omega

/-- Members are laid out one after another. -/
theorem membersLaid_cons {packing : ℕ} (hpacking : 0 < packing)
    {members : List NativeType} {layout : Layout} (hmember : member.Laid abi)
    (h : MembersLaid abi packing members (layout.addMember abi packing (member.layout abi))) :
    MembersLaid abi packing (member :: members) layout := by
  have hoffset := le_roundUp layout.size (Nat.lt_min.mpr ⟨hmember.align_pos, hpacking⟩)
  have hsize := size_addMember abi layout packing member
  have hlt := hmember.size_pos
  have hle := h.size_le
  refine ⟨(le_max_left _ _).trans h.align_le, ?_, fun _ => ?_, ?_⟩
  · rw [layoutMembers]
    omega
  · rw [layoutMembers]
    omega
  intro offset p hfield
  rw [layoutMembers]
  rcases hfield with ⟨o, rfl, hfield⟩ | hfield
  · have hbound := hmember.field o p hfield
    omega
  · have hbound := h.field offset p hfield
    omega

mutual

/-- Every declared type is laid out: its fields do not overlap and lie inside. -/
theorem NativeType.laid (abi : Abi) : ∀ type : NativeType, type.Declared → type.Laid abi
  | .primitive p, h => by
    have hpos : 0 < p.sizeInBytes := by cases p <;> first | exact absurd rfl h | decide
    refine ⟨by rwa [sizeInBytes, layout], ?_, fun offset q hfield => ?_⟩
    · change 0 < p.alignmentInBytesField abi
      unfold PrimitiveType.alignmentInBytesField
      repeat' split
      all_goals omega
    · obtain ⟨rfl, rfl⟩ := hfield
      exact ⟨le_of_eq (zero_add _), hpos⟩
  | .array elementType length, h => by
    have helement := elementType.laid abi h.1
    refine ⟨?_, ?_, fun offset p hfield => ?_⟩
    · rw [sizeInBytes_array]
      exact Nat.mul_pos h.2.2 helement.size_pos
    · exact helement.align_pos
    · obtain ⟨i, hi, o, rfl, hfield⟩ := hfield
      have hbound := helement.field o p hfield
      have hle := mul_le_mul_right (elementType.sizeInBytes abi) (succ_le_of_lt hi)
      rw [succ_mul] at hle
      rw [sizeInBytes_array]
      omega
  | .compound members packing, h => by
    obtain ⟨start, hzero, hone, hsize, halign, hoffsets⟩ := layout_compound abi members packing
    have hmembers := membersLaid abi (packing_pos h.2.1) members h.2.2 start
    have hpos := hone ▸ hmembers.align_le
    have hle := le_roundUp (layoutMembers abi packing members start).size hpos
    have hlt := hmembers.size_lt h.1
    refine ⟨by omega, by omega, fun offset p hfield => ?_⟩
    rw [HasField, hoffsets] at hfield
    have hbound := hmembers.field offset p hfield
    omega

/-- So are the members of a compound. -/
theorem membersLaid (abi : Abi) {packing : ℕ} (hpacking : 0 < packing) :
    ∀ members : List NativeType, AllDeclared members → ∀ layout : Layout,
      MembersLaid abi packing members layout
  | [], _, _ =>
    ⟨le_rfl, le_rfl, fun h => absurd rfl h, fun _ _ h => (not_membersHaveField_nil h).elim⟩
  | member :: members, h, _ =>
    membersLaid_cons hpacking (member.laid abi h.1) (membersLaid abi hpacking members h.2 _)

end

/-- The part of a range in a member that starts at an offset holds only floats. -/
def NativeType.FloatOnlyAt (abi : Abi) (start : ℕ) (member : NativeType) (range : Range) : Prop :=
  ∀ offset p, member.HasField abi offset p → start + offset < range.endExclusive →
    range.start < start + offset + p.sizeInBytes → p.isFloat

/-- What a member says about a range, shifted to its offset. -/
theorem floatOnly_back (h : member.Laid abi) (range : Range) (start : ℕ) :
    member.FloatOnly abi
        ((intersect ⟨start, start + member.sizeInBytes abi⟩ range).back start) ↔
      member.FloatOnlyAt abi start range := by
  unfold FloatOnly FloatOnlyAt intersect back
  dsimp only
  -- A member lies within the type, so that clipping the range to it makes no difference.
  constructor <;> intro hfloat offset p hfield h1 h2
  all_goals
    have hbound := h.field offset p hfield
    exact hfloat offset p hfield (by omega) (by omega)

/-- Intersection does not depend on the order. -/
theorem Range.intersect_comm (range other : Range) :
    range.intersect other = other.intersect range := by
  rw [intersect, intersect, max_comm, min_comm]

/-- An array has only floats in a range if all elements do. -/
theorem floatOnly_array {elementType : NativeType} {length : ℕ} {range : Range} :
    FloatOnly abi (.array elementType length) range ↔
      ∀ i < length, elementType.FloatOnlyAt abi (i * elementType.sizeInBytes abi) range := by
  constructor
  · exact fun h i hi offset p hfield => h _ p ⟨i, hi, offset, rfl, hfield⟩
  · rintro h _ p ⟨i, hi, offset, rfl, hfield⟩
    exact h i hi offset p hfield

/-- When ranges overlap. -/
theorem overlaps_iff {range other : Range} : range.overlaps other ↔
    range.start < other.endExclusive ∧ other.start < range.endExclusive := by
  simp [overlaps, after]

mutual

/-- **`ContainsOnlyFloats`** decides whether a range holds only floats. -/
theorem containsOnlyFloats_iff (abi : Abi) : ∀ type : NativeType, type.Declared → ∀ range : Range,
    range.start < range.endExclusive → range.endExclusive ≤ type.sizeInBytes abi →
    (type.containsOnlyFloats abi range ↔ type.FloatOnly abi range)
  | .primitive p, _, range, hlt, hle => by
    rw [sizeInBytes, layout] at hle
    constructor
    · intro hfloat offset q hfield _ _
      exact hfield.2 ▸ hfloat
    · intro hfloat
      refine hfloat 0 p ?_ (by omega) (by dsimp only at hle; omega)
      exact ⟨rfl, rfl⟩
  | .array elementType length, h, range, hlt, hle => by
    have hlaid := elementType.laid abi h.1
    have hpos := hlaid.size_pos
    rw [sizeInBytes_array] at hle
    rw [floatOnly_array, containsOnlyFloats]
    set size := elementType.sizeInBytes abi with hsizeOf
    set first := range.start / size
    set last := (range.endExclusive - 1) / size
    have hfirst : first * size ≤ range.start := div_mul_le_self _ _
    have hfirst' : range.start < first * size + size := lt_div_mul_add hpos
    have hlast : last * size ≤ range.endExclusive - 1 := div_mul_le_self _ _
    have hsucc : (first + 1) * size = first * size + size := succ_mul _ _
    -- The elements that have bytes in the range are those from the first to the last one.
    have hwithin : ∀ i, i * size < range.endExclusive → range.start < i * size + size →
        first ≤ i ∧ i ≤ last := by
      intro i h1 h2
      refine ⟨le_of_lt_succ ((div_lt_iff_lt_mul hpos).mpr ?_),
        (le_div_iff_mul_le hpos).mpr (by omega)⟩
      rwa [succ_mul]
    have hin : ∀ i, i * size < range.endExclusive → range.start < i * size + size →
        (elementType.containsOnlyFloats abi
          ((range.intersect ⟨i * size, i * size + size⟩).back (i * size)) ↔
          elementType.FloatOnlyAt abi (i * size) range) := by
      intro i h1 h2
      rw [intersect_comm, containsOnlyFloats_iff abi elementType h.1 _
        (by simp only [intersect, back]; omega)
        (by simp only [intersect, back]; omega)]
      exact floatOnly_back hlaid range (i * size)
    have hlength : ∀ i, i * size < range.endExclusive → i < length :=
      fun i hi => Nat.lt_of_mul_lt_mul_right (Nat.lt_of_lt_of_le hi hle)
    split
    next hmany =>
      -- The second element is in the range as a whole.
      have hmul := mul_le_mul_right size (show first + 2 ≤ last by omega)
      rw [succ_mul, hsucc] at hmul
      rw [containsOnlyFloats_iff abi elementType h.1 ⟨0, size⟩ hpos le_rfl]
      constructor
      · intro hall i _ offset p hfield _ _
        have hbound := hlaid.field offset p hfield
        exact hall offset p hfield (by dsimp only; omega) (by dsimp only; omega)
      · intro hall offset p hfield _ _
        have hbound := hlaid.field offset p hfield
        exact hall (first + 1) (hlength _ (by omega)) offset p hfield (by omega) (by omega)
    next hfew =>
      have hfirstIn := hin first (by omega) hfirst'
      have hcases : (∀ i < length, elementType.FloatOnlyAt abi (i * size) range) ↔
          elementType.FloatOnlyAt abi (first * size) range ∧
            (last - first + 1 = 2 → elementType.FloatOnlyAt abi ((first + 1) * size) range) := by
        constructor
        · refine fun hall => ⟨hall first (hlength first (by omega)), fun htwo => ?_⟩
          rw [show last = first + 1 by omega] at hlast
          exact hall _ (hlength _ (by omega))
        rintro ⟨hone, htwo⟩ i hi offset p hfield h1 h2
        have hbound := hlaid.field offset p hfield
        obtain ⟨hge, hle⟩ := hwithin i (by omega) (by omega)
        rcases (show i = first ∨ i = first + 1 by omega) with rfl | rfl
        · exact hone offset p hfield h1 h2
        · exact htwo (by omega) offset p hfield h1 h2
      rw [hcases, ← hfirstIn]
      cases elementType.containsOnlyFloats abi
          ((range.intersect ⟨first * size, first * size + size⟩).back (first * size)) with
      | false => simp
      | true =>
        rw [if_neg (by decide)]
        split
        next htwo =>
          rw [show last = first + 1 by omega] at hlast
          rw [hin _ (by omega) (by omega)]
          exact ⟨fun h => ⟨rfl, fun _ => h⟩, fun h => h.2 htwo⟩
        next htwo => exact iff_of_true rfl ⟨rfl, fun h => absurd h htwo⟩
  | .compound members packing, h, range, hlt, hle => by
    obtain ⟨start, hzero, hone, hsize, halign, hoffsets⟩ := layout_compound abi members packing
    rw [containsOnlyFloats, hoffsets, membersContainOnlyFloats_iff abi
      (packing_pos h.2.1) members h.2.2 start range hlt]
    simp only [FloatOnly, HasField, hoffsets]

/-- The loop over the members finds out whether all fields in the range are floats. -/
theorem membersContainOnlyFloats_iff (abi : Abi) {packing : ℕ} (hpacking : 0 < packing) :
    ∀ members : List NativeType, AllDeclared members → ∀ (layout : Layout) (range : Range),
      range.start < range.endExclusive →
      (membersContainOnlyFloats abi members (offsetsFrom abi packing members layout.size) range ↔
        ∀ offset p, MembersHaveField abi members
          (offsetsFrom abi packing members layout.size) offset p →
          offset < range.endExclusive → range.start < offset + p.sizeInBytes → p.isFloat)
  | [], _, layout, range, _ => iff_of_true rfl fun _ _ h => (not_membersHaveField_nil h).elim
  | member :: members, h, layout, range, hlt => by
    have hlaid := member.laid abi h.1
    have hrest := membersContainOnlyFloats_iff abi hpacking members h.2
      (layout.addMember abi packing (member.layout abi)) range hlt
    have hafter := (membersLaid abi hpacking members h.2
      (layout.addMember abi packing (member.layout abi))).field
    have hpos := hlaid.size_pos
    rw [size_addMember] at hrest hafter
    rw [offsetsFrom, membersContainOnlyFloats]
    set start := roundUp layout.size (min (member.layout abi).alignmentField packing)
    have hmember := containsOnlyFloats_iff abi member h.1
      ((intersect ⟨start, start + member.sizeInBytes abi⟩ range).back start)
    rw [floatOnly_back hlaid] at hmember
    -- The range clipped to the member decides about the member.
    have hfirst : (range.overlaps ⟨start, start + member.sizeInBytes abi⟩ →
      member.containsOnlyFloats abi
          ((intersect ⟨start, start + member.sizeInBytes abi⟩ range).back start)) ↔
        member.FloatOnlyAt abi start range := by
      rw [overlaps_iff]
      by_cases hoverlap : range.start < start + member.sizeInBytes abi ∧ start < range.endExclusive
      · rw [hmember (by simp only [intersect, back]; omega)
          (by simp only [intersect, back]; omega)]
        exact ⟨fun himp => himp hoverlap, fun hall _ => hall⟩
      · refine iff_of_true (fun h => absurd h hoverlap) fun o p hfield h1 h2 => ?_
        have hbound := hlaid.field o p hfield
        omega
    -- The loop breaks at a member behind the range: nothing later is in it.
    have hlater : (if after ⟨start, start + member.sizeInBytes abi⟩ range then true else
          membersContainOnlyFloats abi members
            (offsetsFrom abi packing members (start + member.sizeInBytes abi)) range) ↔
        ∀ o p, MembersHaveField abi members
            (offsetsFrom abi packing members (start + member.sizeInBytes abi)) o p →
          o < range.endExclusive → range.start < o + p.sizeInBytes → p.isFloat := by
      split
      next hbreak =>
        refine iff_of_true rfl fun o p hfield h1 h2 => ?_
        have hbound := hafter o p hfield
        have hend : range.endExclusive ≤ start := of_decide_eq_true hbreak
        omega
      next => exact hrest
    constructor
    · intro hfloat offset p hfield h1 h2
      split at hfloat
      · cases hfloat
      next hmember =>
        rcases hfield with ⟨o, rfl, hfield⟩ | hfield
        · exact hfirst.mp (by simpa using hmember) o p hfield h1 h2
        · exact hlater.mp hfloat offset p hfield h1 h2
    · intro hall
      rw [if_neg]
      · exact hlater.mpr fun o p hfield => hall o p (.inr hfield)
      · have := hfirst.mpr fun o p hfield => hall _ p (.inl ⟨o, rfl, hfield⟩)
        simpa using this

end

/-- The eightbytes of a type that hold only floats. -/
noncomputable def NativeType.floatEightbytes (abi : Abi) (type : NativeType) : ℕ :=
  open Classical in (type.chunks abi).countP fun range => type.FloatOnly abi range

end Fields

end DartVm.Ffi
