import DartVm.Library.Int64

/-! # Range boundaries

The model of `RangeBoundary` (`range_analysis.h`, `range_analysis.cc`): a boundary is unknown,
infinite, a constant, or a definition plus an offset.  A definition carries its own range, which may
be symbolic; these form a finite tree, so the bounds are computed by recursion.  `Valuation`s give
the definitions their run-time values, and `RangeBoundary.Valid` is the standing assumption: every
symbol denotes a Smi in its own range.

* `clamp`, `symbolicAdd`, `symbolicSub`: the operations on boundaries.
* `RangeBoundary.Valid`: the standing assumption.
* `bound_spec`: the constant bounds of a boundary. -/

namespace DartVm

/-- The target's Smi size: `kSmiBits` is 62, or 30 on 32-bit targets and with compressed
pointers. -/
structure Target where
  /-- Number of bits in the magnitude of a Smi. -/
  smiBits : ℕ
  supported : smiBits = 30 ∨ smiBits = 62

namespace Target

/-- The largest small integer of the target. -/
def smiMax (t : Target) : ℤ := 2 ^ t.smiBits - 1

/-- The smallest small integer of the target. -/
def smiMin (t : Target) : ℤ := -2 ^ t.smiBits

/-- Small integers have at most 63 bits. -/
theorem smi_bounds (t : Target) :
    t.smiMin = -(t.smiMax + 1) ∧ 0 < t.smiMax ∧ t.smiMax < 2 ^ 62 := by
  unfold smiMin smiMax
  rcases t.supported with h | h <;> rw [h] <;> norm_num

end Target

/-- `RangeBoundary::RangeSize`. -/
inductive RangeSize where
  | smi
  | int16
  | int32
  | int64
  deriving DecidableEq, Repr

/-- What the range analysis asks of a definition besides its range. -/
structure DefinitionInfo where
  /-- The value of a constant definition that is a Smi. -/
  smiConstant : Option ℤ
  isArrayLength : Bool
  deriving DecidableEq, Repr

mutual

/-- `RangeBoundary`, by its kinds. -/
inductive RangeBoundary where
  | unknown
  | negativeInfinity
  | positiveInfinity
  /-- `kSymbol`: the value of a definition plus an offset. -/
  | symbol (defn : Definition) (offset : ℤ)
  | constant (value : ℤ)

/-- A definition of the flow graph, with the range the analysis holds for it. -/
inductive Definition where
  /-- A definition by its SSA index. -/
  | mk (ssaIndex : ℕ) (info : DefinitionInfo) (range : RangePtr)

/-- The `Range*` of a definition. -/
inductive RangePtr where
  /-- No range is known. -/
  | null
  | range (min max : RangeBoundary)

end

namespace Definition

/-- The facts about the definition. -/
def info : Definition → DefinitionInfo
  | .mk _ info _ => info

end Definition

/-- `Utils::WillAddOverflow`. -/
def willAddOverflow (a b : ℤ) : Bool :=
  (b > 0 && a > int64Max - b) || (b < 0 && a < int64Min - b)

/-- `Utils::WillSubOverflow`. -/
def willSubOverflow (a b : ℤ) : Bool :=
  (b > 0 && a < int64Min + b) || (b < 0 && a > int64Max + b)

/-- The test for overflow is exact. -/
theorem willAddOverflow_eq_false {a b : ℤ} (ha : IsInt64 a) :
    willAddOverflow a b = false ↔ IsInt64 (a + b) := by
  unfold willAddOverflow IsInt64 at *
  simp only [Bool.or_eq_false_iff, Bool.and_eq_false_imp, decide_eq_true_eq,
    decide_eq_false_iff_not]
  omega

/-- The test for overflow is exact. -/
theorem willSubOverflow_eq_false {a b : ℤ} (ha : IsInt64 a) :
    willSubOverflow a b = false ↔ IsInt64 (a - b) := by
  unfold willSubOverflow IsInt64 at *
  simp only [Bool.or_eq_false_iff, Bool.and_eq_false_imp, decide_eq_true_eq,
    decide_eq_false_iff_not]
  omega

namespace RangeBoundary

/-- `RangeBoundary::IsInfinity`. -/
def isInfinity : RangeBoundary → Bool
  | .negativeInfinity => true
  | .positiveInfinity => true
  | _ => false

/-- `RangeBoundary::MinConstant`, as a value. -/
def minConstant (t : Target) : RangeSize → ℤ
  | .smi => t.smiMin
  | .int16 => -2 ^ 15
  | .int32 => -2 ^ 31
  | .int64 => int64Min

/-- `RangeBoundary::MaxConstant`, as a value. -/
def maxConstant (t : Target) : RangeSize → ℤ
  | .smi => t.smiMax
  | .int16 => 2 ^ 15 - 1
  | .int32 => 2 ^ 31 - 1
  | .int64 => int64Max

/-- `RangeBoundary::Clamp`: infinities become the ends of the size, constants are moved into it. -/
def clamp (t : Target) (size : RangeSize) : RangeBoundary → RangeBoundary
  | .negativeInfinity => .constant (minConstant t size)
  | .positiveInfinity => .constant (maxConstant t size)
  | .constant v =>
    if v ≤ minConstant t size then .constant (minConstant t size)
    else if v ≥ maxConstant t size then .constant (maxConstant t size)
    else .constant v
  | b => b

/-- `RangeBoundary::Equals` on constants and infinities. -/
def equals : RangeBoundary → RangeBoundary → Bool
  | .constant a, .constant b => a == b
  | .negativeInfinity, .negativeInfinity => true
  | .positiveInfinity, .positiveInfinity => true
  | _, _ => false

/-- `RangeBoundary::Overflowed`; the source asserts that the boundary is constant or infinite. -/
def overflowed (t : Target) (size : RangeSize) (b : RangeBoundary) : Bool :=
  !b.equals (b.clamp t size)

/-- `RangeBoundary::IsValidOffsetForSymbolicRangeBoundary`. -/
def isValidOffset (t : Target) (offset : ℤ) : Bool :=
  !(offset > int64Max - t.smiMax || offset < int64Min - t.smiMin)

/-- `RangeBoundary::FromDefinition`: a constant definition is its value. -/
def fromDefinition (defn : Definition) (offs : ℤ) : RangeBoundary :=
  match defn.info.smiConstant with
  | some v => .constant (v + offs)
  | none => .symbol defn offs

/-- `RangeBoundary::Add`; both operands are constant or infinite. -/
def add : RangeBoundary → RangeBoundary → RangeBoundary → RangeBoundary
  | .constant a, .constant b, overflow =>
    if willAddOverflow a b then overflow else .constant (a + b)
  | _, _, overflow => overflow

/-- `RangeBoundary::Sub`; both operands are constant or infinite. -/
def sub : RangeBoundary → RangeBoundary → RangeBoundary → RangeBoundary
  | .constant a, .constant b, overflow =>
    if willSubOverflow a b then overflow else .constant (a - b)
  | _, _, overflow => overflow

/-- The common part of the two cases of `RangeBoundary::SymbolicAdd`: a symbol plus a constant. -/
def symbolPlus (t : Target) (defn : Definition) (offset value : ℤ) : Option RangeBoundary :=
  if willAddOverflow offset value then none
  else if !isValidOffset t (offset + value) then none
  else some (fromDefinition defn (offset + value))

/-- `RangeBoundary::SymbolicAdd`. -/
def symbolicAdd (t : Target) : RangeBoundary → RangeBoundary → Option RangeBoundary
  | .symbol defn offset, .constant v => symbolPlus t defn offset v
  | .constant v, .symbol defn offset => symbolPlus t defn offset v
  | _, _ => none

/-- `RangeBoundary::SymbolicSub`. -/
def symbolicSub (t : Target) : RangeBoundary → RangeBoundary → Option RangeBoundary
  | .symbol defn offset, .constant v =>
    if willSubOverflow offset v then none
    else if !isValidOffset t (offset - v) then none
    else some (fromDefinition defn (offset - v))
  | _, _ => none

end RangeBoundary

mutual

/-- `RangeBoundary::LowerBound`.  The source asserts that the boundary is not unknown. -/
def RangeBoundary.lowerBound (t : Target) : RangeBoundary → RangeBoundary
  | .constant v => .constant v
  | .symbol defn offset => .add (defn.constantMinSmi t) (.constant offset) .negativeInfinity
  | _ => .negativeInfinity

/-- `Range::ConstantMinSmi` of a definition's range. -/
def Definition.constantMinSmi (t : Target) : Definition → RangeBoundary
  | .mk _ _ range => range.constantMin t

/-- `Range::ConstantMin` at the size of a Smi. -/
def RangePtr.constantMin (t : Target) : RangePtr → RangeBoundary
  | .null => .constant (RangeBoundary.minConstant t .smi)
  | .range min _ => (min.lowerBound t).clamp t .smi

end

mutual

/-- `RangeBoundary::UpperBound`.  The source asserts that the boundary is not unknown. -/
def RangeBoundary.upperBound (t : Target) : RangeBoundary → RangeBoundary
  | .constant v => .constant v
  | .symbol defn offset => .add (defn.constantMaxSmi t) (.constant offset) .positiveInfinity
  | _ => .positiveInfinity

/-- `Range::ConstantMaxSmi` of a definition's range. -/
def Definition.constantMaxSmi (t : Target) : Definition → RangeBoundary
  | .mk _ _ range => range.constantMax t

/-- `Range::ConstantMax` at the size of a Smi. -/
def RangePtr.constantMax (t : Target) : RangePtr → RangeBoundary
  | .null => .constant (RangeBoundary.maxConstant t .smi)
  | .range _ max => (max.upperBound t).clamp t .smi

end

/-! ## What boundaries denote -/

/-- The run-time values of the definitions. -/
abbrev Valuation := Definition → ℤ

namespace RangeBoundary

/-- `x` is not below the boundary. -/
def Below (ρ : Valuation) : RangeBoundary → ℤ → Prop
  | .unknown, _ => False
  | .negativeInfinity, _ => True
  | .positiveInfinity, _ => False
  | .symbol defn offset, x => ρ defn + offset ≤ x
  | .constant v, x => v ≤ x

/-- `x` is not above the boundary. -/
def Above (ρ : Valuation) : RangeBoundary → ℤ → Prop
  | .unknown, _ => False
  | .negativeInfinity, _ => False
  | .positiveInfinity, _ => True
  | .symbol defn offset, x => x ≤ ρ defn + offset
  | .constant v, x => x ≤ v

end RangeBoundary

mutual

/-- **Valid boundaries.** Constants are 64-bit integers; a symbol has an offset that cannot wrap and
a definition that denotes a Smi in its own range. -/
def RangeBoundary.Valid (t : Target) (ρ : Valuation) : RangeBoundary → Prop
  | .unknown => False
  | .negativeInfinity => True
  | .positiveInfinity => True
  | .symbol defn offset =>
    RangeBoundary.isValidOffset t offset = true ∧ defn.Valid t ρ (ρ defn)
  | .constant v => IsInt64 v

/-- The definition denotes the Smi `x`, which lies in its range. -/
def Definition.Valid (t : Target) (ρ : Valuation) : Definition → ℤ → Prop
  | .mk _ info range, x =>
    (t.smiMin ≤ x ∧ x ≤ t.smiMax) ∧ (∀ v ∈ info.smiConstant, x = v) ∧ range.Valid t ρ x

/-- The range, if there is one, is valid and contains `x`. -/
def RangePtr.Valid (t : Target) (ρ : Valuation) : RangePtr → ℤ → Prop
  | .null, _ => True
  | .range min max, x => (min.Valid t ρ ∧ max.Valid t ρ) ∧ min.Below ρ x ∧ max.Above ρ x

end

/-! ## Ends of ranges -/

/-- The two ends of a range. -/
inductive End where
  | min
  | max

namespace End

/-- The other end. -/
def opposite : End → End
  | min => max
  | max => min

/-- `x` is on the inner side of `v`. -/
def Le : End → ℤ → ℤ → Prop
  | min, v, x => v ≤ x
  | max, v, x => x ≤ v

/-- The boundary at this end admits `x`. -/
def Admits (ρ : Valuation) : End → RangeBoundary → ℤ → Prop
  | min => RangeBoundary.Below ρ
  | max => RangeBoundary.Above ρ

/-- The boundary that admits everything. -/
def infinity : End → RangeBoundary
  | min => .negativeInfinity
  | max => .positiveInfinity

/-- `LowerBound` or `UpperBound`. -/
def bound (t : Target) : End → RangeBoundary → RangeBoundary
  | min => RangeBoundary.lowerBound t
  | max => RangeBoundary.upperBound t

/-- `ConstantMinSmi` or `ConstantMaxSmi`. -/
def constantSmi (t : Target) : End → Definition → RangeBoundary
  | min => Definition.constantMinSmi t
  | max => Definition.constantMaxSmi t

end End

namespace RangeBoundary

variable {t : Target} {ρ : Valuation} {d : End}

/-- The offsets with which no small integer overflows. -/
theorem isValidOffset_iff (t : Target) (offset : ℤ) : isValidOffset t offset = true ↔
    int64Min - t.smiMin ≤ offset ∧ offset ≤ int64Max - t.smiMax := by
  simp only [isValidOffset, Bool.not_eq_true', Bool.or_eq_false_iff, decide_eq_false_iff_not,
    not_lt, gt_iff_lt]
  tauto

/-- A symbol with a valid offset is a 64-bit integer. -/
theorem isInt64_symbol {x offset : ℤ} (hx : t.smiMin ≤ x ∧ x ≤ t.smiMax)
    (hoff : isValidOffset t offset = true) : IsInt64 (x + offset) := by
  rw [isValidOffset_iff] at hoff
  unfold IsInt64
  omega

/-! ## Soundness of the constant bounds -/

/-- A clamped constant. -/
theorem clamp_constant (t : Target) (size : RangeSize) (v : ℤ) :
    (constant v).clamp t size =
      .constant (Max.max (minConstant t size) (Min.min v (maxConstant t size))) := by
  have hle : minConstant t size ≤ maxConstant t size := by
    have := t.smi_bounds
    cases size <;> simp only [minConstant, maxConstant, int64Min, int64Max] <;> omega
  rw [clamp]
  split_ifs <;> congr 1 <;> omega

/-- Clamping keeps a bound of a small integer. -/
theorem clamp_smi {b : RangeBoundary} {x : ℤ} (hx : t.smiMin ≤ x ∧ x ≤ t.smiMax)
    (hb : b = d.infinity ∨ ∃ v, b = .constant v ∧ d.Le v x) :
    ∃ v, b.clamp t .smi = .constant v ∧ d.Le v x ∧ t.smiMin ≤ v ∧ v ≤ t.smiMax := by
  rcases hb with rfl | ⟨v, rfl, hv⟩
  · cases d with
    | min => exact ⟨t.smiMin, rfl, hx.1, le_rfl, by omega⟩
    | max => exact ⟨t.smiMax, rfl, hx.2, by omega, le_rfl⟩
  · refine ⟨_, clamp_constant t .smi v, ?_⟩
    cases d <;> simp only [minConstant, maxConstant, End.Le] at hv ⊢ <;> omega

/-- Adding a valid offset to a small integer does not overflow. -/
theorem add_smi_offset {v offset : ℤ} (hv : t.smiMin ≤ v ∧ v ≤ t.smiMax)
    (hoff : isValidOffset t offset = true) (overflow : RangeBoundary) :
    add (.constant v) (.constant offset) overflow = .constant (v + offset) := by
  have hv64 : IsInt64 v := by
    have := t.smi_bounds
    rw [isInt64_iff]
    constructor <;> omega
  rw [add, (willAddOverflow_eq_false hv64).mpr (isInt64_symbol hv hoff)]
  rfl

/-- The constant bound of a symbol. -/
theorem bound_symbol {defn : Definition} {offset : ℤ}
    (h : (symbol defn offset).Valid t ρ)
    (hdefn : ∃ v, d.constantSmi t defn = .constant v ∧ d.Le v (ρ defn) ∧
      t.smiMin ≤ v ∧ v ≤ t.smiMax) :
    ∃ v, d.bound t (.symbol defn offset) = .constant v ∧ IsInt64 v ∧
      ∀ x, d.Admits ρ (.symbol defn offset) x → d.Le v x := by
  obtain ⟨v, hv, hle, hsmi⟩ := hdefn
  have hadd := add_smi_offset hsmi h.1 d.infinity
  rw [← hv] at hadd
  cases d with
  | min => exact ⟨_, hadd, isInt64_symbol hsmi h.1, fun x hx =>
    (Int.add_le_add_right hle _).trans hx⟩
  | max => exact ⟨_, hadd, isInt64_symbol hsmi h.1, fun x hx =>
    hx.trans (Int.add_le_add_right hle _)⟩

/-- **`LowerBound` and `UpperBound`**: a constant that bounds all values the boundary admits, unless
it is infinite. -/
theorem bound_spec (d : End) : ∀ b : RangeBoundary, b.Valid t ρ →
    d.bound t b = d.infinity ∨
      ∃ v, d.bound t b = .constant v ∧ IsInt64 v ∧ ∀ x, d.Admits ρ b x → d.Le v x
  | .unknown, h => absurd h (by simp [Valid])
  | .negativeInfinity, _ => .inl (by cases d <;> rfl)
  | .positiveInfinity, _ => .inl (by cases d <;> rfl)
  | .constant v, h => .inr ⟨v, by cases d <;> rfl, h, fun _ hx => by cases d <;> exact hx⟩
  | .symbol (.mk _ _ .null) _, h => .inr <| bound_symbol h <| by
    cases d with
    | min => exact clamp_smi (b := .negativeInfinity) h.2.1 (.inl rfl)
    | max => exact clamp_smi (b := .positiveInfinity) h.2.1 (.inl rfl)
  | .symbol (.mk _ _ (.range min max)) _, h => .inr <| bound_symbol h <| by
    obtain ⟨hsmi, -, ⟨hmin, hmax⟩, hbelow, habove⟩ := h.2
    cases d with
    | min =>
      refine clamp_smi hsmi ((bound_spec .min min hmin).imp_right ?_)
      exact fun ⟨v, hv, _, hle⟩ => ⟨v, hv, hle _ hbelow⟩
    | max =>
      refine clamp_smi hsmi ((bound_spec .max max hmax).imp_right ?_)
      exact fun ⟨v, hv, _, hle⟩ => ⟨v, hv, hle _ habove⟩

/-- A constant bound admits whatever the boundary admits. -/
theorem bound_constant {p : RangeBoundary} {c : ℤ} (hp : p.Valid t ρ)
    (hc : d.bound t p = .constant c) : IsInt64 c ∧ ∀ x, d.Admits ρ p x → d.Le c x := by
  rcases bound_spec d p hp with h | ⟨c', hc', hspec⟩
  · exact absurd (h.symm.trans hc) (by cases d <;> nofun)
  · obtain rfl := RangeBoundary.constant.inj (hc'.symm.trans hc)
    exact hspec

end RangeBoundary

end DartVm
