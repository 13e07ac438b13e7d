import DartVm.RangeAnalysis.Boundary

/-! # Ranges of binary operations

The model of `Range` and of `Range::BinaryOp` with the eleven operations it dispatches to
(`range_analysis.cc`), next to the value of each operation on 64-bit Dart integers
(`evalBinaryOp`).  Intermediate `int64_t` results that the source does not guard are wrapped.

* `Range.binaryOp`: the range of a result.
* `evalBinaryOp`: the result itself. -/

namespace DartVm

/-- `Range`: a closed interval of boundaries. -/
structure Range where
  min : RangeBoundary
  max : RangeBoundary

namespace RangeBoundary

/-- `RangeBoundary::ConstantValue`; the source asserts that the boundary is constant. -/
def constantValue : RangeBoundary → ℤ
  | .constant v => v
  | _ => 0

/-- `Utils::IsInt`: an `n`-bit two's complement word can hold the value. -/
def isInt (n : ℕ) (value : ℤ) : Bool := -2 ^ (n - 1) ≤ value && value < 2 ^ (n - 1)

/-- `RangeBoundary::Shl`, of a constant boundary. -/
def shl (value shiftCount : ℤ) (overflow : RangeBoundary) : RangeBoundary :=
  let limit := 64 - shiftCount
  if value = 0 then .constant 0
  else if shiftCount = 0 ∨ (limit > 0 ∧ isInt limit.toNat value) then
    .constant (wrap64 (value * 2 ^ shiftCount.toNat))
  else overflow

/-- `RangeBoundary::Shr`, of a constant boundary. -/
def shr (value shiftCount : ℤ) : RangeBoundary :=
  .constant (if shiftCount ≤ 63 then value / 2 ^ shiftCount.toNat
    else if value ≥ 0 then 0 else -1)

end RangeBoundary

open RangeBoundary

/-- One step of the search in `Utils::HighestBit`: if the bits from `k` on are not all zero, go on
with them. -/
def highestBitStep (k : ℕ) (s : ℕ × ℕ) : ℕ × ℕ :=
  if s.1 / 2 ^ k ≠ 0 then (s.1 / 2 ^ k, s.2 + k) else s

/-- `Utils::HighestBit` of a non-negative value. -/
def highestBit (v : ℕ) : ℕ :=
  let s := highestBitStep 2 (highestBitStep 4 (highestBitStep 8 (highestBitStep 16
    (highestBitStep 32 (v, 0)))))
  if s.1 > 1 then s.2 + 1 else s.2

/-- `Utils::BitLength`: the bits of the value, or of its complement if it is negative. -/
def bitLength (value : ℤ) : ℕ :=
  let value := if value < 0 then -value - 1 else value
  if value = 0 then 0 else highestBit value.toNat + 1

/-- `Utils::AbsWithSaturation` at `int64_t`. -/
def absWithSaturation (x : ℤ) : ℤ :=
  if x < 0 then (if x = int64Min then int64Max else -x) else x

namespace Range

/-- `Range::SetInt64Range`. -/
def int64 : Range := ⟨.constant int64Min, .constant int64Max⟩

/-- `Range::Range`: with an infinite boundary the value can wrap around, so it falls back to all
64-bit integers. -/
def make (min max : RangeBoundary) : Range :=
  if min.isInfinity || max.isInfinity then int64 else ⟨min, max⟩

variable (t : Target)

/-- `Range::ConstantMin` at 64 bits. -/
def constantMin (r : Range) : ℤ := ((r.min.lowerBound t).clamp t .int64).constantValue

/-- `Range::ConstantMax` at 64 bits. -/
def constantMax (r : Range) : ℤ := ((r.max.upperBound t).clamp t .int64).constantValue

/-- `Range::OnlyGreaterThanOrEqualTo`. -/
def onlyGreaterThanOrEqualTo (r : Range) (val : ℤ) : Bool :=
  match r.min.lowerBound t with
  | .negativeInfinity => false
  | b => b.constantValue ≥ val

/-- `Range::OnlyLessThanOrEqualTo`. -/
def onlyLessThanOrEqualTo (r : Range) (val : ℤ) : Bool :=
  match r.max.upperBound t with
  | .positiveInfinity => false
  | b => b.constantValue ≤ val

/-- `Range::IsWithin`. -/
def isWithin (r : Range) (min max : ℤ) : Bool :=
  r.onlyGreaterThanOrEqualTo t min && r.onlyLessThanOrEqualTo t max

/-- `Range::Fits`. -/
def fits (r : Range) (size : RangeSize) : Bool :=
  !(r.min.lowerBound t).overflowed t size && !(r.max.upperBound t).overflowed t size

/-- `Range::IsPositive`, which includes zero. -/
def isPositive (r : Range) : Bool := r.onlyGreaterThanOrEqualTo t 0

/-- `Range::OnlyPositiveOrZero`. -/
def onlyPositiveOrZero (a b : Range) : Bool :=
  a.onlyGreaterThanOrEqualTo t 0 && b.onlyGreaterThanOrEqualTo t 0

/-- `Range::OnlyNegativeOrZero`. -/
def onlyNegativeOrZero (a b : Range) : Bool :=
  a.onlyLessThanOrEqualTo t 0 && b.onlyLessThanOrEqualTo t 0

/-- `Range::ConstantAbsMax`. -/
def constantAbsMax (r : Range) : ℤ :=
  Max.max (absWithSaturation (r.constantMin t)) (absWithSaturation (r.constantMax t))

/-- `Range::ConstantAbsMin`. -/
def constantAbsMin (r : Range) : ℤ :=
  Min.min (absWithSaturation (r.constantMin t)) (absWithSaturation (r.constantMax t))

/-- The left boundary of `Range::Add` and `Range::Sub`: the array length, if the left operand is
one. -/
def leftBoundary (leftDefn : Option Definition) (boundary : RangeBoundary) : RangeBoundary :=
  match leftDefn with
  | some defn => if defn.info.isArrayLength then fromDefinition defn 0 else boundary
  | none => boundary

/-- `Range::Add`: symbolic where this is possible, otherwise between constants. -/
def add (left right : Range) (leftDefn : Option Definition) : RangeBoundary × RangeBoundary :=
  let leftMin := leftBoundary leftDefn left.min
  let leftMax := leftBoundary leftDefn left.max
  ((symbolicAdd t leftMin right.min).getD
      (.add (left.min.lowerBound t) (right.min.lowerBound t) .negativeInfinity),
    (symbolicAdd t leftMax right.max).getD
      (.add (right.max.upperBound t) (left.max.upperBound t) .positiveInfinity))

/-- `Range::Sub`. -/
def sub (left right : Range) (leftDefn : Option Definition) : RangeBoundary × RangeBoundary :=
  let leftMin := leftBoundary leftDefn left.min
  let leftMax := leftBoundary leftDefn left.max
  ((symbolicSub t leftMin right.max).getD
      (.sub (left.min.lowerBound t) (right.max.upperBound t) .negativeInfinity),
    (symbolicSub t leftMax right.min).getD
      (.sub (left.max.upperBound t) (right.min.lowerBound t) .positiveInfinity))

/-- `Range::Mul`: bounded by the product of the absolute values, if this cannot overflow. -/
def mul (left right : Range) : RangeBoundary × RangeBoundary :=
  let leftMax := left.constantAbsMax t
  let rightMax := right.constantAbsMax t
  if leftMax ≤ -t.smiMin ∧ rightMax ≤ -t.smiMin ∧
      (leftMax = 0 ∨ rightMax ≤ int64Max.tdiv leftMax) then
    let mulMax := wrap64 (leftMax * rightMax)
    if onlyPositiveOrZero t left right || onlyNegativeOrZero t left right then
      let mulMin := wrap64 (left.constantAbsMin t * right.constantAbsMin t)
      (.constant mulMin, .constant mulMax)
    else (.constant (wrap64 (-mulMax)), .constant mulMax)
  else if onlyPositiveOrZero t left right || onlyNegativeOrZero t left right then
    (.constant 0, .positiveInfinity)
  else (.negativeInfinity, .positiveInfinity)

/-- `Range::TruncDiv`: known only for a dividend that is not negative and a positive divisor. -/
def truncDiv (left right : Range) : RangeBoundary × RangeBoundary :=
  if left.onlyGreaterThanOrEqualTo t 0 && right.onlyGreaterThanOrEqualTo t 1 then
    (.constant ((left.constantAbsMin t).tdiv (right.constantAbsMax t)),
      .constant ((left.constantAbsMax t).tdiv (right.constantAbsMin t)))
  else (.negativeInfinity, .positiveInfinity)

/-- `Range::Mod`: the remainder is not negative and below the absolute value of the divisor. -/
def mod (right : Range) : RangeBoundary × RangeBoundary :=
  let modMax :=
    if right.constantMin t ≠ int64Min then Max.max (wrap64 (right.constantAbsMax t - 1)) 0
    else int64Max
  (.constant 0, .constant modMax)

/-- The shift counts of a range: a negative count throws, so the least count is zero. -/
def shiftMax (right : Range) : ℤ := Max.max (right.constantMax t) 0

@[inherit_doc shiftMax]
def shiftMin (right : Range) : ℤ := Max.max (right.constantMin t) 0

/-- `Range::Shl`: the count is chosen by the sign of each end. -/
def shl (left right : Range) : RangeBoundary × RangeBoundary :=
  let leftMax := left.constantMax t
  let leftMin := left.constantMin t
  (RangeBoundary.shl leftMin (if leftMin > 0 then right.shiftMin t else right.shiftMax t)
      (if leftMin > 0 then .positiveInfinity else .negativeInfinity),
    RangeBoundary.shl leftMax (if leftMax > 0 then right.shiftMax t else right.shiftMin t)
      (if leftMax > 0 then .positiveInfinity else .negativeInfinity))

/-- `Range::Shr`: the count is chosen by the sign of each end. -/
def shr (left right : Range) : RangeBoundary × RangeBoundary :=
  let leftMax := left.constantMax t
  let leftMin := left.constantMin t
  (RangeBoundary.shr leftMin (if leftMin > 0 then right.shiftMax t else right.shiftMin t),
    RangeBoundary.shr leftMax (if leftMax > 0 then right.shiftMin t else right.shiftMax t))

/-- `ConvertRangeToUnsigned`: a range around zero becomes the full one. -/
def convertRangeToUnsigned (a b : ℤ) : ℤ × ℤ :=
  if a < 0 ∧ b ≥ 0 then (0, uint64Max) else (a % 2 ^ 64, b % 2 ^ 64)

/-- `ConvertRangeToSigned`: a range around 2^63 becomes the full one. -/
def convertRangeToSigned (a b : ℤ) : ℤ × ℤ :=
  if a ≤ int64Max ∧ b ≥ 2 ^ 63 then (int64Min, int64Max) else (wrap64 a, wrap64 b)

/-- `Range::Ushr`: a logical shift of the unsigned range. -/
def ushr (left right : Range) : RangeBoundary × RangeBoundary :=
  let unsignedLeft := convertRangeToUnsigned (left.constantMin t) (left.constantMax t)
  let rightMax := right.shiftMax t
  let rightMin := right.shiftMin t
  let unsignedMin := if rightMax ≥ 64 then 0 else unsignedLeft.1 / 2 ^ rightMax.toNat
  let unsignedMax := if rightMin ≥ 64 then 0 else unsignedLeft.2 / 2 ^ rightMin.toNat
  let signed := convertRangeToSigned unsignedMin unsignedMax
  (.constant signed.1, .constant signed.2)

/-- `Range::BitSize`. -/
def bitSize (r : Range) : ℕ := Max.max (bitLength (r.constantMin t)) (bitLength (r.constantMax t))

/-- `Range::BitwiseOp`: as many bits as the wider operand has. -/
def bitwiseOp (left right : Range) : RangeBoundary × RangeBoundary :=
  let bitsize := Max.max (left.bitSize t) (right.bitSize t)
  (if left.isPositive t && right.isPositive t then .constant 0
    else .constant (wrap64 (-2 ^ bitsize)), .constant (wrap64 (2 ^ bitsize - 1)))

/-- `Range::And`: a conjunction with a value that is not negative does not exceed it. -/
def and (left right : Range) : RangeBoundary × RangeBoundary :=
  if right.constantMin t ≥ 0 then (.constant 0, .constant (right.constantMax t))
  else if left.constantMin t ≥ 0 then (.constant 0, .constant (left.constantMax t))
  else bitwiseOp t left right

end Range

/-- The token kinds `Range::BinaryOp` distinguishes. -/
inductive Token where
  | add
  | sub
  | mul
  | truncDiv
  | mod
  | shl
  | shr
  | ushr
  | bitAnd
  | bitOr
  | bitXor
  | other
  deriving DecidableEq, Repr

/-- `Range::BinaryOp`. -/
def Range.binaryOp (t : Target) (op : Token) (left right : Range) (leftDefn : Option Definition) :
    Range :=
  let result : RangeBoundary × RangeBoundary :=
    match op with
    | .add => Range.add t left right leftDefn
    | .sub => Range.sub t left right leftDefn
    | .mul => Range.mul t left right
    | .truncDiv => Range.truncDiv t left right
    | .mod => Range.mod t right
    | .shl => Range.shl t left right
    | .shr => Range.shr t left right
    | .ushr => Range.ushr t left right
    | .bitAnd => Range.and t left right
    | .bitXor => Range.bitwiseOp t left right
    | .bitOr => Range.bitwiseOp t left right
    | .other => (.negativeInfinity, .positiveInfinity)
  Range.make result.1 result.2

/-- **The value of a binary operation on 64-bit Dart integers**, where it is defined: division and
remainder throw on zero, shifts on a negative count. -/
def evalBinaryOp (op : Token) (a b : ℤ) : Option ℤ :=
  match op with
  | .add => some (wrap64 (a + b))
  | .sub => some (wrap64 (a - b))
  | .mul => some (wrap64 (a * b))
  | .truncDiv => if b = 0 then none else some (wrap64 (a.tdiv b))
  -- The remainder of Dart is never negative.
  | .mod => if b = 0 then none else some (a % b)
  | .shl => if b < 0 then none else some (if b ≥ 64 then 0 else wrap64 (a * 2 ^ b.toNat))
  | .shr => if b < 0 then none else
      some (if b ≥ 64 then (if a < 0 then -1 else 0) else a / 2 ^ b.toNat)
  | .ushr => if b < 0 then none else
      some (if b ≥ 64 then 0 else wrap64 (a % 2 ^ 64 / 2 ^ b.toNat))
  | .bitAnd => some (bitwise64 (· &&& ·) a b)
  | .bitOr => some (bitwise64 (· ||| ·) a b)
  | .bitXor => some (bitwise64 (· ^^^ ·) a b)
  | .other => none

end DartVm
