import DartVm.RangeAnalysis.Sound

/-! # Binary integer operations and their canonicalization

The model of `BinaryIntegerOpInstr::Canonicalize` (`compiler/backend/il.cc`) with the constant
evaluator (`evaluator.cc`), for the four integer representations and their classes (`il.h`).

* `Instr.execute` is what the generated code does: it leaves a value, deoptimizes or throws.  A
  result that does not fit deoptimizes where the class checks for it, and keeps its low bits
  otherwise.  Some counts of a shift deoptimize whatever the result (`Instr.refusesCount`).
* `Instr.canonicalize` is the translation of the source, `Replacement.execute` what
  its result does. -/

namespace DartVm.BinaryIntegerOp

/-- The representations of the operands and results of integer operations. -/
inductive Representation where
  /-- `kTagged`: a Smi. -/
  | tagged
  | unboxedInt32
  | unboxedUint32
  | unboxedInt64
  deriving DecidableEq, Repr

namespace Representation

variable (t : Target)

/-- `RepresentationBits`. -/
def bits : Representation → ℕ
  | tagged => t.smiBits + 1
  | unboxedInt32 => 32
  | unboxedUint32 => 32
  | unboxedInt64 => 64

/-- `RepresentationMask`: the ones of the representation, read as an `int64_t`. -/
def mask (r : Representation) : ℤ := wrap64 ((2 ^ 64 - 1) / 2 ^ (64 - r.bits t))

/-- `FlowGraph::IsConstantRepresentable` of an integer, where a tagged value must be a Smi. -/
def isConstantRepresentable (v : ℤ) : Representation → Bool
  | tagged => t.smiMin ≤ v && v ≤ t.smiMax
  | unboxedInt32 => RangeBoundary.isInt 32 v
  | unboxedUint32 => 0 ≤ v && v < 2 ^ 32
  | unboxedInt64 => true

/-- `Evaluator::TruncateTo` of an `int64_t`. -/
def truncateTo (v : ℤ) : Representation → ℤ
  | tagged => wrap64 (v * 2 ^ (64 - (t.smiBits + 1))) / 2 ^ (64 - (t.smiBits + 1))
  | unboxedInt32 => wrap64 (v * 2 ^ 32) / 2 ^ 32
  | unboxedUint32 => v % 2 ^ 32
  | unboxedInt64 => v

/-- The integers that the representation holds. -/
def Holds (v : ℤ) : Representation → Prop
  | tagged => t.smiMin ≤ v ∧ v ≤ t.smiMax
  | unboxedInt32 => -2 ^ 31 ≤ v ∧ v < 2 ^ 31
  | unboxedUint32 => 0 ≤ v ∧ v < 2 ^ 32
  | unboxedInt64 => IsInt64 v

instance (v : ℤ) (r : Representation) : Decidable (r.Holds t v) := by
  cases r <;> unfold Holds <;> infer_instance

/-- The integer that a word holds after an integer was stored in it: the low bits, with the sign of
the representation. -/
def low (v : ℤ) : Representation → ℤ
  | unboxedUint32 => v % 2 ^ 32
  | r => v.bmod (2 ^ r.bits t)

end Representation

/-- An operand of an integer operation. -/
inductive Operand where
  /-- `ConstantInstr` or `UnboxedConstantInstr` of an integer. -/
  | constant (c : ℤ)
  /-- `UnboxInstr` to a representation. -/
  | unbox (target : Representation) (value : Operand)
  /-- Any other definition, by its SSA index. -/
  | other (index : ℕ)
  deriving DecidableEq, Repr

namespace Operand

/-- The integer an operand denotes. Unboxing to `int64` keeps every integer. -/
def value (t : Target) (ρ : ℕ → ℤ) : Operand → ℤ
  | constant c => c
  | unbox .unboxedInt64 value => value.value t ρ
  | unbox target value => target.low t (value.value t ρ)
  | other index => ρ index

/-- `Value::BoundConstant`, if `Value::BindsToConstant`. -/
def boundConstant : Operand → Option ℤ
  | constant c => some c
  | _ => none

/-- `Evaluator::ToIntegerConstant`: looks through unboxing. -/
def toIntegerConstant (t : Target) : Operand → Option ℤ
  | constant c => some c
  | unbox .unboxedInt64 value => value.toIntegerConstant t
  | unbox .unboxedUint32 value =>
    (value.toIntegerConstant t).map fun c => Representation.truncateTo t c .unboxedUint32
  | _ => none

end Operand

/-- The range of the right operand, if one is attached. -/
abbrev RightRange := Option Range

namespace RightRange

variable (t : Target)

/-- The range of the right operand says nothing. -/
def isUnknown : RightRange → Bool
  | none => true
  | some r => match r.min with
    | .unknown => true
    | _ => false

/-- The range of the right operand is not negative. -/
def isPositive (range : RightRange) : Bool :=
  !isUnknown range && range.any fun r => r.isPositive t

/-- The range of the right operand lies between two constants. -/
def isWithin (range : RightRange) (min max : ℤ) : Bool :=
  !isUnknown range && range.any fun r => r.isWithin t min max

end RightRange

/-- A binary integer operation. Representation and operation determine the class: `BinarySmiOp`,
`BinaryInt32Op`, `BinaryUint32Op`, `BinaryInt64Op`, and the shifts of the last two, speculative or
not. -/
structure Instr where
  representation : Representation
  opKind : Token
  left : Operand
  right : Operand
  canOverflow : Bool
  isTruncating : Bool
  /-- `SpeculativeModeOfInputs` is not `kNotSpeculative`. -/
  isSpeculative : Bool
  /-- `right_range` of a Smi operation, `shift_range` of an unboxed shift. -/
  rightRange : RightRange

/-- What executing an instruction does. -/
inductive Outcome where
  /-- The result is in the output location. -/
  | value (v : ℤ)
  /-- Execution goes on in unoptimized code. -/
  | deoptimizes
  | throws
  deriving DecidableEq, Repr

/-- The token is `kSHL`, `kSHR` or `kUSHR`. -/
def isShift : Token → Bool
  | .shl => true
  | .shr => true
  | .ushr => true
  | _ => false

/-- The result before it is stored; `none` for a division by zero and a shift by a negative count.
An unsigned shift works on the 64-bit word of its left operand. -/
def exactResult (op : Token) (a b : ℤ) : Option ℤ :=
  match op with
  | .add => some (a + b)
  | .sub => some (a - b)
  | .mul => some (a * b)
  | .truncDiv => if b = 0 then none else some (a.tdiv b)
  | .mod => if b = 0 then none else some (a % b)
  | .shl => if b < 0 then none else some (a * 2 ^ b.toNat)
  | .shr => if b < 0 then none else some (a / 2 ^ b.toNat)
  | .ushr => if b < 0 then none else some (wrap64 (a % 2 ^ 64 / 2 ^ b.toNat))
  | .bitAnd => some (bitwise64 (· &&& ·) a b)
  | .bitOr => some (bitwise64 (· ||| ·) a b)
  | .bitXor => some (bitwise64 (· ^^^ ·) a b)
  | .other => none

namespace Instr

variable (t : Target)

/-- The value of the left operand in the representation. -/
def leftValue (ρ : ℕ → ℤ) (i : Instr) : ℤ := i.representation.low t (i.left.value t ρ)

/-- The value of the right operand. A shift count is a Smi or an `int64` in every representation. -/
def rightValue (ρ : ℕ → ℤ) (i : Instr) : ℤ :=
  if isShift i.opKind then i.right.value t ρ else i.representation.low t (i.right.value t ρ)

/-- The speculative `int64` shift. -/
def isSpeculativeShiftInt64 (i : Instr) : Bool :=
  i.representation = .unboxedInt64 && isShift i.opKind && i.isSpeculative

/-- `ComputeCanDeoptimize` for shifts, the only operations `Canonicalize` asks about. -/
def canDeoptimize (i : Instr) : Bool :=
  match i.representation with
  | .tagged =>
    match i.opKind with
    | .shr => !RightRange.isPositive t i.rightRange
    | _ => i.canOverflow || !RightRange.isPositive t i.rightRange
  | .unboxedInt32 =>
    match i.opKind with
    | .shr => false
    | _ => i.canOverflow
  | _ => i.isSpeculative && !RightRange.isWithin t i.rightRange 0 63

/-- The code compares the result with the representation: always for a quotient of Smis, and for an
unsigned shift of a Smi whenever there is a label to jump to. -/
def checksOverflow (i : Instr) : Bool :=
  match i.representation, i.opKind with
  | .tagged, .truncDiv => true
  | .tagged, .ushr => i.canDeoptimize t
  | .tagged, _ => i.canOverflow
  | .unboxedInt32, _ => i.canOverflow
  | _, _ => false

/-- Operations without a result deoptimize in the classes that can, and throw in the others. -/
def failure (i : Instr) : Outcome :=
  match i.representation with
  | .tagged => .deoptimizes
  | .unboxedInt32 => .deoptimizes
  | _ => if isShift i.opKind && i.isSpeculative then .deoptimizes else .throws

/-- What the generated code does with an exact result. -/
def store (i : Instr) (e : ℤ) : Outcome :=
  if i.checksOverflow t && !i.representation.isConstantRepresentable t e then .deoptimizes
  else .value (i.representation.low t e)

/-- **Counts on which a shift deoptimizes.** A speculative `int64` shift does so above
`kShiftCountLimit`, unless it is an arithmetic shift by a constant.  A left shift of Smis or `int32`
that does not truncate has no code for a constant count of all bits, and the checked one of Smis
compares any other count with `kSmiBits`, unless it shifts the constant 0. -/
def refusesCount (ρ : ℕ → ℤ) (i : Instr) : Bool :=
  match i.right.toIntegerConstant t with
  | some count =>
    if i.isSpeculativeShiftInt64 then i.opKind ≠ .shr && 63 < count
    else i.opKind = .shl && !i.isTruncating && i.canDeoptimize t && i.representation.bits t ≤ count
  | none =>
    if i.isSpeculativeShiftInt64 then 63 < i.rightValue t ρ
    else i.representation = .tagged && i.opKind = .shl && i.canOverflow &&
      i.left.boundConstant ≠ some 0 && t.smiBits ≤ i.rightValue t ρ

/-- **What the generated code of an operation does.** -/
def execute (ρ : ℕ → ℤ) (i : Instr) : Outcome :=
  match exactResult i.opKind (i.leftValue t ρ) (i.rightValue t ρ) with
  | none => i.failure
  | some e => if i.refusesCount t ρ then .deoptimizes else i.store t e

end Instr

/-- `Evaluator::BinaryIntegerEvaluate`; `none` is `Integer::null()`. -/
def binaryIntegerEvaluate (t : Target) (left right : ℤ) (op : Token) (isTruncating : Bool)
    (r : Representation) : Option ℤ :=
  match evalBinaryOp op left right with
  | none => none
  | some result =>
    if isTruncating then some (r.truncateTo t result)
    else if !r.isConstantRepresentable t result then none
    else some result

/-- `IsCommutative`, as far as integer operations go. -/
def isCommutative : Token → Bool
  | .mul => true
  | .add => true
  | .bitAnd => true
  | .bitOr => true
  | .bitXor => true
  | _ => false

/-- The operations of `UnaryIntegerOpInstr`. -/
inductive UnaryOp where
  | negate
  | bitNot
  deriving DecidableEq, Repr

/-- What `Canonicalize` returns. -/
inductive Replacement where
  /-- The instruction itself, with its inputs possibly exchanged. -/
  | this (i : Instr)
  /-- The definition of an operand. -/
  | operand (o : Operand)
  /-- A constant in the representation of the instruction. -/
  | constant (c : ℤ)
  | binary (i : Instr)
  | unary (op : UnaryOp) (value : Operand)
  /-- An unconditional `DeoptimizeInstr`, and a constant for the uses after it. -/
  | deoptimize (c : ℤ)

/-- What the code of a unary operation does. Only the negation of a Smi checks its result. -/
def UnaryOp.execute (t : Target) (r : Representation) (op : UnaryOp) (x : ℤ) : Outcome :=
  match op with
  | .bitNot => .value (r.low t (-x - 1))
  | .negate =>
    if r = .tagged && !r.isConstantRepresentable t (-x) then .deoptimizes
    else .value (r.low t (-x))

/-- **What a replacement does**, with its value in the representation of the original. -/
def Replacement.execute (t : Target) (ρ : ℕ → ℤ) (r : Representation) : Replacement → Outcome
  | this i => i.execute t ρ
  | operand o => .value (r.low t (o.value t ρ))
  | constant c => .value (r.low t c)
  | binary i => i.execute t ρ
  | unary op value => op.execute t r (r.low t (value.value t ρ))
  | deoptimize _ => .deoptimizes

namespace Instr

variable (t : Target)

/-- `FlowGraph::TryCreateConstantReplacementFor`: keeps the instruction if its representation does
not hold the constant. -/
def tryCreateConstantReplacementFor (i : Instr) (v : ℤ) : Replacement :=
  if !i.representation.isConstantRepresentable t v then .this i else .constant v

/-- The constant an operation on two constants evaluates to. -/
def foldedConstant (i : Instr) : Option ℤ := do
  let left ← i.left.boundConstant
  let right ← i.right.boundConstant
  binaryIntegerEvaluate t left right i.opKind i.isTruncating i.representation

/-- A constant left operand of a commutative operation is moved to the right. -/
def commuteConstant (i : Instr) : Instr :=
  if i.left.boundConstant.isSome && !i.right.boundConstant.isSome && isCommutative i.opKind then
    { i with left := i.right, right := i.left }
  else i

/-- The right constant as it is compared with special values: truncating arithmetic only reads the
bits of the representation. -/
def comparedConstant (i : Instr) (rhs : ℤ) : ℤ :=
  if i.isTruncating then
    match i.opKind with
    | .mul => i.representation.truncateTo t rhs
    | .sub => i.representation.truncateTo t rhs
    | .add => i.representation.truncateTo t rhs
    | .bitAnd => i.representation.truncateTo t rhs
    | .bitOr => i.representation.truncateTo t rhs
    | .bitXor => i.representation.truncateTo t rhs
    | _ => rhs
  else rhs

/-- The left shift by one for a multiplication by two. `Make` attaches the range of the constant;
unboxed shifts always truncate. -/
def shiftByOne (i : Instr) : Instr :=
  { i with
    opKind := .shl
    right := .constant 1
    rightRange := some ⟨.constant 1, .constant 1⟩ }

/-- `UnaryIntegerOpInstr::Make`, or the instruction itself where it returns `NULL`. -/
def makeUnary (i : Instr) (op : UnaryOp) : Replacement :=
  match i.representation with
  | .unboxedInt32 => .this i
  | _ => .unary op i.left

/-- The end of the shift cases: a count for which the instruction always throws or deoptimizes. -/
def replaceByDeoptimize (i : Instr) : Replacement :=
  if !i.canDeoptimize t then .this i else .deoptimize 0

/-- The cases of `Canonicalize` on the right constant. -/
def simplify (i : Instr) (rhs : ℤ) : Replacement :=
  match i.opKind with
  | .mul =>
    if rhs = 1 then .operand i.left
    else if rhs = 0 then .operand i.right
    else if rhs = 2 then .binary i.shiftByOne
    else .this i
  | .add => if rhs = 0 then .operand i.left else .this i
  | .bitAnd =>
    if rhs = 0 then .operand i.right
    else if rhs = i.representation.mask t then .operand i.left
    else .this i
  | .bitOr =>
    if rhs = 0 then .operand i.left
    else if rhs = i.representation.mask t then .operand i.right
    else .this i
  | .bitXor =>
    if rhs = 0 then .operand i.left
    else if rhs = i.representation.mask t then i.makeUnary .bitNot
    else .this i
  | .sub => if rhs = 0 then .operand i.left else .this i
  | .truncDiv =>
    if rhs = 1 then .operand i.left
    else if rhs = -1 then i.makeUnary .negate
    else .this i
  | .mod => if rhs = 1 ∨ rhs = -1 then i.tryCreateConstantReplacementFor t 0 else .this i
  | .ushr =>
    if rhs ≥ 64 then i.tryCreateConstantReplacementFor t 0
    else if rhs = 0 then .operand i.left
    else if rhs < 0 then i.replaceByDeoptimize t
    else .this i
  | .shr =>
    if rhs = 0 then .operand i.left
    else if rhs < 0 then i.replaceByDeoptimize t
    else .this i
  | .shl =>
    let resultBits : ℤ := i.representation.bits t
    if rhs = 0 then .operand i.left
    else if rhs ≥ 64 ∨ (rhs ≥ resultBits ∧ i.isTruncating) then
      i.tryCreateConstantReplacementFor t 0
    else if rhs < 0 ∨ (rhs ≥ resultBits ∧ !i.isTruncating) then i.replaceByDeoptimize t
    else .this i
  | .other => .this i

/-- **`BinaryIntegerOpInstr::Canonicalize`.** -/
def canonicalize (i : Instr) : Replacement :=
  match i.foldedConstant t with
  | some result => i.tryCreateConstantReplacementFor t result
  | none =>
    let i := i.commuteConstant
    match i.right.toIntegerConstant t with
    | none => .this i
    | some rhs => i.simplify t (i.comparedConstant t rhs)

/-- The operations a class supports: `IsSupported` of the 32-bit classes, which for an `int32`
shift includes the count, a constant below the `kBitsPerWord` of the host. -/
def isSupported (i : Instr) : Bool :=
  match i.representation, i.opKind with
  | _, .other => false
  | .unboxedInt32, .truncDiv => false
  | .unboxedInt32, .mod => false
  | .unboxedInt32, op => !isShift op || i.right.boundConstant.any fun c => 0 ≤ c && c < 64
  | .unboxedUint32, .truncDiv => false
  | .unboxedUint32, .mod => false
  | _, _ => true

/-- **The instructions of a flow graph.** Truncation excludes the overflow check and is set for
`uint32` and `int64`; a constant left operand is a value of the representation, and the right
operand an integer that Smi and `int32` operations can have as an input. -/
structure WellFormed (ρ : ℕ → ℤ) (i : Instr) : Prop where
  supported : i.isSupported = true
  /-- `mark_truncating` clears `can_overflow`. -/
  truncating : i.isTruncating = true → i.canOverflow = false
  /-- The constructors of the unboxed classes call `mark_truncating`. -/
  unboxed : i.representation = .unboxedUint32 ∨ i.representation = .unboxedInt64 →
    i.isTruncating = true
  left_holds : ∀ c, i.left = .constant c → i.representation.Holds t c
  right_int64 : IsInt64 (i.right.value t ρ)
  /-- The right operand of a Smi operation and of an `int32` operation. -/
  right_holds : i.representation = .tagged ∨ i.representation = .unboxedInt32 →
    i.representation.Holds t (i.right.value t ρ)

end Instr

end DartVm.BinaryIntegerOp
