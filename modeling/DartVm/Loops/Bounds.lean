import DartVm.Library.FlowGraph
import DartVm.Library.Int64
import DartVm.Loops.InductionVar

/-! # Loop control and bounds on induction variables

The part of `compiler/backend/loops.cc` that bounds inductions and removes bounds checks:
`ClassifyControl`, `CanBeMadeExclusive`, `SafelyAdjust`, `CanComputeBounds` and `IsInRange`.

* A loop nest is a list of `LoopInfo`, the loop itself first and its `outer()` chain behind it.
* `InductionVar` objects are compared by address where they hold data (`bounds_`), so the induction
  map holds an `InductionRef`.
* The `int64_t` additions of the analysis wrap around; `Arith.checked` is the same analysis with
  `none` for an overflow.  A success flag with output parameters is an inner `Option`.
* The memoization cache of `CanComputeBounds` is left out. -/

namespace DartVm.Loops

/-- A basic block, named by its preorder number. -/
abbrev BlockId := ℕ

/-! ## Branches -/

/-- `Token::Kind` of a comparison. -/
inductive Token where
  | eq | ne | lt | gt | lte | gte | eqStrict | neStrict | is | isNot
deriving DecidableEq

/-- `Token::NegateComparison`. -/
def Token.negateComparison : Token → Token
  | eq => ne
  | ne => eq
  | lt => gte
  | gt => lte
  | lte => gt
  | gte => lt
  | eqStrict => neStrict
  | neStrict => eqStrict
  | is => isNot
  | isNot => is

/-- `Token::FlipComparison`; unreachable for `is` and `isNot`, whose comparisons have one input. -/
def Token.flipComparison : Token → Token
  | lt => gt
  | gt => lt
  | lte => gte
  | gte => lte
  | kind => kind

/-- The subclasses of `ComparisonInstr`. -/
inductive CompareClass where
  | strictCompare | testSmi | testCids | equalityCompare | relationalOp
deriving DecidableEq

/-- `ComparisonInstr`: what is compared and how. -/
structure ComparisonInstr where
  cls : CompareClass
  kind : Token
  inputs : List DefId
deriving DecidableEq

/-- `BranchInstr`, the last instruction of its block. -/
structure BranchInstr where
  block : BlockId
  comparison : ComparisonInstr
  trueSuccessor : BlockId
  falseSuccessor : BlockId
deriving DecidableEq

/-- An instruction, as far as dominance looks at it. -/
structure Instruction where
  block : BlockId
  isLast : Bool
deriving DecidableEq

/-- A branch as an instruction. -/
def BranchInstr.instr (b : BranchInstr) : Instruction := ⟨b.block, true⟩

/-- **Function under compilation**: its flow graph and what the loop analysis asks about its
definitions. -/
structure Function where
  entry : BlockId
  successors : BlockId → List BlockId
  branch : BlockId → Option BranchInstr
  dominates : BlockId → BlockId → Bool
  defBlock : DefId → BlockId
  /-- `OriginalDefinitionIgnoreBoxingAndConstraints`. -/
  original : DefId → DefId
  isArrayLength : DefId → Bool

/-- The flow graph of a function. -/
def Function.graph (F : Function) : Flow.FlowGraph BlockId :=
  ⟨F.entry, fun a b => b ∈ F.successors a⟩

/-- `Instruction::IsDominatedBy` for a branch, the last instruction of its block. -/
def Function.isDominatedBy (F : Function) (pos : Instruction) (dom : BranchInstr) : Bool :=
  if pos.block = dom.block then pos.isLast else F.dominates dom.block pos.block

/-! ## Loops -/

/-- `InductionVar::Bound`: a strict bound on a unit stride linear induction. -/
structure Bound where
  branch : BranchInstr
  /-- The exclusive limit. -/
  limit : Invariant
deriving DecidableEq

/-- A pointer to an `InductionVar`: its address and what it points to. -/
structure InductionRef where
  addr : ℕ
  var : InductionVar
deriving DecidableEq

/-- **`LoopInfo`** after induction analysis. -/
structure LoopInfo where
  header : BlockId
  contains : BlockId → Bool
  /-- The blocks whose innermost loop is this one, in the order of `blocks_`. -/
  own : List BlockId
  induction : DefId → Option InductionRef
  /-- The bounds recorded in the inductions of this loop, with the address of the induction. -/
  bounds : List (ℕ × Bound)
  control : Option InductionRef

/-- `bounds()` of the induction at an address. -/
def LoopInfo.boundsOf (loop : LoopInfo) (addr : ℕ) : List Bound :=
  loop.bounds.filterMap fun b => if b.1 = addr then some b.2 else none

/-! ## Arithmetic on bounds -/

/-- What becomes of an overflow of an `int64_t`: the code computes on. -/
inductive Arith where
  | wrapping | checked

/-- The sum or difference `z` with the exact value `e`. -/
def Arith.result (A : Arith) (e : ℤ) (z : Int64) : Option Int64 :=
  match A with
  | wrapping => some z
  | checked => if IsInt64 e then some z else none

/-- `int64_t` addition. -/
def Arith.add (A : Arith) (x y : Int64) : Option Int64 := A.result (x.toInt + y.toInt) (x + y)

/-- `int64_t` subtraction. -/
def Arith.sub (A : Arith) (x y : Int64) : Option Int64 := A.result (x.toInt - y.toInt) (x - y)

/-- `InductionVar::CanComputeDifferenceWith` on invariants: `other - x`. -/
def Invariant.canComputeDifferenceWith (x other : Invariant) : Option Int64 :=
  if x.def_ = other.def_ ∧ x.mult = other.mult then some (other.offset - x.offset) else none

/-- `InductionVar::CanComputeDifferenceWith`, for linear inductions of one stride as well. -/
def InductionVar.canComputeDifferenceWith : InductionVar → InductionVar → Option Int64
  | invariant x, invariant other => x.canComputeDifferenceWith other
  | linear initial next, linear initial' next' =>
    if next.isEqual next' then initial.canComputeDifferenceWith initial' else none
  | _, _ => none

/-- A pair of invariants that bounds a value from below and above. -/
abbrev Limits := Invariant × Invariant

section Analysis

variable (A : Arith) (F : Function)

/-- `mult() == 1 && IsArrayLength(def())`. -/
def Function.isArrayLengthOffset (x : Invariant) : Bool :=
  x.mult == 1 && x.def_.any F.isArrayLength

/-- The test of `SafelyAdjust`: `[l, upper + upperOffset]` is proper, for the adjusted lower bound
`l`. -/
def isProperRange (lower lowerOffset l : Int64) (upper : Invariant) (upperOffset : Int64) :
    Option Bool :=
  if upper.isConstant then do
    let u ← A.add upper.offset upperOffset
    pure (decide (l ≤ u))
  else if F.isArrayLengthOffset upper then do
    let c ← A.add upper.offset upperOffset
    pure ((decide (0 ≤ lowerOffset) && decide (lower ≤ l) ||
      decide (lowerOffset < 0) && decide (l < lower)) && decide (c ≤ 0))
  else pure false

/-- `SafelyAdjust`: adds offsets to both limits, unless the result is not a proper range. -/
def safelyAdjust (lower : Invariant) (lowerOffset : Int64) (upper : Invariant)
    (upperOffset : Int64) : Option (Option Limits) :=
  if lower.isConstant then do
    let l ← A.add lower.offset lowerOffset
    let success ← isProperRange A F lower.offset lowerOffset l upper upperOffset
    pure (if success then some
      (if lowerOffset = 0 then lower else .const l,
       if upperOffset = 0 then upper
       else ⟨upper.offset + upperOffset, upper.mult, upper.def_⟩)
      else none)
  else pure none

/-- The loop over the bounds of the control induction in `CanComputeBoundsImpl`: the first bound
whose branch dominates `pos` and whose limit has limits. `recur` computes those of an invariant from
the loops further out. -/
def controlledBounds (recur : Instruction → Invariant → Option (Option Limits))
    (pos : Instruction) (stride off : Int64) (l : Limits) : List Bound → Option (Option Limits)
  | [] => pure none
  | bound :: rest =>
    if F.isDominatedBy pos bound.branch then do
      match ← recur bound.branch.instr bound.limit with
      | some u =>
        let shift ← A.sub (-stride) off
        if 0 < stride then safelyAdjust A F l.1 0 u.2 shift else safelyAdjust A F u.1 shift l.2 0
      | none => controlledBounds recur pos stride off l rest
    else controlledBounds recur pos stride off l rest

/-- `CanComputeBoundsImpl` on an induction of `loop`. -/
def inductionBounds (recur : Instruction → Invariant → Option (Option Limits)) (loop : LoopInfo)
    (pos : Instruction) : InductionVar → Option (Option Limits)
  | .linear initial next =>
    match loop.control with
    | some control =>
      if next.isConstant ∧ (next.offset = 1 ∨ next.offset = -1) then
        match (InductionVar.linear initial next).canComputeDifferenceWith control.var with
        | some off => do
          match ← recur pos initial with
          | some l => controlledBounds A F recur pos next.offset off l (loop.boundsOf control.addr)
          | none => pure none
        | none => pure none
      else pure none
    | none => pure none
  | _ => pure none

/-- `CanComputeBoundsImpl` on an invariant: the loop over the `outer()` chain looks for an induction
that has bounds. -/
def invariantBounds : List LoopInfo → Instruction → Invariant → Option (Option Limits)
  | [], _, x => pure (some (x, x))
  | outer :: outers, pos, x =>
    match x.def_ with
    | some d =>
      if x.mult = 1 then
        match outer.induction d with
        | some induc =>
          if induc.var.isInvariant then invariantBounds outers pos x
          else do
            match ← inductionBounds A F (invariantBounds outers) outer pos induc.var with
            | some i => safelyAdjust A F i.1 x.offset i.2 x.offset
            | none => invariantBounds outers pos x
        | none => invariantBounds outers pos x
      else pure (some (x, x))
    | none => pure (some (x, x))

/-- `InductionVar::CanComputeBounds` of an induction variable of `loop`. -/
def canComputeBounds (loop : LoopInfo) (outers : List LoopInfo) (pos : Instruction) :
    InductionVar → Option (Option Limits)
  | .invariant x => invariantBounds A F outers pos x
  | x => inductionBounds A F (invariantBounds A F outers) loop pos x

/-! ## Loop control -/

/-- `CanBeMadeExclusive`: whether one may be added to an upper limit, or taken off a lower one,
without overflow. -/
def canBeMadeExclusive (outers : List LoopInfo) (x : Invariant) (branch : BranchInstr)
    (isLower : Bool) : Option Bool := do
  match ← invariantBounds A F outers branch.instr x with
  | some (min, max) =>
    if isLower then pure (min.isConstant && decide (Int64.minValue < min.offset))
    else if max.isConstant then pure (decide (max.offset < Int64.maxValue))
    else pure (F.isArrayLengthOffset max && decide (max.offset < 0))
  | none => pure false

/-- The `switch` of `ClassifyControl`: a strict limit for the looping
condition `x cmp y`, if any. -/
def strictLimit (outers : List LoopInfo) (branch : BranchInstr) (initial : Invariant)
    (stride : Int64) (y : Invariant) : Token → Option (Option Invariant)
  | .lt => pure (if stride = 1 then some y else none)
  | .gt => pure (if stride = -1 then some y else none)
  | .lte =>
    if stride = 1 then do
      if ← canBeMadeExclusive A F outers y branch false then pure (y.add (.const 1)) else pure none
    else pure none
  | .gte =>
    if stride = -1 then do
      if ← canBeMadeExclusive A F outers y branch true then pure (y.sub (.const 1)) else pure none
    else pure none
  | .ne =>
    pure (if initial.isConstant && y.isConstant &&
        ((stride == 1 && decide (initial.offset < y.offset)) ||
          (stride == -1 && decide (y.offset < initial.offset))) then some y else none)
  | _ => pure none

/-- A comparison of a linear induction of constant stride with an invariant, the induction on the
left. -/
structure LinearCompare where
  /-- The induction. -/
  x : InductionRef
  initial : Invariant
  stride : Int64
  /-- What it is compared with. -/
  y : Invariant
  cmp : Token

/-- Expresses the comparison such that the induction appears left. -/
def orient (x y : InductionRef) (cmp : Token) : Option LinearCompare :=
  match x.var, y.var with
  | .linear initial next, .invariant y =>
    if next.isConstant then some ⟨x, initial, next.offset, y, cmp⟩ else none
  | .invariant x, .linear initial next =>
    if next.isConstant then some ⟨y, initial, next.offset, x, cmp.flipComparison⟩ else none
  | _, _ => none

/-- The condition of a loop exit in "loop while true" form. -/
def LoopInfo.loopingCondition (loop : LoopInfo) (branch : BranchInstr) : Option Token :=
  if loop.contains branch.trueSuccessor && !loop.contains branch.falseSuccessor then
    some branch.comparison.kind
  else if !loop.contains branch.trueSuccessor && loop.contains branch.falseSuccessor then
    some branch.comparison.kind.negateComparison
  else none

/-- The comparison of a branch that is a loop exit and compares a linear induction with an
invariant. -/
def LoopInfo.linearCompare (loop : LoopInfo) (branch : BranchInstr) : Option LinearCompare :=
  match branch.comparison.inputs with
  | [left, right] => do
    let cmp ← loop.loopingCondition branch
    let x ← loop.induction (F.original left)
    let y ← loop.induction (F.original right)
    orient x y cmp
  | _ => none

/-- The body of the loop of `ClassifyControl`. -/
def classifyBranch (outers : List LoopInfo) (loop : LoopInfo) (branch : BranchInstr) :
    Option LoopInfo :=
  match loop.linearCompare F branch with
  | some c => do
    match ← strictLimit A F outers branch c.initial c.stride c.y c.cmp with
    | some limit =>
      pure { loop with
        bounds := loop.bounds ++ [(c.x.addr, ⟨branch, limit⟩)]
        control := if branch.block = loop.header then some c.x else loop.control }
    | none => pure loop
  | none => pure loop

/-- `InductionVarAnalysis::ClassifyControl` on the branches that `VisitLoop` collects. -/
def classifyControl (outers : List LoopInfo) (loop : LoopInfo) : Option LoopInfo :=
  (loop.own.filterMap F.branch).foldlM (classifyBranch A F outers)
    { loop with bounds := [], control := none }

/-! ## Bounds checks -/

/-- The loop over the bounds of a simple induction in `IsInRange`. -/
def boundedByLength (pos : Instruction) (len : InductionVar) : List Bound → Bool
  | [] => false
  | bound :: rest =>
    if F.isDominatedBy pos bound.branch then
      match len.canComputeDifferenceWith (.invariant bound.limit) with
      | some diff => if diff ≤ 0 then true else boundedByLength pos len rest
      | none => boundedByLength pos len rest
    else boundedByLength pos len rest

/-- The most common case of `IsInRange`: a simple induction directly bounded by the length. -/
def simpleInRange (loop : LoopInfo) (pos : Instruction) (induc : InductionRef)
    (len : InductionVar) : Bool :=
  match induc.var with
  | .linear initial next =>
    if next.isConstant ∧ next.offset = 1 ∧ initial.isConstant ∧ 0 ≤ initial.offset then
      boundedByLength F pos len (loop.boundsOf induc.addr)
    else false
  | _ => false

/-- The general case of `IsInRange`: bounds computed from more outer loops. -/
def boundsInRange (loop : LoopInfo) (outers : List LoopInfo) (pos : Instruction)
    (induc : InductionRef) (len : InductionVar) : Option Bool := do
  match ← canComputeBounds A F loop outers pos induc.var with
  | some (min, max) =>
    if min.isConstant ∧ 0 ≤ min.offset then
      match len.canComputeDifferenceWith (.invariant max) with
      | some diff => pure (decide (diff < 0))
      | none => pure false
    else pure false
  | none => pure false

/-- `LoopInfo::IsInRange`. -/
def isInRange (loop : LoopInfo) (outers : List LoopInfo) (pos : Instruction)
    (index length : DefId) : Option Bool :=
  match loop.induction (F.original index), loop.induction (F.original length) with
  | some induc, some len =>
    if simpleInRange F loop pos induc len.var then pure true
    else boundsInRange A F loop outers pos induc len.var
  | _, _ => pure false

end Analysis

end DartVm.Loops
