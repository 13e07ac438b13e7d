import DartVm.FlowAnalysis.VariableModel

/-! # Flow models

`FlowModel` of `flow_analysis.dart`: the models of all variables at one point of the code, and the
operations between points.  Reachability is a parameter: it only decides which side a join keeps.
Every new SSA node is an argument.

* `FlowModel`: a variable model for each variable.
* `join`, `rebaseForward`: the operations that combine two points of the code. -/

namespace DartVm.FlowAnalysis

/-- What a flow model asks of `Reachability`. -/
structure ReachabilityOps (R : Type) where
  locallyReachable : R → Bool
  setUnreachable : R → R
  join : R → R → R
  rebaseForward : R → R → R

/-- **Flow model.** -/
structure FlowModel (R V T N : Type) where
  reachable : R
  variableInfo : V → Option (VariableModel T N)

namespace FlowModel

variable {R V T N : Type} [DecidableEq V] [DecidableEq N]
variable (ops : TypeOperations V T) (reach : ReachabilityOps R)

/-- `infoFor`, with the SSA node of a variable seen for the first time. -/
def infoFor (m : FlowModel R V T N) (variable_ : V) (node : N) : VariableModel T N :=
  (m.variableInfo variable_).getD (VariableModel.fresh false node)

/-- `_updateVariableInfo`, with a new reachability. -/
def updateVariableInfo (m : FlowModel R V T N) (variable_ : V) (model : VariableModel T N)
    (reachable : R) : FlowModel R V T N :=
  ⟨reachable, Function.update m.variableInfo variable_ (some model)⟩

/-- `declare`: a variable comes into scope. -/
def declare (m : FlowModel R V T N) (variable_ : V) (initialized : Bool) (node : N) :
    FlowModel R V T N :=
  m.updateVariableInfo variable_ (VariableModel.fresh initialized node) m.reachable

/-- The type of a reference to a variable, as `variableRead` computes it. -/
def currentType (variable_ : V) (info : VariableModel T N) : T :=
  (info.promotedTypes.bind List.getLast?).getD (ops.variableType variable_)

/-- `_finishTypeTest`: records a tested type and a promotion. -/
def finishTypeTest (m : FlowModel R V T N) (variable_ : V) (info : VariableModel T N)
    (testedType promotedType : Option T) : FlowModel R V T N :=
  let newTested := testedType.elim info.tested (addTypeToUniqueList ops info.tested)
  match promotedType with
  | none =>
    -- The model is kept as it is if the test brings no new type of interest.
    if testedType.all (typeListContains ops info.tested) then m
    else m.updateVariableInfo variable_ { info with tested := newTested } m.reachable
  | some promotedType =>
    m.updateVariableInfo variable_
      { info with
        promotedTypes := some (addToPromotedTypes info.promotedTypes promotedType)
        tested := newTested }
      (if ops.isNever promotedType then reach.setUnreachable m.reachable else m.reachable)

/-- `tryMarkNonNullable(…).ifTrue`; its `ifFalse` is the model itself. -/
def tryMarkNonNullable (m : FlowModel R V T N) (variable_ : V) (node : N) : FlowModel R V T N :=
  let info := m.infoFor variable_ node
  if info.writeCaptured then m
  else
    let previousType := currentType ops variable_ info
    let newType := ops.promoteToNonNull previousType
    if ops.isSameType newType previousType then m
    else finishTypeTest ops reach m variable_ info none (some newType)

/-- `tryPromoteForTypeCast`: the effect of `x as T`. -/
def tryPromoteForTypeCast (m : FlowModel R V T N) (variable_ : V) (type : T) (node : N) :
    FlowModel R V T N :=
  let info := m.infoFor variable_ node
  if info.writeCaptured then m
  else
    let previousType := currentType ops variable_ info
    match ops.tryPromoteToType type previousType with
    | none => m
    | some newType =>
      if ops.isSameType newType previousType then m
      else finishTypeTest ops reach m variable_ info (some type) (some newType)

/-- `tryPromoteForTypeCheck(…).ifTrue`, which does what a cast does. -/
def tryPromoteForTypeCheckIfTrue (m : FlowModel R V T N) (variable_ : V) (type : T) (node : N) :
    FlowModel R V T N :=
  tryPromoteForTypeCast ops reach m variable_ type node

/-- `typeIfFailed` of `tryPromoteForTypeCheck`. -/
def typeIfFailed (previousType type : T) : Option T :=
  let factoredType := ops.factor previousType type
  -- Promoting to `Never` would mark code as unreachable that mixed mode can reach.
  if ops.isNever factoredType then none
  else if ops.isSameType factoredType previousType then none
  else some factoredType

/-- `tryPromoteForTypeCheck(…).ifFalse`. -/
def tryPromoteForTypeCheckIfFalse (m : FlowModel R V T N) (variable_ : V) (type : T) (node : N) :
    FlowModel R V T N :=
  let info := m.infoFor variable_ node
  if info.writeCaptured then m
  else finishTypeTest ops reach m variable_ info (some type)
    (typeIfFailed ops (currentType ops variable_ info) type)

/-- `write`: an assignment to a variable. -/
def write (m : FlowModel R V T N) (variable_ : V) (writtenType : T) (newSsaNode : N) :
    FlowModel R V T N :=
  match m.variableInfo variable_ with
  | none => m
  | some info =>
    m.updateVariableInfo variable_
      (info.write ops (ops.variableType variable_) writtenType newSsaNode) m.reachable

/-- `conservativeJoin`. Both loops read the model before the call; captured variables come last. -/
def conservativeJoin (m : FlowModel R V T N) (writtenVariables capturedVariables : List V)
    (node : V → N) : FlowModel R V T N :=
  let discarded (v : V) : Option (VariableModel T N) :=
    if v ∈ writtenVariables then
      some ((m.infoFor v (node v)).discardPromotionsAndMarkNotUnassigned (node v))
    else m.variableInfo v
  ⟨m.reachable, fun v =>
    if v ∈ capturedVariables then
      match m.variableInfo v with
      | none => some ⟨none, [], false, false, none⟩
      | some info => if info.writeCaptured then discarded v else some info.writeCapture
    else discarded v⟩

/-- `joinVariableInfo`; `same` says that both arguments are one map. -/
def joinVariableInfo (same : Bool) (first second : V → Option (VariableModel T N)) (node : V → N) :
    V → Option (VariableModel T N) :=
  if same then first
  else fun v => do
    let firstModel ← first v
    let secondModel ← second v
    some (firstModel.join ops secondModel (node v))

/-- `join` of two models. -/
def join (same : Bool) (first second : FlowModel R V T N) (node : V → N) : FlowModel R V T N :=
  if reach.locallyReachable first.reachable && !reach.locallyReachable second.reachable then first
  else if !reach.locallyReachable first.reachable && reach.locallyReachable second.reachable then
    second
  else ⟨reach.join first.reachable second.reachable,
    joinVariableInfo ops same first.variableInfo second.variableInfo node⟩

/-- `rebaseForward`: the state after `this` as if it had started from `base`. -/
def rebaseForward (this base : FlowModel R V T N) : FlowModel R V T N :=
  ⟨reach.rebaseForward this.reachable base.reachable, fun v =>
    match base.variableInfo v, this.variableInfo v with
    | none, _ => none
    | some baseModel, none => some baseModel
    | some baseModel, some thisModel => some (thisModel.rebase ops baseModel)⟩

end FlowModel

/-! ## Runs -/

variable {R V T N : Type} [DecidableEq V] [DecidableEq N]

open FlowModel in
/-- The flow models that the operations build, when every write meets `Allowed` in the model before
it. -/
inductive Run (ops : TypeOperations V T) (reach : ReachabilityOps R)
    (Allowed : V → VariableModel T N → T → Prop) : FlowModel R V T N → Prop
  | empty (r : R) : Run ops reach Allowed ⟨r, fun _ => none⟩
  /-- `setUnreachable`, `split` and `unsplit` leave the variables alone. -/
  | withReachable {m} (r : R) : Run ops reach Allowed m →
      Run ops reach Allowed { m with reachable := r }
  | declare {m} (v : V) (initialized : Bool) (node : N) : Run ops reach Allowed m →
      Run ops reach Allowed (m.declare v initialized node)
  | tryMarkNonNullable {m} (v : V) (node : N) : Run ops reach Allowed m →
      Run ops reach Allowed (tryMarkNonNullable ops reach m v node)
  | tryPromoteForTypeCast {m} (v : V) (type : T) (node : N) : Run ops reach Allowed m →
      Run ops reach Allowed (tryPromoteForTypeCast ops reach m v type node)
  | tryPromoteForTypeCheckIfTrue {m} (v : V) (type : T) (node : N) : Run ops reach Allowed m →
      Run ops reach Allowed (tryPromoteForTypeCheckIfTrue ops reach m v type node)
  | tryPromoteForTypeCheckIfFalse {m} (v : V) (type : T) (node : N) : Run ops reach Allowed m →
      Run ops reach Allowed (tryPromoteForTypeCheckIfFalse ops reach m v type node)
  | write {m} (v : V) (writtenType : T) (node : N) :
      (∀ info, m.variableInfo v = some info → Allowed v info writtenType) →
      Run ops reach Allowed m → Run ops reach Allowed (write ops m v writtenType node)
  | conservativeJoin {m} (writtenVariables capturedVariables : List V) (node : V → N) :
      Run ops reach Allowed m →
      Run ops reach Allowed (m.conservativeJoin writtenVariables capturedVariables node)
  | join {first second} (same : Bool) (node : V → N) :
      (same → first.variableInfo = second.variableInfo) →
      Run ops reach Allowed first → Run ops reach Allowed second →
      Run ops reach Allowed (join ops reach same first second node)
  | rebaseForward {this base} : Run ops reach Allowed this → Run ops reach Allowed base →
      Run ops reach Allowed (rebaseForward ops reach this base)

end DartVm.FlowAnalysis
