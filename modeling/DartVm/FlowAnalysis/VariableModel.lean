import Mathlib.Data.List.Basic

/-! # Variable models

`VariableModel` of `flow_analysis.dart`: what flow analysis knows about one variable at one point of
the code.  The operations on types are a parameter, as in the source.  The history of demotions and
the properties, which only serve error messages, are left out.

* `TypeOperations`: the operations on types.
* `VariableModel`: promoted types, tested types and the SSA node.
* `write`, `joinPromotedTypes`: the two operations with a loop. -/

namespace DartVm.FlowAnalysis

/-! ## Operations on types -/

/-- `TypeOperations`: what the analysis asks about the types of a language, with the declared types
of the variables. -/
structure TypeOperations (V T : Type) where
  factor : T → T → T
  isNever : T → Bool
  isSameType : T → T → Bool
  isSubtypeOf : T → T → Bool
  promoteToNonNull : T → T
  tryPromoteToType : T → T → Option T
  variableType : V → T

/-- **Variable model.** `N` is the type of SSA nodes. -/
structure VariableModel (T N : Type) where
  promotedTypes : Option (List T)
  /-- `tested`: the types of interest. -/
  tested : List T
  assigned : Bool
  unassigned : Bool
  /-- `ssaNode`, null if the variable is write captured. -/
  ssaNode : Option N
deriving DecidableEq

namespace VariableModel

variable {T N : Type}

/-- `VariableModel.fresh`, with its new SSA node. -/
def fresh (assigned : Bool) (node : N) : VariableModel T N :=
  ⟨none, [], assigned, !assigned, some node⟩

/-- `writeCaptured`: a closure may write the variable. -/
def writeCaptured (m : VariableModel T N) : Bool := m.ssaNode.isNone

/-- `discardPromotionsAndMarkNotUnassigned`, with its new SSA node. -/
def discardPromotionsAndMarkNotUnassigned (m : VariableModel T N) (node : N) : VariableModel T N :=
  ⟨none, m.tested, m.assigned, false, if m.writeCaptured then none else some node⟩

/-- `writeCapture`: all promotions are given up. -/
def writeCapture (m : VariableModel T N) : VariableModel T N := ⟨none, [], m.assigned, false, none⟩

end VariableModel

variable {V T N : Type} (ops : TypeOperations V T)

/-- `_addToPromotedTypes`. -/
def addToPromotedTypes (promotedTypes : Option (List T)) (promoted : T) : List T :=
  promotedTypes.getD [] ++ [promoted]

/-- `_typeListContains`. -/
def typeListContains (list : List T) (searchType : T) : Bool :=
  list.any (ops.isSameType · searchType)

/-- `_addTypeToUniqueList`. -/
def addTypeToUniqueList (types : List T) (newType : T) : List T :=
  if typeListContains ops types newType then types else types ++ [newType]

/-! ## Writes -/

/-- The loop of `_demoteViaAssignment`: how many of the first `n` promoted types are kept. -/
def numElementsToKeep (writtenType : T) (promotedTypes : List T) : ℕ → ℕ
  | 0 => 0
  | n + 1 =>
    if (promotedTypes[n]?).any (ops.isSubtypeOf writtenType) then n + 1
    else numElementsToKeep writtenType promotedTypes n

/-- `_demoteViaAssignment`: keeps the promotions that the written type allows. -/
def demoteViaAssignment (promotedTypes : Option (List T)) (writtenType : T) : Option (List T) := do
  let promotedTypes ← promotedTypes
  let n := numElementsToKeep ops writtenType promotedTypes promotedTypes.length
  if n = 0 then none else some (promotedTypes.take n)

/-- The variables of `_tryPromoteToTypeOfInterest`. -/
structure Interest (T : Type) where
  result : Option (List T)
  candidates : List T

/-- `handleTypeOfInterest`, the local function of `_tryPromoteToTypeOfInterest`: makes a type the
result or a candidate. -/
def handleTypeOfInterest (promotedTypes : Option (List T)) (writtenType : T) (st : Interest T)
    (type : T) : Interest T :=
  -- The written type must be a subtype of the type.
  if !ops.isSubtypeOf writtenType type then st
  -- Must be more specific than the currently promoted type.
  else if (promotedTypes.bind List.getLast?).any fun current =>
      ops.isSameType type current || !ops.isSubtypeOf type current then st
  else
    { result :=
        if ops.isSameType type writtenType then some (addToPromotedTypes promotedTypes writtenType)
        else st.result
      candidates :=
        if typeListContains ops st.candidates type then st.candidates else st.candidates ++ [type] }

/-- A type and its non-nullable version, if that is another type. -/
def handleTested (promotedTypes : Option (List T)) (writtenType : T) (st : Interest T) (type : T) :
    Interest T :=
  let st := handleTypeOfInterest ops promotedTypes writtenType st type
  if st.result.isSome then st
  else
    let typeNonNull := ops.promoteToNonNull type
    if !ops.isSameType typeNonNull type then
      handleTypeOfInterest ops promotedTypes writtenType st typeNonNull
    else st

/-- The loop over the types of interest, which ends when there is a result. -/
def handleAllTested (promotedTypes : Option (List T)) (writtenType : T) :
    List T → Interest T → Interest T
  | [], st => st
  | type :: tested, st =>
    let st := handleTested ops promotedTypes writtenType st type
    if st.result.isSome then st else handleAllTested promotedTypes writtenType tested st

/-- Whether the candidate at `i` is a subtype of all the others. -/
def isSubtypeOfOthers (candidates : List T) (i : ℕ) : Bool :=
  (List.range candidates.length).all fun j =>
    j == i || (candidates[i]?).any fun type => (candidates[j]?).any (ops.isSubtypeOf type)

/-- The unique candidate that is a subtype of all the others. -/
def uniqueCandidate (candidates : List T) : Option T :=
  match (List.range candidates.length).filter (isSubtypeOfOthers ops candidates) with
  | [i] => candidates[i]?
  | _ => none

/-- `_tryPromoteToTypeOfInterest`: promotes to the written type or to the unique least candidate
among the types of interest. -/
def tryPromoteToTypeOfInterest (tested : List T) (declaredType : T)
    (promotedTypes : Option (List T)) (writtenType : T) : Option (List T) :=
  let declaredTypeNonNull := ops.promoteToNonNull declaredType
  let st : Interest T := ⟨none, []⟩
  -- The declared type is always a type of interest, but we never promote to the declared type.
  let st :=
    if !ops.isSameType declaredTypeNonNull declaredType then
      handleTypeOfInterest ops promotedTypes writtenType st declaredTypeNonNull
    else st
  let st := if st.result.isSome then st else handleAllTested ops promotedTypes writtenType tested st
  match st.result with
  | some result => some result
  | none =>
    match uniqueCandidate ops st.candidates with
    | some promoted => some (addToPromotedTypes promotedTypes promoted)
    | none => promotedTypes

/-- Whether a write leaves the very list in place (`identical` in the source): the demotion drops
nothing, and nothing is added. -/
def sameChain (promotedTypes demoted newPromotedTypes : Option (List T)) : Bool :=
  demoted.map List.length == promotedTypes.map List.length &&
    newPromotedTypes.map List.length == demoted.map List.length

/-- `VariableModel.write`: demotes, then promotes to a type of interest. -/
def VariableModel.write (m : VariableModel T N) (declaredType writtenType : T) (newSsaNode : N) :
    VariableModel T N :=
  if m.writeCaptured then { m with assigned := true, unassigned := false, ssaNode := none }
  else
    let demoted := demoteViaAssignment ops m.promotedTypes writtenType
    let newPromotedTypes := tryPromoteToTypeOfInterest ops m.tested declaredType demoted writtenType
    if sameChain m.promotedTypes demoted newPromotedTypes && m.assigned then
      { m with ssaNode := some newSsaNode }
    else
      let newTested := if newPromotedTypes.isNone && m.promotedTypes.isSome then [] else m.tested
      ⟨newPromotedTypes, newTested, true, false, some newSsaNode⟩

/-! ## Joins -/

/-- The variables of the loop of `joinPromotedTypes`, with what is left of the chains. -/
structure JoinState (T : Type) where
  result : Option (List T)
  skipped1 : Bool
  skipped2 : Bool
  rest1 : List T
  rest2 : List T

/-- The loop of `joinPromotedTypes`. -/
def joinLoop (result : Option (List T)) (skipped1 skipped2 : Bool) :
    List T → List T → JoinState T
  | type1 :: rest1, type2 :: rest2 =>
    if ops.isSameType type1 type2 then
      joinLoop (some (result.getD [] ++ [type1])) skipped1 skipped2 rest1 rest2
    else if ops.isSubtypeOf type2 type1 then
      joinLoop result true skipped2 rest1 (type2 :: rest2)
    else if ops.isSubtypeOf type1 type2 then
      joinLoop result skipped1 true (type1 :: rest1) rest2
    else ⟨result, true, true, type1 :: rest1, type2 :: rest2⟩
  | rest1, rest2 => ⟨result, skipped1, skipped2, rest1, rest2⟩
termination_by l1 l2 => l1.length + l2.length

/-- `joinPromotedTypes`: the common part of two chains of promotions, sharing one of them where
possible. -/
def joinPromotedTypes (chain1 chain2 : Option (List T)) : Option (List T) :=
  match chain1, chain2 with
  | none, _ => none
  | _, none => none
  | some chain1, some chain2 =>
    let st := joinLoop ops none false false chain1 chain2
    if st.rest1.isEmpty && !st.skipped1 then some chain1
    else if st.rest2.isEmpty && !st.skipped2 then some chain2
    else st.result

/-- The length of the common start of two lists of types. -/
def sharedLength : List T → List T → ℕ
  | type1 :: types1, type2 :: types2 =>
    if ops.isSameType type1 type2 then sharedLength types1 types2 + 1 else 0
  | _, _ => 0

/-- `joinTested`: the union of two lists of tested types. -/
def joinTested (types1 types2 : List T) : List T :=
  let (types1, types2) :=
    if types1.length > types2.length then (types2, types1) else (types1, types2)
  let shared := sharedLength ops types1 types2
  types2 ++ (types1.drop shared).filter fun typeToAdd => !typeListContains ops types2 typeToAdd

/-- `VariableModel.join`, with its new SSA node. -/
def VariableModel.join [DecidableEq N] (first second : VariableModel T N) (node : N) :
    VariableModel T N :=
  let newWriteCaptured := first.writeCaptured || second.writeCaptured
  ⟨joinPromotedTypes ops first.promotedTypes second.promotedTypes,
    if newWriteCaptured then [] else joinTested ops first.tested second.tested,
    first.assigned && second.assigned, first.unassigned && second.unassigned,
    if newWriteCaptured then none
    else if first.ssaNode = second.ssaNode then first.ssaNode else some node⟩

/-! ## Rebasing -/

/-- The types from the first one on that can follow `last`. -/
def skipToSubtype (last : T) : List T → List T
  | [] => []
  | nextType :: rest =>
    if ops.isSubtypeOf nextType last && !ops.isSameType nextType last then nextType :: rest
    else skipToSubtype last rest

/-- `rebasePromotedTypes`: the promotions of `base`, followed by those of `this` that are below
them. -/
def rebasePromotedTypes (thisPromotedTypes basePromotedTypes : Option (List T)) : Option (List T) :=
  match basePromotedTypes, thisPromotedTypes with
  | none, this => this
  | some base, none => some base
  | some base, some this =>
    match base.getLast? with
    | some last => some (base ++ skipToSubtype ops last this)
    | none => some base

/-- The model of a variable that is in both `this` and `base`, in `FlowModel.rebaseForward`. -/
def VariableModel.rebase [DecidableEq N] (this base : VariableModel T N) : VariableModel T N :=
  let newWriteCaptured := this.writeCaptured || base.writeCaptured
  ⟨if newWriteCaptured then none
    else if base.ssaNode ≠ this.ssaNode then base.promotedTypes
    else rebasePromotedTypes ops this.promotedTypes base.promotedTypes,
    joinTested ops this.tested base.tested, this.assigned || base.assigned,
    this.unassigned && base.unassigned, if newWriteCaptured then none else base.ssaNode⟩

end DartVm.FlowAnalysis
