import DartVm.FlowAnalysis.PromotionChain

/-! # Promotion chains of whole runs

Every operation keeps the promotion chains of all variables.  A chain lies strictly below
the declared type as long as no write promotes an unpromoted variable to a tested type that
does not: `_tryPromoteToTypeOfInterest` compares the types of interest with the currently
promoted type only.

* `Run.valid`: every run is valid, step by step.
* `promotedTypes_chain_iff`: the promotion chains of every run.
* `write_promotes_to_supertype`: a write that promotes to a supertype of the declared type. -/

namespace DartVm.FlowAnalysis

variable {R V T N : Type} {ops : TypeOperations V T} {reach : ReachabilityOps R}

/-! ## Models of one variable -/

namespace VariableModel

variable (ops) in
/-- **Valid variable model**, with promoted types that have the property `P`. -/
structure Valid (P : T → Prop) (m : VariableModel T N) : Prop where
  isPromotion : IsPromotion ops P m.promotedTypes
  captured : m.writeCaptured → m.promotedTypes = none

namespace Valid

variable {P : T → Prop} {m : VariableModel T N}

/-- A model without promotions is valid. -/
theorem of_promotedTypes_eq_none (h : m.promotedTypes = none) :
    Valid ops P m := ⟨h ▸ isPromotion_none, fun _ => h⟩

/-- A write keeps the invariant, if it promotes an unpromoted variable to types with the property
only. -/
theorem write (law : ops.Lawful) (hdown : ∀ s t, ops.isSubtypeOf s t → P t → P s)
    (h : Valid ops P m) (declaredType writtenType : T) (node : N)
    (htarget : m.writeCaptured = false →
      demoteViaAssignment ops m.promotedTypes writtenType = none →
      ∀ t, IsTarget ops none writtenType declaredType m.tested t → P t) :
    Valid ops P (m.write ops declaredType writtenType node) := by
  unfold VariableModel.write
  by_cases hcap : m.writeCaptured
  · rw [if_pos hcap]
    exact of_promotedTypes_eq_none (h.captured hcap)
  rw [if_neg hcap]
  dsimp only
  split
  · -- The chain is the old one, and the variable has an SSA node.
    exact ⟨h.isPromotion, fun hc => absurd hc (by simp [writeCaptured])⟩
  · refine ⟨?_, fun hc => absurd hc (by simp [writeCaptured])⟩
    exact (h.isPromotion.demoteViaAssignment writtenType).tryPromoteToTypeOfInterest law hdown
      m.tested declaredType writtenType (htarget (by simpa using hcap))

/-- The join of two valid models of a variable is valid. -/
theorem join [DecidableEq N] {first second : VariableModel T N} (h1 : Valid ops P first)
    (h2 : Valid ops P second) (node : N) : Valid ops P (first.join ops second node) := by
  refine ⟨h1.isPromotion.join h2.isPromotion, fun hcap => ?_⟩
  -- The new model is captured only if one of the two is, and that one has no promoted types.
  have hcases : first.writeCaptured ∨ second.writeCaptured := by
    by_contra hno
    rw [not_or] at hno
    have hfirst : first.ssaNode.isNone = false := Bool.eq_false_iff.mpr hno.1
    simp only [VariableModel.join, hno.1, hno.2, Bool.or_self, Bool.false_eq_true, if_false] at hcap
    unfold writeCaptured at hcap
    split at hcap
    · simp [hfirst] at hcap
    · simp at hcap
  rcases hcases with hc | hc
  · simp [VariableModel.join, joinPromotedTypes, h1.captured hc]
  · simp only [VariableModel.join, h2.captured hc]
    cases first.promotedTypes <;> rfl

/-- Rebasing keeps models of a variable valid. -/
theorem rebase [DecidableEq N] (law : ops.Lawful) {this base : VariableModel T N}
    (hthis : Valid ops P this) (hbase : Valid ops P base) :
    Valid ops P (this.rebase ops base) := by
  by_cases hcap : this.writeCaptured || base.writeCaptured
  · exact of_promotedTypes_eq_none (by simp [VariableModel.rebase, hcap])
  refine ⟨?_, fun hc => ?_⟩
  · simp only [VariableModel.rebase, hcap, Bool.false_eq_true, if_false]
    split
    · exact hbase.isPromotion
    · exact hthis.isPromotion.rebase law hbase.isPromotion
  · have hnode : base.writeCaptured := by
      simp only [VariableModel.rebase, hcap, Bool.false_eq_true, if_false] at hc
      exact hc
    exact absurd (by simp [hnode]) hcap

end Valid

end VariableModel

/-! ## Flow models -/

variable {m : FlowModel R V T N} {info : VariableModel T N} {v : V}

namespace FlowModel

open VariableModel

variable {P : V → T → Prop}

variable (ops P) in
/-- **Valid flow model.** -/
def Valid (m : FlowModel R V T N) : Prop :=
  ∀ v info, m.variableInfo v = some info → VariableModel.Valid ops (P v) info

/-- What a property of types must allow: the strict subtypes of the declared type, and subtypes of
types it allows. -/
structure Allows (ops : TypeOperations V T) (P : V → T → Prop) : Prop where
  declared : ∀ v t, ops.IsStrictSubtypeOf t (ops.variableType v) → P v t
  down : ∀ v s t, ops.isSubtypeOf s t → P v t → P v s

/-- What a valid model says about a variable is valid, also for one it does not hold yet. -/
theorem Valid.infoFor (h : Valid ops P m) (v : V) (node : N) :
    VariableModel.Valid ops (P v) (m.infoFor v node) := by
  unfold FlowModel.infoFor
  cases hinfo : m.variableInfo v with
  | none => exact .of_promotedTypes_eq_none rfl
  | some info => exact h v info hinfo

variable [DecidableEq V]

section

variable (law : ops.Lawful) (hP : Allows ops P) (h : Valid ops P m)
include law hP h

omit law hP in
/-- Replacing the model of one variable by a valid one keeps the flow model valid. -/
theorem Valid.updateVariableInfo {model : VariableModel T N}
    (hmodel : VariableModel.Valid ops (P v) model) (r : R) :
    Valid ops P (m.updateVariableInfo v model r) := by
  intro w info hinfo
  by_cases hw : w = v
  · subst hw
    simp only [FlowModel.updateVariableInfo, Function.update_self, Option.some.injEq] at hinfo
    exact hinfo ▸ hmodel
  · simp only [FlowModel.updateVariableInfo, Function.update_of_ne hw] at hinfo
    exact h w info hinfo

/-- A type test keeps the invariant, if it promotes to a strict subtype of the current type. -/
theorem Valid.finishTypeTest (hinfo : VariableModel.Valid ops (P v) info)
    (hcap : ¬info.writeCaptured) (testedType promotedType : Option T)
    (hbelow : ∀ p, promotedType = some p → ops.IsStrictSubtypeOf p (currentType ops v info)) :
    Valid ops P (finishTypeTest ops reach m v info testedType promotedType) := by
  cases promotedType with
  | none =>
    unfold FlowModel.finishTypeTest
    dsimp only
    split
    · exact h
    · refine h.updateVariableInfo ?_ _
      exact ⟨hinfo.isPromotion, hinfo.captured⟩
  | some p =>
    have hp := hbelow p rfl
    unfold FlowModel.finishTypeTest
    refine h.updateVariableInfo ?_ _
    refine ⟨?_, fun hc => absurd hc hcap⟩
    unfold currentType at hp
    cases hcur : info.promotedTypes.bind List.getLast? with
    | none =>
      rw [hcur] at hp
      exact hinfo.isPromotion.add law (hP.declared v p hp) (by simp [hcur])
    | some current =>
      rw [hcur] at hp
      obtain ⟨l, hl, hlast⟩ := Option.bind_eq_some_iff.mp hcur
      have hcurrent : P v current :=
        (hinfo.isPromotion l hl).2.2 current (List.mem_of_getLast? hlast)
      refine hinfo.isPromotion.add law (hP.down v p current hp.1 hcurrent) fun c hc => ?_
      rw [hcur, Option.mem_some_iff] at hc
      exact hc ▸ hp

/-- Marking a variable as non-nullable keeps the model valid. -/
theorem Valid.tryMarkNonNullable (v : V)
    (node : N) : Valid ops P (tryMarkNonNullable ops reach m v node) := by
  unfold FlowModel.tryMarkNonNullable
  dsimp only
  split
  · exact h
  next hcap =>
    split
    · exact h
    next hsame =>
      refine h.finishTypeTest law hP (h.infoFor v node) hcap none _ ?_
      rintro p ⟨⟩
      exact ⟨law.promoteToNonNull_le _, hsame⟩

/-- A cast keeps the model valid: it promotes to a strict subtype only. -/
theorem Valid.tryPromoteForTypeCast (v : V) (type : T) (node : N) :
    Valid ops P (tryPromoteForTypeCast ops reach m v type node) := by
  unfold FlowModel.tryPromoteForTypeCast
  dsimp only
  split
  · exact h
  next hcap =>
    split
    · exact h
    next newType hnew =>
      split
      · exact h
      next hsame =>
        refine h.finishTypeTest law hP (h.infoFor v node) hcap _ _ ?_
        rintro p ⟨⟩
        exact ⟨law.tryPromoteToType_le hnew, hsame⟩

/-- The negative outcome of a type test keeps the model valid. -/
theorem Valid.tryPromoteForTypeCheckIfFalse (v : V) (type : T) (node : N) :
    Valid ops P (tryPromoteForTypeCheckIfFalse ops reach m v type node) := by
  unfold FlowModel.tryPromoteForTypeCheckIfFalse
  dsimp only
  split
  · exact h
  next hcap =>
    refine h.finishTypeTest law hP (h.infoFor v node) hcap _ _ fun p hp => ?_
    unfold typeIfFailed at hp
    dsimp only at hp
    split at hp
    · simp at hp
    split at hp
    · simp at hp
    next hsame =>
      cases hp
      exact ⟨law.factor_le _ _, hsame⟩

omit law hP in
/-- Forgetting what loops and closures may write keeps the model valid. -/
theorem Valid.conservativeJoin (writtenVariables capturedVariables : List V)
    (node : V → N) : Valid ops P (m.conservativeJoin writtenVariables capturedVariables node) := by
  have hdiscarded : ∀ v info,
      (if v ∈ writtenVariables then
        some ((m.infoFor v (node v)).discardPromotionsAndMarkNotUnassigned (node v))
      else m.variableInfo v) = some info → VariableModel.Valid ops (P v) info := by
    intro v info hinfo
    split at hinfo
    · cases hinfo
      exact .of_promotedTypes_eq_none rfl
    · exact h v info hinfo
  intro v info hinfo
  dsimp only [FlowModel.conservativeJoin] at hinfo
  split at hinfo
  · split at hinfo
    · cases hinfo
      exact .of_promotedTypes_eq_none rfl
    · split at hinfo
      · exact hdiscarded v info hinfo
      · cases hinfo
        exact .of_promotedTypes_eq_none rfl
  · exact hdiscarded v info hinfo

end

omit [DecidableEq V]

variable [DecidableEq N]

/-- Joining two paths keeps the model valid. -/
theorem Valid.join {first second : FlowModel R V T N} (h1 : Valid ops P first)
    (h2 : Valid ops P second) (same : Bool) (node : V → N) :
    Valid ops P (join ops reach same first second node) := by
  unfold FlowModel.join
  split
  · exact h1
  split
  · exact h2
  intro v info hinfo
  dsimp only [joinVariableInfo] at hinfo
  split at hinfo
  · exact h1 v info hinfo
  · obtain ⟨firstModel, hfirst, hinfo⟩ := Option.bind_eq_some_iff.mp hinfo
    obtain ⟨secondModel, hsecond, hinfo⟩ := Option.bind_eq_some_iff.mp hinfo
    cases hinfo
    exact (h1 v firstModel hfirst).join (h2 v secondModel hsecond) (node v)

/-- Rebasing, as after `try`, keeps the model valid. -/
theorem Valid.rebaseForward (law : ops.Lawful) {this base : FlowModel R V T N}
    (hthis : Valid ops P this) (hbase : Valid ops P base) :
    Valid ops P (rebaseForward ops reach this base) := by
  intro v info hinfo
  dsimp only [FlowModel.rebaseForward] at hinfo
  split at hinfo
  · simp at hinfo
  next baseModel hb _ =>
    cases hinfo
    exact hbase v _ hb
  next baseModel thisModel hb ht =>
    cases hinfo
    exact (hthis v thisModel ht).rebase law (hbase v baseModel hb)

end FlowModel

/-! ## Runs -/

variable [DecidableEq V] [DecidableEq N] {writtenType : T}

/-- **Every run is valid**, by induction over its steps, if every write that the run may make keeps
the model of its variable valid. -/
theorem Run.valid (law : ops.Lawful) {P : V → T → Prop} (hP : FlowModel.Allows ops P)
    {Allowed : V → VariableModel T N → T → Prop}
    (hwrite : ∀ v info writtenType node, VariableModel.Valid ops (P v) info →
      Allowed v info writtenType →
      VariableModel.Valid ops (P v) (info.write ops (ops.variableType v) writtenType node))
    (hm : Run ops reach Allowed m) : FlowModel.Valid ops P m := by
  induction hm with
  | empty r => intro v info hinfo; simp at hinfo
  | withReachable r _ ih => exact ih
  | declare v initialized node _ ih =>
    exact ih.updateVariableInfo (.of_promotedTypes_eq_none rfl) _
  | tryMarkNonNullable v node _ ih => exact ih.tryMarkNonNullable law hP v node
  | tryPromoteForTypeCast v type node _ ih => exact ih.tryPromoteForTypeCast law hP v type node
  | tryPromoteForTypeCheckIfTrue v type node _ ih =>
    exact ih.tryPromoteForTypeCast law hP v type node
  | tryPromoteForTypeCheckIfFalse v type node _ ih =>
    exact ih.tryPromoteForTypeCheckIfFalse law hP v type node
  | @write m v writtenType node hallowed _ ih =>
    unfold FlowModel.write
    split
    · exact ih
    next info hinfo =>
      exact ih.updateVariableInfo
        (hwrite v info writtenType node (ih v info hinfo) (hallowed info hinfo)) _
  | conservativeJoin writtenVariables capturedVariables node _ ih =>
    exact ih.conservativeJoin writtenVariables capturedVariables node
  | join same node _ _ _ ih1 ih2 => exact ih1.join ih2 same node
  | rebaseForward _ _ ihthis ihbase => exact ihthis.rebaseForward law ihbase

/-! ## The declared type -/

variable (ops) in
/-- Each type of `l` is a strict subtype of the one before it. -/
def IsStrictChain (l : List T) : Prop := l.IsChain fun s t => ops.IsStrictSubtypeOf t s

variable (ops) in
/-- **Condition on a write**, in the model before it: if the variable is left unpromoted, the least
type of interest above the written type, if any, is a strict subtype of the declared type. -/
def TargetBelowDeclared (v : V) (info : VariableModel T N) (writtenType : T) : Prop :=
  info.writeCaptured = false →
  (∀ l, info.promotedTypes = some l → ∀ t ∈ l, ¬ops.isSubtypeOf writtenType t) →
  ∀ t ∈ typesOfInterest ops (ops.variableType v) info.tested, ops.isSubtypeOf writtenType t →
    (∀ u ∈ typesOfInterest ops (ops.variableType v) info.tested,
      ops.isSubtypeOf writtenType u → ops.isSubtypeOf t u) →
    ops.IsStrictSubtypeOf t (ops.variableType v)

omit [DecidableEq V] [DecidableEq N] in
/-- The condition on a write, read off the types it could promote to: all of them are strict
subtypes of the declared type. -/
theorem targetBelowDeclared_iff :
    TargetBelowDeclared ops v info writtenType ↔
      (info.writeCaptured = false → demoteViaAssignment ops info.promotedTypes writtenType = none →
        ∀ t, IsTarget ops none writtenType (ops.variableType v) info.tested t →
          ops.IsStrictSubtypeOf t (ops.variableType v)) := by
  -- With no promoted type, a type is eligible as soon as it is above the written one.
  have hel : ∀ t, Eligible ops none writtenType t ↔ ops.isSubtypeOf writtenType t :=
    fun t => ⟨fun h => h.above, fun h => ⟨h, by simp⟩⟩
  rw [demoteViaAssignment_eq_none_iff]
  refine ⟨fun h hcap hdem t ht => ?_, fun h hcap hdem t hmem habove hleast => ?_⟩
  · exact h hcap hdem t ht.mem ht.eligible.above
      fun u hu habove => ht.least u hu ((hel u).mpr habove)
  · exact h hcap hdem t
      ⟨hmem, (hel t).mpr habove, fun u hu huel => hleast u hu huel.above⟩

omit [DecidableEq V] in
/-- Every operation but a write promotes to strict subtypes of the declared type only. -/
theorem allows_strict (law : ops.Lawful) :
    FlowModel.Allows ops fun v t => ops.IsStrictSubtypeOf t (ops.variableType v) :=
  ⟨fun _ _ h => h, fun _ _ _ hst ht => law.strict_of_le_of_strict hst ht⟩

omit [DecidableEq V] [DecidableEq N] in
/-- The converse of `VariableModel.Valid.write`: an unpromoted variable with a target is promoted to
it. -/
theorem target_below_of_write (law : ops.Lawful) {node : N}
    (h : ∀ l, (info.write ops (ops.variableType v) writtenType node).promotedTypes = some l →
      IsStrictChain ops (ops.variableType v :: l)) :
    TargetBelowDeclared ops v info writtenType := by
  rw [targetBelowDeclared_iff]
  intro hcap hdem t ht
  rcases tryPromoteToTypeOfInterest_spec law info.tested (ops.variableType v) none writtenType with
    ⟨p, t', heq, hsame, ht'⟩ | ⟨-, hnone⟩
  · have hpromoted : (info.write ops (ops.variableType v) writtenType node).promotedTypes =
        some [p] := by
      simp [VariableModel.write, hcap, hdem, heq, sameChain, addToPromotedTypes]
    have hp : ops.IsStrictSubtypeOf p (ops.variableType v) := by
      simpa [IsStrictChain] using h [p] hpromoted
    have htp : ops.isSubtypeOf t p :=
      law.trans (ht.least t' ht'.mem ht'.eligible) (law.ge_of_same hsame)
    exact law.strict_of_le_of_strict htp hp
  · exact absurd ht (hnone t)

omit [DecidableEq V] [DecidableEq N] in
/-- In a valid model the declared type and the promoted types form one strictly descending chain. -/
theorem isStrictChain_of_valid
    (h : VariableModel.Valid ops (fun t => ops.IsStrictSubtypeOf t (ops.variableType v)) info)
    {l : List T} (hl : info.promotedTypes = some l) :
    IsStrictChain ops (ops.variableType v :: l) := by
  obtain ⟨-, hchain, hbelow⟩ := h.isPromotion l hl
  exact (List.pairwise_cons.mpr ⟨hbelow, hchain⟩).isChain

/-- **Promotion chains.** In every run the promoted types are null or a nonempty chain of strict
subtypes, and a write-captured variable is not promoted. If all writes meet the condition, the first
one is a strict subtype of the declared type as well, and a further write keeps it so if and only if
it meets the condition. -/
theorem promotedTypes_chain_iff (law : ops.Lawful) :
    (∀ (Allowed : V → VariableModel T N → T → Prop) (m : FlowModel R V T N),
      Run ops reach Allowed m → ∀ v info, m.variableInfo v = some info →
        (info.writeCaptured → info.promotedTypes = none) ∧
        ∀ l, info.promotedTypes = some l → l ≠ [] ∧ IsStrictChain ops l) ∧
    ∀ m : FlowModel R V T N, Run ops reach (TargetBelowDeclared ops) m →
      ∀ v info, m.variableInfo v = some info →
        (∀ l, info.promotedTypes = some l → IsStrictChain ops (ops.variableType v :: l)) ∧
        ∀ writtenType node,
          (∀ l, (info.write ops (ops.variableType v) writtenType node).promotedTypes = some l →
            IsStrictChain ops (ops.variableType v :: l)) ↔
          TargetBelowDeclared ops v info writtenType := by
  refine ⟨fun Allowed m hm v info hinfo => ?_, fun m hm v info hinfo => ?_⟩
  · have hvalid : FlowModel.Valid ops (fun _ _ => True) m :=
      hm.valid law ⟨fun _ _ _ => trivial, fun _ _ _ _ _ => trivial⟩
        fun v info writtenType node h _ =>
          h.write law (fun _ _ _ _ => trivial) _ writtenType node fun _ _ _ _ => trivial
    refine ⟨(hvalid v info hinfo).captured, fun l hl => ?_⟩
    obtain ⟨hne, hchain, -⟩ := (hvalid v info hinfo).isPromotion l hl
    exact ⟨hne, hchain.isChain⟩
  · have hwrite : ∀ v (info : VariableModel T N) writtenType node,
        VariableModel.Valid ops (fun t => ops.IsStrictSubtypeOf t (ops.variableType v)) info →
        TargetBelowDeclared ops v info writtenType →
        VariableModel.Valid ops (fun t => ops.IsStrictSubtypeOf t (ops.variableType v))
          (info.write ops (ops.variableType v) writtenType node) :=
      fun v info writtenType node h hcond =>
        h.write law (fun _ _ => law.strict_of_le_of_strict) _ writtenType node
          (targetBelowDeclared_iff.mp hcond)
    have hvalid := hm.valid law (allows_strict law) hwrite v info hinfo
    refine ⟨fun l hl => isStrictChain_of_valid hvalid hl, fun writtenType node => ?_⟩
    exact ⟨target_below_of_write law, fun hcond l hl =>
      isStrictChain_of_valid (hwrite v info writtenType node hvalid hcond) hl⟩

/-! ## A promotion to a supertype of the declared type -/

/-- Three types of `dart:core`, in a chain. -/
inductive CoreType where
  | never
  | int
  | num
deriving DecidableEq

namespace CoreType

/-- How far up a type is. -/
def rank : CoreType → ℕ
  | never => 0
  | int => 1
  | num => 2

end CoreType

/-- The operations on them, for one variable of type `declaredType`. -/
def coreOperations (declaredType : CoreType) : TypeOperations Unit CoreType where
  -- Nothing is left of a type when a supertype of it has been tested.
  factor from_ what := if from_.rank ≤ what.rank then .never else from_
  isNever t := t = .never
  isSameType s t := s = t
  isSubtypeOf s t := s.rank ≤ t.rank
  promoteToNonNull t := t
  tryPromoteToType to_ from_ := if to_.rank ≤ from_.rank then some to_ else none
  variableType _ := declaredType

/-- The types of the example are ordered as the laws ask. -/
theorem coreOperations_lawful (declaredType : CoreType) : (coreOperations declaredType).Lawful where
  refl t := by simp [coreOperations]
  trans {s t u} hst htu := by
    simp only [coreOperations, decide_eq_true_eq] at hst htu ⊢
    exact Nat.le_trans hst htu
  isSameType_iff {s t} := by cases s <;> cases t <;> simp [coreOperations, CoreType.rank]
  factor_le t what := by cases t <;> cases what <;> simp [coreOperations, CoreType.rank]
  promoteToNonNull_le t := by simp [coreOperations]
  tryPromoteToType_le {type t s} h := by
    simp only [coreOperations, Option.ite_none_right_eq_some, Option.some.injEq] at h
    simpa [coreOperations, ← h.2] using h.1

/-- A reachability that is a single flag. -/
def flagReachability : ReachabilityOps Bool where
  locallyReachable r := r
  setUnreachable _ := false
  join r1 r2 := r1 || r2
  rebaseForward r base := r && base

/-- `num x; if (x is int) x = 1;`: the chain of `x` after the write is `int`, below `num`. -/
theorem promotedTypes_chain_iff_int :
    ∃ m : FlowModel Bool Unit CoreType ℕ,
      Run (coreOperations .num) flagReachability (TargetBelowDeclared (coreOperations .num)) m ∧
      ∃ info, m.variableInfo () = some info ∧ info.promotedTypes = some [.int] ∧
        IsStrictChain (coreOperations .num) [.num, .int] := by
  have hrun : Run (coreOperations .num) flagReachability
      (TargetBelowDeclared (N := ℕ) (coreOperations .num)) _ :=
    .write () .int 2
      (by rintro _ ⟨⟩ _ h; exact absurd (h [.int] rfl .int (by decide)) (by decide))
      (.tryPromoteForTypeCheckIfTrue () .int 1 (.declare () true 0 (.empty true)))
  refine ⟨_, hrun, _, rfl, rfl, ?_⟩
  have hchain := (promotedTypes_chain_iff (coreOperations_lawful .num)).2 _ hrun () _ rfl
  exact hchain.1 [.int] rfl

/-- `int x = 0; if (x is! num) x = 1;`: the write promotes `x` to `num`, a supertype of `int`. -/
theorem write_promotes_to_supertype :
    (coreOperations .int).Lawful ∧
    ∃ m : FlowModel Bool Unit CoreType ℕ,
      Run (coreOperations .int) flagReachability (fun _ _ _ => True) m ∧
      ∃ info, m.variableInfo () = some info ∧ info.promotedTypes = some [.num] ∧
        ¬IsStrictChain (coreOperations .int) [.int, .num] := by
  have hrun : Run (coreOperations .int) flagReachability
      (fun _ (_ : VariableModel CoreType ℕ) _ => True) _ :=
    .write () .int 2 (fun _ _ => trivial)
      (.tryPromoteForTypeCheckIfFalse () .num 1 (.declare () true 0 (.empty true)))
  refine ⟨coreOperations_lawful .int, _, hrun, _, rfl, rfl, ?_⟩
  simp [IsStrictChain, TypeOperations.IsStrictSubtypeOf, coreOperations, CoreType.rank]

end DartVm.FlowAnalysis
