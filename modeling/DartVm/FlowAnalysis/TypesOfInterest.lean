import DartVm.FlowAnalysis.VariableModel
import Mathlib.Data.List.Nodup

/-! # Promotion to a type of interest

What a write promotes a variable to: among the types of interest that the written type is a subtype
of, and that are more specific than the currently promoted type, the least one, if there is one.

* `Searching`: the invariant of the search.
* `tryPromoteToTypeOfInterest_spec`: what a write promotes to. -/

namespace DartVm.FlowAnalysis

open List

variable {V T N : Type}

/-! ## Lawful operations -/

namespace TypeOperations

/-- `s` is a strict subtype of `t`. -/
def IsStrictSubtypeOf (ops : TypeOperations V T) (s t : T) : Prop :=
  ops.isSubtypeOf s t ∧ ¬ops.isSameType s t

/-- **Lawful type operations**: subtyping is a partial order up to `isSameType`, and the operations
that compute a type to promote to return a subtype of their argument. -/
structure Lawful (ops : TypeOperations V T) : Prop where
  refl : ∀ t, ops.isSubtypeOf t t
  trans : ∀ {s t u}, ops.isSubtypeOf s t → ops.isSubtypeOf t u → ops.isSubtypeOf s u
  isSameType_iff : ∀ {s t}, ops.isSameType s t ↔ ops.isSubtypeOf s t ∧ ops.isSubtypeOf t s
  factor_le : ∀ t what, ops.isSubtypeOf (ops.factor t what) t
  promoteToNonNull_le : ∀ t, ops.isSubtypeOf (ops.promoteToNonNull t) t
  tryPromoteToType_le : ∀ {type t s}, ops.tryPromoteToType type t = some s → ops.isSubtypeOf s t

namespace Lawful

variable {ops : TypeOperations V T} (law : ops.Lawful) {s t u : T}
include law

/-- Every type is the same as itself. -/
theorem same_refl (t : T) : ops.isSameType t t := law.isSameType_iff.mpr ⟨law.refl t, law.refl t⟩

/-- Types that are the same are subtypes. -/
theorem le_of_same (h : ops.isSameType s t) : ops.isSubtypeOf s t := (law.isSameType_iff.mp h).1

/-- Types that are the same are supertypes. -/
theorem ge_of_same (h : ops.isSameType s t) : ops.isSubtypeOf t s := (law.isSameType_iff.mp h).2

/-- Sameness of types is symmetric. -/
theorem same_symm (h : ops.isSameType s t) : ops.isSameType t s :=
  law.isSameType_iff.mpr ⟨law.ge_of_same h, law.le_of_same h⟩

/-- A strict subtype is a subtype that is not a supertype. -/
theorem strict_iff : ops.IsStrictSubtypeOf s t ↔ ops.isSubtypeOf s t ∧ ¬ops.isSubtypeOf t s := by
  unfold IsStrictSubtypeOf
  rw [law.isSameType_iff]
  tauto

/-- A subtype of a strict subtype is a strict subtype. -/
theorem strict_of_le_of_strict (hst : ops.isSubtypeOf s t) (htu : ops.IsStrictSubtypeOf t u) :
    ops.IsStrictSubtypeOf s u := by
  rw [law.strict_iff] at htu ⊢
  exact ⟨law.trans hst htu.1, fun hus => htu.2 (law.trans hus hst)⟩

/-- A strict subtype of a subtype is a strict subtype. -/
theorem strict_of_strict_of_le (hst : ops.IsStrictSubtypeOf s t) (htu : ops.isSubtypeOf t u) :
    ops.IsStrictSubtypeOf s u := by
  rw [law.strict_iff] at hst ⊢
  exact ⟨law.trans hst.1 htu, fun hus => hst.2 (law.trans htu hus)⟩

end Lawful

end TypeOperations

variable (ops : TypeOperations V T)

/-! ## The types of interest as one list -/

/-- A type and its non-nullable version, if that is another type. -/
def interestOf (type : T) : List T :=
  type ::
    if ops.isSameType (ops.promoteToNonNull type) type then [] else [ops.promoteToNonNull type]

/-- **Types of interest** of a variable, in the order in which a write looks at them. -/
def typesOfInterest (declaredType : T) (tested : List T) : List T :=
  (if ops.isSameType (ops.promoteToNonNull declaredType) declaredType then []
    else [ops.promoteToNonNull declaredType]) ++ tested.flatMap (interestOf ops)

/-- One look at each type of a list, until there is a result. -/
def scan (promotedTypes : Option (List T)) (writtenType : T) : List T → Interest T → Interest T
  | [], st => st
  | type :: types, st =>
    if st.result.isSome then st
    else scan promotedTypes writtenType types
      (handleTypeOfInterest ops promotedTypes writtenType st type)

variable {ops} {promotedTypes : Option (List T)} {writtenType : T}

variable {st : Interest T}

/-- Once the written type itself has been found, nothing changes any more. -/
theorem scan_of_result (h : st.result.isSome) (types : List T) :
    scan ops promotedTypes writtenType types st = st := by
  cases types with
  | nil => rfl
  | cons type types => rw [scan, if_pos h]

/-- Searching two lists is searching one after the other. -/
theorem scan_append (types₁ types₂ : List T) (st : Interest T) :
    scan ops promotedTypes writtenType (types₁ ++ types₂) st =
      scan ops promotedTypes writtenType types₂ (scan ops promotedTypes writtenType types₁ st) := by
  induction types₁ generalizing st with
  | nil => rfl
  | cons type types ih =>
    rw [cons_append, scan, scan]
    by_cases h : st.result.isSome
    · rw [if_pos h, if_pos h, scan_of_result h]
    · rw [if_neg h, if_neg h, ih]

/-- A tested type is searched together with its non-nullable form. -/
theorem handleTested_eq_scan (h : ¬st.result.isSome) (type : T) :
    handleTested ops promotedTypes writtenType st type =
      scan ops promotedTypes writtenType (interestOf ops type) st := by
  rw [interestOf, scan, if_neg h, handleTested]
  by_cases hsame : ops.isSameType (ops.promoteToNonNull type) type
  · simp [hsame, scan]
  · simp [hsame, scan]

/-- The loop over the tested types is one search over all types of interest that they give. -/
theorem handleAllTested_eq_scan (h : ¬st.result.isSome) (tested : List T) :
    handleAllTested ops promotedTypes writtenType tested st =
      scan ops promotedTypes writtenType (tested.flatMap (interestOf ops)) st := by
  induction tested generalizing st with
  | nil => rfl
  | cons type tested ih =>
    rw [handleAllTested, flatMap_cons, scan_append, ← handleTested_eq_scan h]
    by_cases hres : (handleTested ops promotedTypes writtenType st type).result.isSome
    · simp only [if_pos hres, scan_of_result hres]
    · simp only [if_neg hres, ih hres]

/-- The state in which the search for a type of interest ends. -/
def searched (ops : TypeOperations V T) (tested : List T) (declaredType : T)
    (promotedTypes : Option (List T)) (writtenType : T) : Interest T :=
  scan ops promotedTypes writtenType (typesOfInterest ops declaredType tested) ⟨none, []⟩

/-- **The search in two parts**: which types are found, and the choice among them. -/
theorem tryPromoteToTypeOfInterest_eq (tested : List T) (declaredType : T) :
    tryPromoteToTypeOfInterest ops tested declaredType promotedTypes writtenType =
      match (searched ops tested declaredType promotedTypes writtenType).result with
      | some result => some result
      | none =>
        match uniqueCandidate ops
          (searched ops tested declaredType promotedTypes writtenType).candidates with
        | some promoted => some (addToPromotedTypes promotedTypes promoted)
        | none => promotedTypes := by
  -- The source keeps the declared type apart and stops as soon as there is a result.
  have hsearched : searched ops tested declaredType promotedTypes writtenType =
      let st := if !ops.isSameType (ops.promoteToNonNull declaredType) declaredType then
        handleTypeOfInterest ops promotedTypes writtenType ⟨none, []⟩
          (ops.promoteToNonNull declaredType) else ⟨none, []⟩
      if st.result.isSome then st
      else handleAllTested ops promotedTypes writtenType tested st := by
    have hstart : ∀ st : Interest T,
        (if st.result.isSome then st else handleAllTested ops promotedTypes writtenType tested st) =
          scan ops promotedTypes writtenType (tested.flatMap (interestOf ops)) st := by
      intro st
      by_cases h : st.result.isSome
      · rw [if_pos h, scan_of_result h]
      · rw [if_neg h, handleAllTested_eq_scan h]
    dsimp only
    rw [hstart, searched, typesOfInterest, scan_append]
    by_cases hsame : ops.isSameType (ops.promoteToNonNull declaredType) declaredType
    · simp [hsame, scan]
    · simp [hsame, scan]
  exact hsearched ▸ rfl

/-! ## What the search finds -/

variable (ops promotedTypes writtenType) in
/-- A type that a write may promote to: a supertype of the written type, more specific than the
promoted type. -/
structure Eligible (type : T) : Prop where
  above : ops.isSubtypeOf writtenType type
  below : ∀ current ∈ promotedTypes.bind List.getLast?, ops.IsStrictSubtypeOf type current

variable (ops promotedTypes writtenType) in
/-- **Search invariant**, after a look at the types in `seen`. -/
structure Searching (seen : List T) (st : Interest T) : Prop where
  eligible : ∀ t ∈ st.candidates, t ∈ seen ∧ Eligible ops promotedTypes writtenType t
  distinct : st.candidates.Pairwise fun s t => ¬ops.isSameType s t
  complete : st.result = none → ∀ t ∈ seen, Eligible ops promotedTypes writtenType t →
    ∃ c ∈ st.candidates, ops.isSameType c t
  result : ∀ r, st.result = some r → r = addToPromotedTypes promotedTypes writtenType ∧
    ∃ t ∈ seen, Eligible ops promotedTypes writtenType t ∧ ops.isSameType t writtenType

/-- A list contains a type if one of its members is the same type. -/
theorem typeListContains_iff {list : List T} {t : T} :
    typeListContains ops list t ↔ ∃ s ∈ list, ops.isSameType s t := by
  simp [typeListContains]

variable {type : T}

/-- A type is eligible if the written type is below it and it is strictly below the current type. -/
theorem eligible_iff :
    Eligible ops promotedTypes writtenType type ↔
      ops.isSubtypeOf writtenType type ∧
        ¬(promotedTypes.bind List.getLast?).any fun current =>
          ops.isSameType type current || !ops.isSubtypeOf type current := by
  have hiff : Eligible ops promotedTypes writtenType type ↔ ops.isSubtypeOf writtenType type ∧
      ∀ current ∈ promotedTypes.bind getLast?, ops.IsStrictSubtypeOf type current :=
    ⟨fun h => ⟨h.above, h.below⟩, fun h => ⟨h.1, h.2⟩⟩
  rw [hiff]
  cases promotedTypes.bind getLast? with
  | none => simp
  | some current => simp [TypeOperations.IsStrictSubtypeOf, and_comm]

/-- A type that is not eligible changes nothing. -/
theorem handleTypeOfInterest_of_not_eligible (st : Interest T)
    (h : ¬Eligible ops promotedTypes writtenType type) :
    handleTypeOfInterest ops promotedTypes writtenType st type = st := by
  rw [eligible_iff, not_and_not_right] at h
  by_cases habove : ops.isSubtypeOf writtenType type
  · simp [handleTypeOfInterest, habove, h habove]
  · simp [handleTypeOfInterest, habove]

/-- An eligible type is the result if it is the written type, and a candidate otherwise. -/
theorem handleTypeOfInterest_of_eligible (st : Interest T)
    (h : Eligible ops promotedTypes writtenType type) :
    handleTypeOfInterest ops promotedTypes writtenType st type =
      { result :=
          if ops.isSameType type writtenType then
            some (addToPromotedTypes promotedTypes writtenType)
          else st.result
        candidates := addTypeToUniqueList ops st.candidates type } := by
  obtain ⟨habove, hbelow⟩ := eligible_iff.mp h
  simp only [handleTypeOfInterest, addTypeToUniqueList, habove, Bool.not_true, Bool.false_eq_true,
    if_false, hbelow]

/-- A member of the extended list is old or the new type. -/
theorem mem_addTypeToUniqueList {types : List T} {s t : T}
    (h : s ∈ addTypeToUniqueList ops types t) : s ∈ types ∨ s = t := by
  unfold addTypeToUniqueList at h
  split at h
  · exact .inl h
  · simpa using h

/-- Extending a list keeps its members. -/
theorem subset_addTypeToUniqueList (types : List T) (t : T) :
    types ⊆ addTypeToUniqueList ops types t := by
  unfold addTypeToUniqueList
  split
  · exact Subset.refl _
  · exact subset_append_left _ _

/-- The new type, or the same one, is in the extended list. -/
theorem exists_same_mem_addTypeToUniqueList (law : ops.Lawful) (types : List T) (t : T) :
    ∃ s ∈ addTypeToUniqueList ops types t, ops.isSameType s t := by
  unfold addTypeToUniqueList
  split
  next h => exact typeListContains_iff.mp h
  next => exact ⟨t, by simp, law.same_refl t⟩

/-- Extending a list adds no duplicate. -/
theorem pairwise_addTypeToUniqueList {types : List T}
    (h : types.Pairwise fun s t => ¬ops.isSameType s t) (t : T) :
    (addTypeToUniqueList ops types t).Pairwise fun s t => ¬ops.isSameType s t := by
  unfold addTypeToUniqueList
  split
  · exact h
  next hnew =>
    refine pairwise_append.mpr ⟨h, pairwise_singleton _ _, fun s hs u hu hsame => ?_⟩
    rw [mem_singleton.mp hu] at hsame
    exact hnew (typeListContains_iff.mpr ⟨s, hs, hsame⟩)

namespace Searching

/-- The search starts with no candidate. -/
theorem initial : Searching ops promotedTypes writtenType [] ⟨none, []⟩ where
  eligible := by simp
  distinct := List.Pairwise.nil
  complete := by simp
  result := by simp

variable {seen : List T}

variable (law : ops.Lawful) (types : List T) (h : Searching ops promotedTypes writtenType seen st)
include law types h

omit law types in
/-- Once there is a result, the types that were not looked at do not matter. -/
theorem of_result (hres : st.result.isSome)
    (types : List T) : Searching ops promotedTypes writtenType (seen ++ types) st where
  eligible t ht := ⟨mem_append_left _ (h.eligible t ht).1, (h.eligible t ht).2⟩
  distinct := h.distinct
  complete hnone := by simp [hnone] at hres
  result r hr := by
    obtain ⟨heq, t, ht, hel, hsame⟩ := h.result r hr
    exact ⟨heq, t, mem_append_left _ ht, hel, hsame⟩

omit types in
/-- One more type of interest keeps the account of the search. -/
theorem step (hres : st.result = none) (type : T) :
    Searching ops promotedTypes writtenType (seen ++ [type])
      (handleTypeOfInterest ops promotedTypes writtenType st type) := by
  by_cases hel : Eligible ops promotedTypes writtenType type
  · rw [handleTypeOfInterest_of_eligible st hel]
    refine ⟨fun t ht => ?_, pairwise_addTypeToUniqueList h.distinct type, fun _ t ht htel => ?_,
      fun r hr => ?_⟩
    · rcases mem_addTypeToUniqueList ht with hold | rfl
      · exact ⟨mem_append_left _ (h.eligible t hold).1, (h.eligible t hold).2⟩
      · exact ⟨by simp, hel⟩
    · rcases mem_append.mp ht with hold | hnew
      · obtain ⟨c, hc, hsame⟩ := h.complete hres t hold htel
        exact ⟨c, subset_addTypeToUniqueList _ _ hc, hsame⟩
      · rw [mem_singleton.mp hnew]
        exact exists_same_mem_addTypeToUniqueList law _ _
    · -- There was no result before, so this type is the written type.
      by_cases hsame : ops.isSameType type writtenType
      · simp only [hsame, if_true, Option.some.injEq] at hr
        exact ⟨hr.symm, type, by simp, hel, hsame⟩
      · simp [hsame, hres] at hr
  · rw [handleTypeOfInterest_of_not_eligible st hel]
    refine ⟨fun t ht => ?_, h.distinct, fun _ t ht htel => ?_, fun r hr => ?_⟩
    · exact ⟨mem_append_left _ (h.eligible t ht).1, (h.eligible t ht).2⟩
    · rcases mem_append.mp ht with hold | hnew
      · exact h.complete hres t hold htel
      · exact absurd (mem_singleton.mp hnew ▸ htel) hel
    · simp [hres] at hr

/-- The account holds for a whole list of types of interest. -/
theorem scan :
    Searching ops promotedTypes writtenType (seen ++ types)
      (FlowAnalysis.scan ops promotedTypes writtenType types st) := by
  induction types generalizing seen st with
  | nil => simpa [FlowAnalysis.scan] using h
  | cons type types ih =>
    by_cases hres : st.result.isSome
    · rw [scan_of_result hres]
      exact h.of_result hres _
    · rw [FlowAnalysis.scan, if_neg hres]
      have hstep := h.step law (Option.not_isSome_iff_eq_none.mp hres) type
      simpa using ih hstep

end Searching

/-- **The account of the whole search**: its state after all types of interest of a variable. -/
theorem searching_searched (law : ops.Lawful) (tested : List T) (declaredType : T)
    (promotedTypes : Option (List T)) (writtenType : T) :
    Searching ops promotedTypes writtenType (typesOfInterest ops declaredType tested)
      (searched ops tested declaredType promotedTypes writtenType) := by
  simpa [searched] using Searching.initial.scan law (typesOfInterest ops declaredType tested)

/-! ## The least candidate -/

variable {candidates : List T}

/-- The inner loop asks whether a candidate is below all others. -/
theorem isSubtypeOfOthers_iff (law : ops.Lawful) {i : ℕ} (hi : i < candidates.length) :
    isSubtypeOfOthers ops candidates i ↔ ∀ t ∈ candidates, ops.isSubtypeOf candidates[i] t := by
  have hiff : isSubtypeOfOthers ops candidates i ↔
      ∀ j, j < candidates.length → j = i ∨
        (candidates[j]?).any (ops.isSubtypeOf candidates[i]) := by
    simp [isSubtypeOfOthers, getElem?_eq_getElem hi]
  rw [hiff, forall_mem_iff_forall_getElem]
  refine forall_congr' fun j => forall_congr' fun hj => ?_
  rw [getElem?_eq_getElem hj]
  refine ⟨fun h => h.elim (fun heq => ?_) id, .inr⟩
  subst heq
  exact law.refl _

/-- The unique candidate is the least of the candidates. -/
theorem uniqueCandidate_least (law : ops.Lawful) {p : T}
    (h : uniqueCandidate ops candidates = some p) :
    p ∈ candidates ∧ ∀ t ∈ candidates, ops.isSubtypeOf p t := by
  unfold uniqueCandidate at h
  split at h
  next i hfilter =>
    have hmem : i ∈ (range candidates.length).filter (isSubtypeOfOthers ops candidates) := by
      simp [hfilter]
    obtain ⟨hrange, hleast⟩ := mem_filter.mp hmem
    have hi : i < candidates.length := mem_range.mp hrange
    rw [getElem?_eq_getElem hi, Option.some.injEq] at h
    subst h
    exact ⟨getElem_mem hi, (isSubtypeOfOthers_iff law hi).mp hleast⟩
  next => simp at h

/-- A least candidate is taken: as the candidates are distinct, no other one is least. -/
theorem uniqueCandidate_of_least (law : ops.Lawful)
    (hdistinct : candidates.Pairwise fun s t => ¬ops.isSameType s t) {c : T} (hc : c ∈ candidates)
    (hleast : ∀ t ∈ candidates, ops.isSubtypeOf c t) : uniqueCandidate ops candidates = some c := by
  obtain ⟨i, hi, rfl⟩ := getElem_of_mem hc
  have honly : ∀ j ∈ range candidates.length,
      isSubtypeOfOthers ops candidates j = (j == i) := by
    intro j hj
    have hj : j < candidates.length := mem_range.mp hj
    rw [Bool.eq_iff_iff, isSubtypeOfOthers_iff law hj, beq_iff_eq]
    refine ⟨fun hother => ?_, fun heq => by subst heq; exact hleast⟩
    have hsame : ops.isSameType candidates[i] candidates[j] :=
      law.isSameType_iff.mpr ⟨hleast _ (getElem_mem hj), hother _ (getElem_mem hi)⟩
    rw [pairwise_iff_getElem] at hdistinct
    rcases Nat.lt_trichotomy i j with hlt | heq | hlt
    · exact absurd hsame (hdistinct i j hi hj hlt)
    · exact heq.symm
    · exact absurd (law.same_symm hsame) (hdistinct j i hj hi hlt)
  have hfilter : (range candidates.length).filter (isSubtypeOfOthers ops candidates) = [i] := by
    rw [filter_congr honly, filter_beq,
      count_eq_one_of_mem nodup_range (mem_range.mpr hi), replicate_one]
  simp [uniqueCandidate, hfilter, getElem?_eq_getElem hi]

/-! ## Specification -/

variable (ops promotedTypes writtenType) in
/-- A least eligible type of interest. -/
structure IsTarget (declaredType : T) (tested : List T) (type : T) : Prop where
  mem : type ∈ typesOfInterest ops declaredType tested
  eligible : Eligible ops promotedTypes writtenType type
  least : ∀ u ∈ typesOfInterest ops declaredType tested,
    Eligible ops promotedTypes writtenType u → ops.isSubtypeOf type u

/-- **What a write promotes to.** The least eligible type of interest is added, or there is none and
the chain is kept. -/
theorem tryPromoteToTypeOfInterest_spec (law : ops.Lawful) (tested : List T) (declaredType : T)
    (promotedTypes : Option (List T)) (writtenType : T) :
    (∃ p t, tryPromoteToTypeOfInterest ops tested declaredType promotedTypes writtenType =
        some (addToPromotedTypes promotedTypes p) ∧ ops.isSameType p t ∧
        IsTarget ops promotedTypes writtenType declaredType tested t) ∨
      tryPromoteToTypeOfInterest ops tested declaredType promotedTypes writtenType = promotedTypes ∧
        ∀ t, ¬IsTarget ops promotedTypes writtenType declaredType tested t := by
  have hst := searching_searched law tested declaredType promotedTypes writtenType
  rw [tryPromoteToTypeOfInterest_eq]
  cases hres : (searched ops tested declaredType promotedTypes writtenType).result with
  | some r =>
    obtain ⟨hr, t, ht, hel, hsame⟩ := hst.result r hres
    refine .inl ⟨writtenType, t, by simp [hr], law.same_symm hsame, ht, hel, fun u _ hu => ?_⟩
    exact law.trans (law.le_of_same hsame) hu.above
  | none =>
    cases huniq : uniqueCandidate ops
        (searched ops tested declaredType promotedTypes writtenType).candidates with
    | some p =>
      obtain ⟨hp, hleast⟩ := uniqueCandidate_least law huniq
      obtain ⟨hmem, hel⟩ := hst.eligible p hp
      refine .inl ⟨p, p, rfl, law.same_refl p, hmem, hel, fun u hu huel => ?_⟩
      obtain ⟨c, hc, hsame⟩ := hst.complete hres u hu huel
      exact law.trans (hleast c hc) (law.le_of_same hsame)
    | none =>
      refine .inr ⟨rfl, fun t ht => ?_⟩
      -- A least type would be among the candidates, and would have been taken.
      obtain ⟨c, hc, hsame⟩ := hst.complete hres t ht.mem ht.eligible
      have hleast : ∀ u ∈ (searched ops tested declaredType promotedTypes writtenType).candidates,
          ops.isSubtypeOf c u := fun u hu =>
        law.trans (law.le_of_same hsame) (ht.least u (hst.eligible u hu).1 (hst.eligible u hu).2)
      simp [uniqueCandidate_of_least law hst.distinct hc hleast] at huniq

end DartVm.FlowAnalysis
