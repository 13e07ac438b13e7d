import DartVm.FlowAnalysis.FlowModel
import DartVm.FlowAnalysis.TypesOfInterest

/-! # Promotion chains

The promoted types of a variable form a chain of strict subtypes.  The invariant has a parameter, a
property of the single types: with the trivial one it holds in every run, and with "is a strict
subtype of the declared type" in the runs whose writes find no other least type of interest.

* `IsPromotion`: the invariant of a chain. -/

namespace DartVm.FlowAnalysis

open List

variable {R V T N : Type} {ops : TypeOperations V T} {P : T → Prop}

/-! ## Chains -/

variable (ops P) in
/-- **Promotion chain** of types with the property `P`: null, or not empty
and strictly decreasing. -/
def IsPromotion (promotedTypes : Option (List T)) : Prop :=
  ∀ l, promotedTypes = some l →
    l ≠ [] ∧ (l.Pairwise fun s t => ops.IsStrictSubtypeOf t s) ∧ ∀ t ∈ l, P t

/-- No promotion at all is a promotion. -/
theorem isPromotion_none : IsPromotion ops P none := by
  intro l hl
  simp at hl

variable {l l' : List T} {last : T}

/-- A non-empty part of a promotion, in its order, is a promotion. -/
theorem IsPromotion.of_sublist (h : IsPromotion ops P (some l)) (hsub : l'.Sublist l)
    (hne : l' ≠ []) : IsPromotion ops P (some l') := by
  rintro _ ⟨⟩
  obtain ⟨-, hchain, hP⟩ := h l rfl
  exact ⟨hne, hchain.sublist hsub, fun t ht => hP t (hsub.subset ht)⟩

/-- The last type of a descending chain is below all of it. -/
theorem last_le (law : ops.Lawful)
    (hchain : l.Pairwise fun s t => ops.IsStrictSubtypeOf t s) (hlast : l.getLast? = some last) :
    ∀ t ∈ l, ops.isSubtypeOf last t := by
  obtain ⟨l', rfl⟩ := List.getLast?_eq_some_iff.mp hlast
  intro t ht
  rcases mem_append.mp ht with hinit | heq
  · exact ((pairwise_append.mp hchain).2.2 t hinit last (by simp)).1
  · rw [mem_singleton.mp heq]
    exact law.refl last

/-- Promotions are put together if the second is strictly below the last type of the first. -/
theorem IsPromotion.append (law : ops.Lawful)
    (h : IsPromotion ops P (some l)) (hlast : l.getLast? = some last)
    (hchain' : l'.Pairwise fun s t => ops.IsStrictSubtypeOf t s) (hP' : ∀ t ∈ l', P t)
    (hbelow : ∀ t ∈ l', ops.IsStrictSubtypeOf t last) : IsPromotion ops P (some (l ++ l')) := by
  rintro _ ⟨⟩
  obtain ⟨hne, hchain, hP⟩ := h l rfl
  refine ⟨by simp [hne], ?_, fun t ht => (mem_append.mp ht).elim (hP t) (hP' t)⟩
  refine pairwise_append.mpr ⟨hchain, hchain', fun s hs t ht => ?_⟩
  exact law.strict_of_strict_of_le (hbelow t ht) (last_le law hchain hlast s hs)

variable {promotedTypes : Option (List T)}

/-- A type strictly below the current one extends the promotion. -/
theorem IsPromotion.add (law : ops.Lawful) {p : T} (h : IsPromotion ops P promotedTypes) (hp : P p)
    (hbelow : ∀ current ∈ promotedTypes.bind List.getLast?, ops.IsStrictSubtypeOf p current) :
    IsPromotion ops P (some (addToPromotedTypes promotedTypes p)) := by
  cases promotedTypes with
  | none =>
    rintro _ ⟨⟩
    simpa [addToPromotedTypes] using hp
  | some l =>
    have hlast := getLast?_eq_some_getLast (h l rfl).1
    have hlt := hbelow (l.getLast (h l rfl).1) (by simpa using hlast)
    exact h.append law hlast (pairwise_singleton _ _) (by simpa using hp) (by simpa using hlt)

/-! ## Writes -/

/-- Nothing is kept exactly if the written type is below none of the first `n` types. -/
theorem numElementsToKeep_eq_zero_iff (writtenType : T) (l : List T) (n : ℕ) :
    numElementsToKeep ops writtenType l n = 0 ↔
      ∀ t ∈ l.take n, ¬ops.isSubtypeOf writtenType t := by
  induction n with
  | zero => simp [numElementsToKeep]
  | succ n ih =>
    rw [numElementsToKeep, take_add_one]
    cases hn : l[n]? with
    | none => simp [ih]
    | some t =>
      by_cases h : ops.isSubtypeOf writtenType t
      · simp [h]
      · simp only [Option.any_some, h, Bool.false_eq_true, if_false, ih]
        simp [or_imp, forall_and, h]

/-- An assignment undoes the promotion exactly if the written type is below none of its types. -/
theorem demoteViaAssignment_eq_none_iff {writtenType : T} :
    demoteViaAssignment ops promotedTypes writtenType = none ↔
      ∀ l, promotedTypes = some l → ∀ t ∈ l, ¬ops.isSubtypeOf writtenType t := by
  cases promotedTypes with
  | none => simp [demoteViaAssignment]
  | some l =>
    simp [demoteViaAssignment, numElementsToKeep_eq_zero_iff]

/-- What an assignment leaves of a promotion is a promotion. -/
theorem IsPromotion.demoteViaAssignment (h : IsPromotion ops P promotedTypes) (writtenType : T) :
    IsPromotion ops P (demoteViaAssignment ops promotedTypes writtenType) := by
  cases promotedTypes with
  | none => exact isPromotion_none
  | some l =>
    by_cases hn : numElementsToKeep ops writtenType l l.length = 0
    · simpa [FlowAnalysis.demoteViaAssignment, hn] using isPromotion_none
    · have htake := h.of_sublist (take_sublist (numElementsToKeep ops writtenType l l.length) l)
        (by simp [hn, (h l rfl).1])
      simpa [FlowAnalysis.demoteViaAssignment, hn] using htake

/-- A promotion on a write keeps the chain, if it goes to types with the property only. -/
theorem IsPromotion.tryPromoteToTypeOfInterest (law : ops.Lawful)
    (hdown : ∀ s t, ops.isSubtypeOf s t → P t → P s) (h : IsPromotion ops P promotedTypes)
    (tested : List T) (declaredType writtenType : T)
    (htarget : promotedTypes = none →
      ∀ t, IsTarget ops none writtenType declaredType tested t → P t) :
    IsPromotion ops P
      (tryPromoteToTypeOfInterest ops tested declaredType promotedTypes writtenType) := by
  rcases tryPromoteToTypeOfInterest_spec law tested declaredType promotedTypes writtenType with
    ⟨p, t, heq, hsame, ht⟩ | ⟨heq, -⟩
  · rw [heq]
    have hbelow : ∀ current ∈ promotedTypes.bind List.getLast?, ops.IsStrictSubtypeOf p current :=
      fun current hc =>
        law.strict_of_le_of_strict (law.le_of_same hsame) (ht.eligible.below current hc)
    refine h.add law ?_ hbelow
    cases promotedTypes with
    | none => exact hdown p t (law.le_of_same hsame) (htarget rfl t ht)
    | some l =>
      obtain ⟨hne, -, hP⟩ := h l rfl
      have hlast := getLast?_eq_some_getLast hne
      exact hdown p (l.getLast hne) (hbelow _ (by simpa using hlast)).1
        (hP _ (getLast_mem hne))
  · rw [heq]
    exact h

/-! ## Joins and rebasing -/

/-- The loop of the join collects types of the first chain, in their order. -/
theorem joinLoop_result (result : Option (List T)) (skipped1 skipped2 : Bool) (l1 l2 : List T)
    (hne : result ≠ some []) :
    ∀ r, (joinLoop ops result skipped1 skipped2 l1 l2).result = some r →
      r ≠ [] ∧ r.Sublist (result.getD [] ++ l1) := by
  fun_induction joinLoop ops result skipped1 skipped2 l1 l2 with
  | case1 result skipped1 skipped2 type1 rest1 type2 rest2 hsame ih =>
    simpa using ih (by simp)
  | case2 result skipped1 skipped2 type1 rest1 type2 rest2 _ _ ih =>
    intro r hr
    obtain ⟨hr', hsub⟩ := ih hne r hr
    exact ⟨hr', hsub.trans (Sublist.append_left (sublist_cons_self _ _) _)⟩
  | case3 result skipped1 skipped2 type1 rest1 type2 rest2 _ _ _ ih => exact ih hne
  | case4 result skipped1 skipped2 type1 rest1 type2 rest2 | case5 result skipped1 skipped2 l1 l2 =>
    rintro r rfl
    exact ⟨fun h => hne (by rw [h]), sublist_append_left _ _⟩

/-- The join of two promotions is a promotion. -/
theorem IsPromotion.join {chain1 chain2 : Option (List T)} (h1 : IsPromotion ops P chain1)
    (h2 : IsPromotion ops P chain2) : IsPromotion ops P (joinPromotedTypes ops chain1 chain2) := by
  match chain1, chain2 with
  | none, _ => exact isPromotion_none
  | some _, none => exact isPromotion_none
  | some chain1, some chain2 =>
    rw [joinPromotedTypes]
    split
    · exact h1
    split
    · exact h2
    -- What is left is a subsequence of the first chain.
    intro r hr
    obtain ⟨hne, hsub⟩ := joinLoop_result none false false chain1 chain2 (by simp) r hr
    exact h1.of_sublist (by simpa using hsub) hne r rfl

/-- Skipping drops types from the front only. -/
theorem skipToSubtype_suffix (last : T) (l : List T) : skipToSubtype ops last l <:+ l := by
  induction l with
  | nil => exact suffix_refl _
  | cons t l ih =>
    rw [skipToSubtype]
    split
    · exact suffix_refl _
    · exact ih.trans (suffix_cons _ _)

/-- What is left after skipping lies strictly below `last`. -/
theorem skipToSubtype_below (law : ops.Lawful) (last : T)
    (hchain : l.Pairwise fun s t => ops.IsStrictSubtypeOf t s) :
    ∀ t ∈ skipToSubtype ops last l, ops.IsStrictSubtypeOf t last := by
  induction l with
  | nil => simp [skipToSubtype]
  | cons t l ih =>
    obtain ⟨hhead, htail⟩ := pairwise_cons.mp hchain
    rw [skipToSubtype]
    split
    next hcond =>
      have ht : ops.IsStrictSubtypeOf t last := by
        simpa [TypeOperations.IsStrictSubtypeOf] using hcond
      intro s hs
      rcases mem_cons.mp hs with rfl | hs
      · exact ht
      · exact law.strict_of_le_of_strict (hhead s hs).1 ht
    next => exact ih htail

/-- Rebasing a promotion on another one gives a promotion. -/
theorem IsPromotion.rebase (law : ops.Lawful) {this base : Option (List T)}
    (hthis : IsPromotion ops P this) (hbase : IsPromotion ops P base) :
    IsPromotion ops P (rebasePromotedTypes ops this base) := by
  match base, this with
  | none, this => simpa [rebasePromotedTypes] using hthis
  | some _, none => simpa [rebasePromotedTypes] using hbase
  | some base, some this =>
    cases hlast : base.getLast? with
    | none => simpa [rebasePromotedTypes, hlast] using hbase
    | some last =>
      obtain ⟨-, hchain, hP⟩ := hthis this rfl
      have hsuffix : skipToSubtype ops last this <:+ this := skipToSubtype_suffix last this
      have happend := hbase.append law hlast (hchain.sublist hsuffix.sublist)
        (fun t ht => hP t (hsuffix.subset ht)) (skipToSubtype_below law last hchain)
      simpa [rebasePromotedTypes, hlast] using happend

end DartVm.FlowAnalysis
