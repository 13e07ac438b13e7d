import DartVm.FlowAnalysis.PromotionChain

/-! # Joins of promotion chains

`joinPromotedTypes` is meant to intersect two chains.  It does so unless the chains cross: it stops
at two unrelated types, although the chains may meet again below them.

* `joinLoop_spec`: the loop, by induction over both chains.
* `joinPromotedTypes_iff`: when a join is the intersection.
* `joinPromotedTypes_loses_type`: a common type that is lost. -/

namespace DartVm.FlowAnalysis

open List

variable {V T : Type} {ops : TypeOperations V T} {l l1 l2 l3 common : List T} {s t t1 t2 : T}
  {p1 p2 p3 : Option (List T)}

namespace TypeOperations

/-- **Subtyping is a partial order** up to `isSameType`. -/
structure Ordered (ops : TypeOperations V T) : Prop where
  refl : ∀ t, ops.isSubtypeOf t t
  trans : ∀ {s t u}, ops.isSubtypeOf s t → ops.isSubtypeOf t u → ops.isSubtypeOf s u
  isSameType_iff : ∀ {s t}, ops.isSameType s t ↔ ops.isSubtypeOf s t ∧ ops.isSubtypeOf t s

/-- Sameness of types is symmetric. -/
theorem Ordered.same_symm (hord : ops.Ordered) (h : ops.isSameType s t) : ops.isSameType t s :=
  hord.isSameType_iff.mpr (hord.isSameType_iff.mp h).symm

/-- Sameness of types is transitive. -/
theorem Ordered.same_trans (hord : ops.Ordered) (h1 : ops.isSameType s t)
    (h2 : ops.isSameType t t1) : ops.isSameType s t1 := by
  rw [hord.isSameType_iff] at *
  exact ⟨hord.trans h1.1 h2.1, hord.trans h2.2 h1.2⟩

end TypeOperations

/-! ## Common types -/

section

variable (ops)

/-- A chain: each type is a strict subtype of those before it. -/
abbrev Descends (l : List T) : Prop := l.Pairwise fun s t => ops.IsStrictSubtypeOf t s

/-- `t` is one of the types, up to `isSameType`. -/
def Occurs (l : List T) (t : T) : Prop := ∃ s ∈ l, ops.isSameType s t

/-- **Crossing chains**: below two unrelated types, one of each chain, they have a
type in common. -/
def Cross (l1 l2 : List T) : Prop :=
  ∃ t1 ∈ l1, ∃ t2 ∈ l2, ¬ops.isSubtypeOf t1 t2 ∧ ¬ops.isSubtypeOf t2 t1 ∧
    ∃ t, Occurs ops l1 t ∧ Occurs ops l2 t ∧ ops.isSubtypeOf t t1 ∧ ops.isSubtypeOf t t2

/-- `common` has all types that two chains have in common just when these do not cross. -/
def Complete (l1 l2 common : List T) : Prop :=
  (∀ t, Occurs ops l1 t → Occurs ops l2 t → Occurs ops common t) ↔ ¬Cross ops l1 l2

/-- **The intersection** of two promotions: a promotion, null or not empty, to the types that occur
in both, each a strict subtype of the one before it. -/
structure IsIntersection (p1 p2 p : Option (List T)) : Prop where
  isPromotion : IsPromotion ops (fun _ => True) p
  occurs_iff : ∀ t, Occurs ops (p.getD []) t ↔ Occurs ops (p1.getD []) t ∧ Occurs ops (p2.getD []) t

end

/-- A type occurs in a chain if it is the first one or occurs in the rest. -/
theorem occurs_cons : Occurs ops (s :: l) t ↔ ops.isSameType s t ∨ Occurs ops l t := by
  simp [Occurs]

theorem not_occurs_nil : ¬Occurs ops [] t := by simp [Occurs]

/-- A longer chain has no fewer types. -/
theorem Occurs.mono (h : Occurs ops l t) (hsub : l ⊆ l1) : Occurs ops l1 t := by
  obtain ⟨s, hs, hsame⟩ := h
  exact ⟨s, hsub hs, hsame⟩

theorem Cross.symm (h : Cross ops l1 l2) : Cross ops l2 l1 := by
  obtain ⟨t1, h1, t2, h2, hne1, hne2, t, ho1, ho2, hle1, hle2⟩ := h
  exact ⟨t2, h2, t1, h1, hne2, hne1, t, ho2, ho1, hle2, hle1⟩

/-- Crossing does not depend on the order of the chains. -/
theorem cross_comm : Cross ops l1 l2 ↔ Cross ops l2 l1 := ⟨.symm, .symm⟩

/-- What crosses a part of a chain crosses the chain. -/
theorem Cross.mono (h : Cross ops l l2) (hsub : l ⊆ l1) : Cross ops l1 l2 := by
  obtain ⟨t1, h1, t2, h2, hne1, hne2, t, ho1, hrest⟩ := h
  exact ⟨t1, hsub h1, t2, h2, hne1, hne2, t, ho1.mono hsub, hrest⟩

theorem Complete.symm (h : Complete ops l1 l2 common) : Complete ops l2 l1 common := by
  rw [Complete, cross_comm]
  exact Iff.trans ⟨fun hall t h1 h2 => hall t h2 h1, fun hall t h2 h1 => hall t h1 h2⟩ h

/-- The empty chain has nothing in common with another one. -/
theorem complete_nil_left : Complete ops [] l2 common := by
  refine iff_of_true (fun t ht => absurd ht not_occurs_nil) ?_
  rintro ⟨t1, ht1, -⟩
  exact not_mem_nil ht1

section Order

variable (hord : ops.Ordered)
include hord

/-- A member of a chain occurs in it. -/
theorem occurs_of_mem (h : t ∈ l) : Occurs ops l t :=
  ⟨t, h, hord.isSameType_iff.mpr ⟨hord.refl t, hord.refl t⟩⟩

/-- A type above a whole chain is not the same as one that occurs in it. -/
theorem not_same_of_occurs (hlt : ∀ s ∈ l, ops.IsStrictSubtypeOf s t1) (ho : Occurs ops l t) :
    ¬ops.isSameType t1 t := by
  obtain ⟨s, hs, hsame⟩ := ho
  exact fun h => (hlt s hs).2 (hord.same_trans hsame (hord.same_symm h))

section Chains

variable (h1 : Descends ops (t1 :: l1)) (h2 : Descends ops (t2 :: l2))

/-- Whatever occurs in a descending chain is below its first type. -/
theorem le_head (h1 : Descends ops (t1 :: l1)) (ho : Occurs ops (t1 :: l1) t) :
    ops.isSubtypeOf t t1 := by
  obtain ⟨s, hs, hsame⟩ := ho
  refine hord.trans (hord.isSameType_iff.mp hsame).2 ?_
  rcases mem_cons.mp hs with rfl | hs
  · exact hord.refl s
  · exact ((pairwise_cons.mp h1).1 s hs).1

/-- A type above the first of a descending chain is above all of it. -/
theorem strict_of_head (h2 : Descends ops (t2 :: l2)) (hlt : ops.IsStrictSubtypeOf t2 t1) :
    ∀ s ∈ t2 :: l2, ops.IsStrictSubtypeOf s t1 := by
  intro s hs
  rcases mem_cons.mp hs with rfl | hs
  · exact hlt
  have hle := ((pairwise_cons.mp h2).1 s hs).1
  refine ⟨hord.trans hle hlt.1, fun hsame => hlt.2 (hord.isSameType_iff.mpr ⟨hlt.1, ?_⟩)⟩
  exact hord.trans (hord.isSameType_iff.mp hsame).2 hle

/-- A first type that is above the whole other chain does not add a crossing. -/
theorem cross_cons (h1 : Descends ops (t1 :: l1)) (hle : ∀ s ∈ l2, ops.isSubtypeOf s t1) :
    Cross ops (t1 :: l1) l2 ↔ Cross ops l1 l2 := by
  refine ⟨?_, fun hcross => hcross.mono (subset_cons_self _ _)⟩
  rintro ⟨u1, hu1, u2, hu2, hne1, hne2, t, ho1, ho2, hle1, hle2⟩
  rcases mem_cons.mp hu1 with rfl | hu1
  · exact absurd (hle u2 hu2) hne2
  refine ⟨u1, hu1, u2, hu2, hne1, hne2, t, ?_, ho2, hle1, hle2⟩
  refine (occurs_cons.mp ho1).resolve_left fun hsame => ?_
  obtain ⟨hlt, hne⟩ := (pairwise_cons.mp h1).1 u1 hu1
  exact hne (hord.isSameType_iff.mpr ⟨hlt, hord.trans (hord.isSameType_iff.mp hsame).1 hle1⟩)

/-- Passing over a type above the whole other chain loses no common type. -/
theorem Complete.skip (h : Complete ops l1 l2 common) (h1 : Descends ops (t1 :: l1))
    (hlt : ∀ s ∈ l2, ops.IsStrictSubtypeOf s t1) : Complete ops (t1 :: l1) l2 common := by
  rw [Complete, cross_cons hord h1 fun s hs => (hlt s hs).1]
  refine Iff.trans
    ⟨fun hall t ho1 => hall t (occurs_cons.mpr (.inr ho1)), fun hall t ho1 ho2 => ?_⟩ h
  exact hall t ((occurs_cons.mp ho1).resolve_left (not_same_of_occurs hord hlt ho2)) ho2

include h1 h2

/-- Two equal first types are one common type. -/
theorem Complete.same (h : Complete ops l1 l2 common) (hsame : ops.isSameType t1 t2) :
    Complete ops (t1 :: l1) (t2 :: l2) (t1 :: common) := by
  obtain ⟨hle, hge⟩ := hord.isSameType_iff.mp hsame
  have hcross : Cross ops (t1 :: l1) (t2 :: l2) ↔ Cross ops l1 l2 := by
    rw [cross_cons hord h1 fun s hs => hord.trans (le_head hord h2 (occurs_of_mem hord hs)) hge,
      cross_comm, cross_cons hord h2 fun s hs => hord.trans ((pairwise_cons.mp h1).1 s hs).1 hle,
      cross_comm]
  rw [Complete, hcross]
  refine Iff.trans ⟨fun hall t ho1 ho2 => ?_, fun hall t ho1 ho2 => ?_⟩ h
  · have hcommon := hall t (occurs_cons.mpr (.inr ho1)) (occurs_cons.mpr (.inr ho2))
    exact (occurs_cons.mp hcommon).resolve_left
      (not_same_of_occurs hord (pairwise_cons.mp h1).1 ho1)
  · rw [occurs_cons] at ho1 ho2 ⊢
    rcases ho1 with ho1 | ho1
    · exact .inl ho1
    exact ho2.imp (hord.same_trans hsame) (hall t ho1)

/-- Where the first types are unrelated, the chains have no type in common unless they cross. -/
theorem complete_stop (hne1 : ¬ops.isSubtypeOf t1 t2) (hne2 : ¬ops.isSubtypeOf t2 t1) :
    Complete ops (t1 :: l1) (t2 :: l2) [] := by
  constructor
  · rintro hall ⟨_, -, _, -, -, -, t, ho1, ho2, -⟩
    exact not_occurs_nil (hall t ho1 ho2)
  · exact fun hcross t ho1 ho2 => absurd ⟨t1, mem_cons_self, t2, mem_cons_self, hne1, hne2, t, ho1,
      ho2, le_head hord h1 ho1, le_head hord h2 ho2⟩ hcross

end Chains

/-! ## The loop -/

/-- **What the loop does**: it finds types of both chains, all of them unless the chains cross.  A
chain that is used up without skipping a type has been found as a whole. -/
structure Joined (ops : TypeOperations V T) (result : Option (List T)) (skipped1 skipped2 : Bool)
    (l1 l2 : List T) (st : JoinState T) (common : List T) : Prop where
  sublist : common.Sublist l1
  occurs : ∀ t, Occurs ops common t → Occurs ops l2 t
  complete : Complete ops l1 l2 common
  result_eq : st.result.getD [] = result.getD [] ++ common
  first : st.skipped1 = false → skipped1 = false ∧ (st.rest1 = [] → common = l1)
  second : st.skipped2 = false → skipped2 = false ∧
    (st.rest2 = [] → ∀ t, Occurs ops l2 t → Occurs ops common t)

/-- **The loop of the join**, by induction over both chains: it collects common types, and misses
one only if the chains cross. -/
theorem joinLoop_spec (h1 : Descends ops l1) (h2 : Descends ops l2) (result : Option (List T))
    (skipped1 skipped2 : Bool) : ∃ common, Joined ops result skipped1 skipped2 l1 l2
      (joinLoop ops result skipped1 skipped2 l1 l2) common := by
  fun_induction joinLoop ops result skipped1 skipped2 l1 l2 with
  | case1 result skipped1 skipped2 t1 l1 t2 l2 hsame ih =>
    obtain ⟨common, h⟩ := ih (pairwise_cons.mp h1).2 (pairwise_cons.mp h2).2
    have hsame' := hord.same_symm hsame
    refine ⟨t1 :: common, h.sublist.cons_cons t1, fun t ht => ?_, h.complete.same hord h1 h2 hsame,
      by simp [h.result_eq], fun hs => ?_, fun hs => ?_⟩
    · exact occurs_cons.mpr ((occurs_cons.mp ht).imp (hord.same_trans hsame') (h.occurs t))
    · exact ⟨(h.first hs).1, fun hr => by rw [(h.first hs).2 hr]⟩
    · refine ⟨(h.second hs).1, fun hr t ht => occurs_cons.mpr ?_⟩
      exact (occurs_cons.mp ht).imp (hord.same_trans hsame) ((h.second hs).2 hr t)
  -- The greater of two related types is not in the other chain and is skipped.
  | case2 result skipped1 skipped2 t1 l1 t2 l2 hsame hle ih =>
    obtain ⟨common, h⟩ := ih (pairwise_cons.mp h1).2 h2
    have hlt := strict_of_head hord h2 ⟨hle, fun h => hsame (hord.same_symm h)⟩
    exact ⟨common, h.sublist.cons t1, h.occurs, h.complete.skip hord h1 hlt, h.result_eq,
      fun hs => absurd (h.first hs).1 (by simp), h.second⟩
  | case3 result skipped1 skipped2 t1 l1 t2 l2 hsame _ hle ih =>
    obtain ⟨common, h⟩ := ih h1 (pairwise_cons.mp h2).2
    have hlt := strict_of_head hord h1 ⟨hle, hsame⟩
    exact ⟨common, h.sublist, fun t ht => occurs_cons.mpr (.inr (h.occurs t ht)),
      (h.complete.symm.skip hord h2 hlt).symm, h.result_eq, h.first,
      fun hs => absurd (h.second hs).1 (by simp)⟩
  -- Two unrelated types: the loop stops, which is right unless the chains cross.
  | case4 result skipped1 skipped2 t1 l1 t2 l2 hsame hne2 hne1 =>
    exact ⟨[], nil_sublist _, fun t ht => absurd ht not_occurs_nil,
      complete_stop hord h1 h2 hne1 hne2, by simp, by simp, by simp⟩
  | case5 result skipped1 skipped2 l1 l2 hend =>
    have hcomplete : Complete ops l1 l2 [] := by
      rcases l1 with _ | ⟨t1, l1⟩
      · exact complete_nil_left
      rcases l2 with _ | ⟨t2, l2⟩
      · exact complete_nil_left.symm
      · exact (hend t1 l1 t2 l2 rfl rfl).elim
    refine ⟨[], nil_sublist _, fun t ht => absurd ht not_occurs_nil, hcomplete, by simp,
      fun hs => ⟨hs, fun hr => hr.symm⟩, fun hs => ⟨hs, ?_⟩⟩
    rintro rfl t ht
    exact ht

/-! ## Joins -/

variable (h1 : IsPromotion ops (fun _ => True) p1) (h2 : IsPromotion ops (fun _ => True) p2)
include h1 h2

/-- **What a join returns**: types of one of the chains that occur in both, all of them unless the
chains cross. -/
theorem joinPromotedTypes_spec :
    ((joinPromotedTypes ops p1 p2).getD [] ⊆ p1.getD [] ∨
      (joinPromotedTypes ops p1 p2).getD [] ⊆ p2.getD []) ∧
    (∀ t, Occurs ops ((joinPromotedTypes ops p1 p2).getD []) t →
      Occurs ops (p1.getD []) t ∧ Occurs ops (p2.getD []) t) ∧
    Complete ops (p1.getD []) (p2.getD []) ((joinPromotedTypes ops p1 p2).getD []) := by
  match p1, p2 with
  | none, p2 => exact ⟨.inl (nil_subset _), fun _ ht => absurd ht not_occurs_nil, complete_nil_left⟩
  | some l1, none =>
    exact ⟨.inr (nil_subset _), fun _ ht => absurd ht not_occurs_nil, complete_nil_left.symm⟩
  | some l1, some l2 =>
    obtain ⟨common, h⟩ := joinLoop_spec hord (h1 l1 rfl).2.1 (h2 l2 rfl).2.1 none false false
    have hboth : ∀ t, Occurs ops common t → Occurs ops l1 t ∧ Occurs ops l2 t :=
      fun t ht => ⟨ht.mono h.sublist.subset, h.occurs t ht⟩
    rw [joinPromotedTypes]
    split
    next hfirst =>
      rw [Bool.and_eq_true, List.isEmpty_iff, Bool.not_eq_true'] at hfirst
      obtain rfl := (h.first hfirst.2).2 hfirst.1
      exact ⟨.inl (Subset.refl _), hboth, h.complete⟩
    split
    next hsecond =>
      rw [Bool.and_eq_true, List.isEmpty_iff, Bool.not_eq_true'] at hsecond
      have hall := (h.second hsecond.2).2 hsecond.1
      exact ⟨.inr (Subset.refl _), fun t ht => hboth t (hall t ht),
        Iff.trans ⟨fun _ t _ ho2 => hall t ho2, fun _ t _ ho2 => ho2⟩ h.complete⟩
    next =>
      rw [h.result_eq]
      exact ⟨.inl h.sublist.subset, hboth, h.complete⟩

/-- The join is the intersection of the chains exactly if they do not cross. -/
theorem isIntersection_join_iff : IsIntersection ops p1 p2 (joinPromotedTypes ops p1 p2) ↔
    ¬Cross ops (p1.getD []) (p2.getD []) := by
  obtain ⟨-, hboth, hcomplete⟩ := joinPromotedTypes_spec hord h1 h2
  refine Iff.trans ⟨fun h t ho1 ho2 => (h.occurs_iff t).mpr ⟨ho1, ho2⟩, fun hall => ?_⟩ hcomplete
  exact ⟨h1.join h2, fun t => ⟨hboth t, fun ho => hall t ho.1 ho.2⟩⟩

/-- A chain that crosses neither of two others does not cross their join. -/
theorem not_cross_join (h13 : ¬Cross ops (p1.getD []) l3) (h23 : ¬Cross ops (p2.getD []) l3) :
    ¬Cross ops ((joinPromotedTypes ops p1 p2).getD []) l3 := fun hcross =>
  (joinPromotedTypes_spec hord h1 h2).1.elim (fun hsub => h13 (hcross.mono hsub))
    fun hsub => h23 (hcross.mono hsub)

/-- **Joins of promotion chains**: a join is the intersection of the two chains if and only if they
do not cross.  Joining is commutative for chains that do not, and associative for three chains of
which no two cross, as the order of the types in a chain is that of subtyping. -/
theorem joinPromotedTypes_iff (h3 : IsPromotion ops (fun _ => True) p3) :
    (IsIntersection ops p1 p2 (joinPromotedTypes ops p1 p2) ↔
      ¬Cross ops (p1.getD []) (p2.getD [])) ∧
    (¬Cross ops (p1.getD []) (p2.getD []) → ∀ t,
      Occurs ops ((joinPromotedTypes ops p1 p2).getD []) t ↔
        Occurs ops ((joinPromotedTypes ops p2 p1).getD []) t) ∧
    (¬Cross ops (p1.getD []) (p2.getD []) → ¬Cross ops (p1.getD []) (p3.getD []) →
      ¬Cross ops (p2.getD []) (p3.getD []) → ∀ t,
      Occurs ops ((joinPromotedTypes ops (joinPromotedTypes ops p1 p2) p3).getD []) t ↔
        Occurs ops ((joinPromotedTypes ops p1 (joinPromotedTypes ops p2 p3)).getD []) t) := by
  refine ⟨isIntersection_join_iff hord h1 h2, fun h12 t => ?_, fun h12 h13 h23 t => ?_⟩
  · have hjoin := (isIntersection_join_iff hord h1 h2).mpr h12
    have hjoin' := (isIntersection_join_iff hord h2 h1).mpr (mt Cross.symm h12)
    rw [hjoin.occurs_iff, hjoin'.occurs_iff, and_comm]
  · have hjoin12 := (isIntersection_join_iff hord h1 h2).mpr h12
    have hjoin23 := (isIntersection_join_iff hord h2 h3).mpr h23
    have hleft := (isIntersection_join_iff hord hjoin12.isPromotion h3).mpr
      (not_cross_join hord h1 h2 h13 h23)
    have hright := (isIntersection_join_iff hord h1 hjoin23.isPromotion).mpr
      (mt Cross.symm (not_cross_join hord h2 h3 (mt Cross.symm h12) (mt Cross.symm h13)))
    rw [hleft.occurs_iff, hright.occurs_iff, hjoin12.occurs_iff, hjoin23.occurs_iff, and_assoc]

end Order

/-! ## Chains that meet again -/

/-- Two unrelated classes, and one that is a subtype of both. -/
inductive DiamondType where
  | left
  | right
  | bottom
deriving DecidableEq

/-- The operations on them. -/
def diamondOperations : TypeOperations Unit DiamondType where
  factor from_ _ := from_
  isNever _ := false
  isSameType s t := s = t
  isSubtypeOf s t := s = t || s = .bottom
  promoteToNonNull t := t
  tryPromoteToType to_ _ := some to_
  variableType _ := .left

/-- The four types of the example are a partial order. -/
theorem diamondOperations_ordered : diamondOperations.Ordered where
  refl t := by cases t <;> decide
  trans {s t u} := by cases s <;> cases t <;> cases u <;> decide
  isSameType_iff {s t} := by cases s <;> cases t <;> decide

/-- Each type above the bottom starts a chain of two types. -/
theorem isPromotion_bottom {t : DiamondType} (ht : t ≠ .bottom) :
    IsPromotion diamondOperations (fun _ => True) (some [t, .bottom]) := by
  rintro _ ⟨⟩
  simp [TypeOperations.IsStrictSubtypeOf, diamondOperations, ht.symm]

/-- A chain of two types is the intersection of itself with itself. -/
theorem joinPromotedTypes_iff_self : IsIntersection diamondOperations (some [.left, .bottom])
    (some [.left, .bottom]) (some [.left, .bottom]) := by
  have hleft : IsPromotion diamondOperations (fun _ => True) (some [.left, .bottom]) :=
    isPromotion_bottom (by decide)
  have heq : joinPromotedTypes diamondOperations (some [.left, .bottom]) (some [.left, .bottom]) =
      some [.left, .bottom] := by
    simp [joinPromotedTypes, joinLoop, diamondOperations]
  have hjoin := (joinPromotedTypes_iff diamondOperations_ordered hleft hleft hleft).1.mpr
  rw [heq] at hjoin
  exact hjoin (by simp [Cross, diamondOperations])

/-- **A common type is lost**: the chains `left, bottom` and `right, bottom` are joined to null. -/
theorem joinPromotedTypes_loses_type :
    diamondOperations.Ordered ∧
      IsPromotion diamondOperations (fun _ => True) (some [.left, .bottom]) ∧
      IsPromotion diamondOperations (fun _ => True) (some [.right, .bottom]) ∧
      joinPromotedTypes diamondOperations (some [.left, .bottom]) (some [.right, .bottom]) = none ∧
      Occurs diamondOperations [.left, .bottom] .bottom ∧
      Occurs diamondOperations [.right, .bottom] .bottom := by
  refine ⟨diamondOperations_ordered, isPromotion_bottom (by decide), isPromotion_bottom (by decide),
    ?_, ⟨.bottom, by simp, rfl⟩, ⟨.bottom, by simp, rfl⟩⟩
  simp [joinPromotedTypes, joinLoop, diamondOperations]

end DartVm.FlowAnalysis
