import Mathlib.Data.List.Sort

/-! # Sorting routines with an integer comparator

The contract of `qsort`: the result is a permutation, sorted when the comparator is consistent.  How
ties are broken is not specified, so a program is correct only if it is for every `Sorter`.

* `Sorter`: a sorting routine with its contract.
* `preferring`: one that puts the late ones of equal elements last. -/

namespace DartVm

variable {α : Type*}

/-- A comparator that orders: total and transitive. -/
structure IsConsistent (compare : α → α → ℤ) : Prop where
  total : ∀ a b, compare a b ≤ 0 ∨ compare b a ≤ 0
  trans : ∀ a b c, compare a b ≤ 0 → compare b c ≤ 0 → compare a c ≤ 0

/-- **Sorting routine.** -/
structure Sorter (α : Type*) where
  /-- The list in order of the comparator. -/
  sort : (α → α → ℤ) → List α → List α
  /-- Nothing is lost, added or changed, whatever the comparator is. -/
  perm : ∀ compare l, (sort compare l).Perm l
  /-- With a consistent comparator the result is in order. -/
  sorted : ∀ compare, IsConsistent compare → ∀ l,
    (sort compare l).Pairwise fun a b => compare a b ≤ 0

namespace Sorter

/-- Comparing integer keys is consistent. -/
theorem isConsistent_key (key : α → ℤ) : IsConsistent fun a b => key a - key b where
  total a b := by omega
  trans a b c h1 h2 := by omega

section Preferring

variable (late : α → Bool) (compare : α → α → ℤ)

/-- The order of the comparator, with the elements that have `late` behind those they tie with. -/
def lateLast (a b : α) : Bool := compare a b ≤ 0 && (decide (0 < compare b a) || !late a || late b)

variable {late compare}

/-- The order that puts the late ones of equal elements last. -/
theorem lateLast_iff {a b : α} : lateLast late compare a b ↔
    compare a b ≤ 0 ∧ (compare b a ≤ 0 → late a → late b) := by
  simp only [lateLast, Bool.and_eq_true, Bool.or_eq_true, decide_eq_true_eq, Bool.not_eq_true',
    ← Int.not_le]
  cases late a <;> cases late b <;> simp

/-- This order is transitive. -/
theorem lateLast_trans (hc : IsConsistent compare) (a b c : α) (h1 : lateLast late compare a b)
    (h2 : lateLast late compare b c) : lateLast late compare a c := by
  rw [lateLast_iff] at h1 h2 ⊢
  -- If `a` and `c` tie, then so do both with `b`.
  exact ⟨hc.trans a b c h1.1 h2.1, fun hca hla =>
    h2.2 (hc.trans c a b hca h1.1) (h1.2 (hc.trans b c a h2.1 hca) hla)⟩

/-- This order is total. -/
theorem lateLast_total (hc : IsConsistent compare) (a b : α) :
    lateLast late compare a b || lateLast late compare b a := by
  rw [Bool.or_eq_true, lateLast_iff, lateLast_iff]
  have := hc.total a b
  cases late a <;> cases late b <;> simp <;> omega

variable (late) in
/-- The sorting routine that puts the elements with `late` behind all others they tie with. -/
def preferring : Sorter α where
  sort compare l := l.mergeSort (lateLast late compare)
  perm _ _ := List.mergeSort_perm _ _
  sorted _ hc l := (List.pairwise_mergeSort (lateLast_trans hc) (lateLast_total hc) l).imp
    fun h => (lateLast_iff.mp h).1

/-- Sorting with it leaves no early element after an equal late one. -/
theorem pairwise_preferring (hc : IsConsistent compare) (l : List α) :
    ((preferring late).sort compare l).Pairwise fun a b => compare b a ≤ 0 → late a → late b :=
  (List.pairwise_mergeSort (lateLast_trans hc) (lateLast_total hc) l).imp
    fun h => (lateLast_iff.mp h).2

end Preferring

end Sorter

end DartVm
