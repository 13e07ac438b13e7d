import Mathlib.Data.List.Range

/-! # Writing one element of a list

What `List.set` and `List.modify` do to the list as a whole, for arrays that are modelled as
lists.

* `countP_set`, `flatMap_set_perm`: counts and concatenations after a write. -/

namespace DartVm.ListUpdate

open List

variable {α β : Type*} {l : List α} {i : ℕ} {a : α}

variable (h : l[i]? = some a)
include h

/-- A list around one of its elements. -/
theorem exists_split : ∃ pre post, l = pre ++ a :: post ∧ pre.length = i ∧
    ∀ b, l.set i b = pre ++ b :: post := by
  obtain ⟨hi, rfl⟩ := List.getElem?_eq_some_iff.mp h
  refine ⟨l.take i, l.drop (i + 1), ?_, length_take_of_le (Nat.le_of_lt hi), fun b => ?_⟩
  · rw [getElem_cons_drop hi, take_append_drop]
  · rw [set_eq_take_append_cons_drop, if_pos hi]

omit h in
/-- Replacing an element of the second part. -/
theorem set_append_length (pre post : List α) (n : ℕ) (b : α) :
    (pre ++ post).set (pre.length + n) b = pre ++ post.set n b := by
  rw [set_append_right _ _ (Nat.le_add_right _ _), Nat.add_sub_cancel_left]

/-- Modifying an element is replacing it. -/
theorem modify_eq_set (f : α → α) : l.modify i f = l.set i (f a) := by
  rw [modify_eq_set_getElem?, h]
  rfl

/-- Replacing an element by itself. -/
theorem set_eq_self : l.set i a = l := by
  obtain ⟨pre, post, hl, -, hset⟩ := exists_split h
  rw [hset, ← hl]

/-- How a count changes when an element is replaced. -/
theorem countP_set (p : α → Bool) (b : α) :
    (l.set i b).countP p + (p a).toNat = l.countP p + (p b).toNat := by
  obtain ⟨pre, post, rfl, -, hset⟩ := exists_split h
  rw [hset, countP_append, countP_append, countP_cons, countP_cons]
  cases p a <;> cases p b <;> simp <;> omega

/-- How a concatenation changes, up to order, when an element is replaced. -/
theorem flatMap_set_perm (b : α) (f : α → List β) :
    ∃ rest, (l.flatMap f).Perm (f a ++ rest) ∧ ((l.set i b).flatMap f).Perm (f b ++ rest) := by
  obtain ⟨pre, post, rfl, -, hset⟩ := exists_split h
  refine ⟨pre.flatMap f ++ post.flatMap f, ?_, ?_⟩
  · rw [flatMap_append, flatMap_cons]
    exact perm_append_comm_assoc ..
  · rw [hset, flatMap_append, flatMap_cons]
    exact perm_append_comm_assoc ..

end DartVm.ListUpdate
