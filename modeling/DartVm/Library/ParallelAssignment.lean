import Mathlib.Data.List.Basic

/-! # Sequential transfers and parallel assignment

A store maps locations to values.  A `Transfer` copies one location to another or exchanges two; a
list of them runs in order.  `AssignsInParallel` is what it may be asked to achieve: every
destination receives what its source held *before*, and nothing else changes.

* `Transfer.exec`, `Transfer.execAll`: running transfers.
* `AssignsInParallel`: what they are to achieve. -/

namespace DartVm

variable {Loc V : Type*} [DecidableEq Loc]

/-- One store-to-store instruction: a copy or an exact exchange. -/
inductive Transfer (Loc : Type*) where
  | move (dst src : Loc)
  | swap (a b : Loc)
  deriving DecidableEq, Repr

namespace Transfer

/-- The effect of one transfer on a store. -/
def exec : Transfer Loc → (Loc → V) → (Loc → V)
  | .move dst src, store => Function.update store dst (store src)
  | .swap a b, store => Function.update (Function.update store a (store b)) b (store a)

/-- The effect of a sequence of transfers, first one first. -/
def execAll (code : List (Transfer Loc)) (store : Loc → V) : Loc → V :=
  code.foldl (fun st t => t.exec st) store

@[simp] theorem execAll_nil (store : Loc → V) : execAll [] store = store := rfl

@[simp] theorem execAll_append_singleton (code : List (Transfer Loc)) (t : Transfer Loc)
    (store : Loc → V) : execAll (code ++ [t]) store = t.exec (execAll code store) := by
  simp [execAll]

@[simp] theorem exec_move_dst (dst src : Loc) (store : Loc → V) :
    (move dst src).exec store dst = store src := by
  simp [exec]

/-- A move leaves the other locations alone. -/
theorem exec_move_of_ne {dst src l : Loc} (h : l ≠ dst) (store : Loc → V) :
    (move dst src).exec store l = store l := by
  simp [exec, h]

@[simp] theorem exec_swap_right (a b : Loc) (store : Loc → V) :
    (swap a b).exec store b = store a := by
  simp [exec]

/-- The left location of a swap receives the right one's value, also when they coincide. -/
@[simp] theorem exec_swap_left (a b : Loc) (store : Loc → V) :
    (swap a b).exec store a = store b := by
  by_cases h : a = b
  · subst h; simp [exec]
  · simp [exec, h]

/-- A swap leaves the other locations alone. -/
theorem exec_swap_of_ne {a b l : Loc} (ha : l ≠ a) (hb : l ≠ b) (store : Loc → V) :
    (swap a b).exec store l = store l := by
  simp [exec, ha, hb]

end Transfer

/-- **Parallel assignment**: `after` arises from `before` by assigning, for each pair
`(destination, source)`, what the source held in `before`; other locations keep their values. -/
structure AssignsInParallel (pairs : List (Loc × Loc)) (before after : Loc → V) : Prop where
  assigned : ∀ p ∈ pairs, after p.1 = before p.2
  frame : ∀ l, (∀ p ∈ pairs, p.1 ≠ l) → after l = before l

end DartVm
