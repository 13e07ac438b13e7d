import Mathlib.Data.List.Range
import Mathlib.Data.List.Nodup

/-! # Linked lists in an array

Cells of one array are threaded into lists by the indices of their successors:
`Linked cells start l` says that from `start` the cells of `l` follow one another, and `find` walks
along a list.

* `Linked.set`, `Linked.append`: writes that do not disturb a list.
* `Linked.find_eq`: walking along a list. -/

namespace DartVm.LinkedCells

open List

/-- A cell: its item, and the index of the next cell or `none` at the end of the list. -/
structure Cell (P : Type) where
  item : P
  next : Option ℕ
deriving DecidableEq

variable {P : Type}

/-- From `start` on, the cells with the indices and items of `l` follow one another. -/
def Linked (cells : List (Cell P)) : Option ℕ → List (ℕ × P) → Prop
  | start, [] => start = none
  | start, (i, p) :: l => start = some i ∧ ∃ next, cells[i]? = some ⟨p, next⟩ ∧ Linked cells next l

variable {cells cells' : List (Cell P)} {start : Option ℕ} {l l' : List (ℕ × P)} {i : ℕ} {p : P}
  {c : Cell P} {next : Option ℕ} {q : P}

@[simp] theorem linked_nil : Linked cells start [] ↔ start = none := Iff.rfl

section

variable (h : Linked cells start l)
include h

theorem Linked.congr (heq : ∀ x ∈ l, cells'[x.1]? = cells[x.1]?) : Linked cells' start l := by
  induction l generalizing start with
  | nil => exact h
  | cons x l ih =>
    obtain ⟨i, p⟩ := x
    rw [forall_mem_cons] at heq
    obtain ⟨hstart, next, hget, hrest⟩ := h
    exact ⟨hstart, next, heq.1.trans hget, ih hrest heq.2⟩

/-- Writing to another cell keeps a chain. -/
theorem Linked.set (hi : i ∉ l.map Prod.fst) : Linked (cells.set i c) start l := by
  apply h.congr
  intro x hx
  rw [getElem?_set_ne]
  rintro rfl
  exact hi (List.mem_map_of_mem hx)

/-- The cells of a chain exist. -/
theorem Linked.lt_length : ∀ x ∈ l, x.1 < cells.length := by
  induction l generalizing start with
  | nil => simp
  | cons x l ih =>
    obtain ⟨i, p⟩ := x
    obtain ⟨-, next, hget, hrest⟩ := h
    rw [forall_mem_cons]
    exact ⟨(List.getElem?_eq_some_iff.mp hget).1, ih hrest⟩

/-- New cells do not disturb a chain. -/
theorem Linked.append (more : List (Cell P)) : Linked (cells ++ more) start l := by
  apply h.congr
  intro x hx
  rw [getElem?_append_left (h.lt_length x hx)]

end

/-- A cell of a chain holds its item and the link to the rest. -/
theorem Linked.getElem? (h : Linked cells start (l ++ (i, p) :: l')) :
    ∃ next, cells[i]? = some ⟨p, next⟩ ∧ Linked cells next l' := by
  induction l generalizing start with
  | nil => exact h.2
  | cons x l ih => exact ih h.2.choose_spec.2

/-- A cell is replaced, and with it what follows. -/
theorem Linked.replace {r : List (ℕ × P)} (h : Linked cells start (l ++ (i, p) :: l'))
    (hl : i ∉ l.map Prod.fst) (hr : Linked cells c.next r) (hi : i ∉ r.map Prod.fst) :
    Linked (cells.set i c) start (l ++ (i, c.item) :: r) := by
  induction l generalizing start with
  | nil =>
    obtain ⟨hstart, next, hget, -⟩ := h
    exact ⟨hstart, c.next, getElem?_set_self (List.getElem?_eq_some_iff.mp hget).1, hr.set hi⟩
  | cons x l ih =>
    obtain ⟨hstart, next, hget, hrest⟩ := h
    rw [map_cons, mem_cons, not_or] at hl
    exact ⟨hstart, next, by rwa [getElem?_set_ne hl.1], ih hrest hl.2⟩

/-- A cell is taken out of the middle of a list: the one before is linked to the one after. -/
theorem Linked.unlink {j : ℕ}
    (h : Linked cells start (l ++ (j, q) :: (i, p) :: l'))
    (hnodup : ((l ++ (j, q) :: (i, p) :: l').map Prod.fst).Nodup)
    (hget : cells[i]? = some ⟨p, next⟩) :
    Linked (cells.set j ⟨q, next⟩) start (l ++ (j, q) :: l') := by
  obtain ⟨_, -, -, next', hget', hrest⟩ := h.getElem?
  cases hget.symm.trans hget'
  rw [map_append, map_cons, nodup_middle, nodup_cons, mem_append, not_or] at hnodup
  exact h.replace hnodup.1.1 hrest fun hmem => hnodup.1.2 (mem_cons_of_mem _ hmem)

/-- Replacing an item keeps the links. -/
theorem Linked.setItem (h : Linked cells start (l ++ (i, p) :: l'))
    (hnodup : ((l ++ (i, p) :: l').map Prod.fst).Nodup) (hget : cells[i]? = some ⟨p, next⟩) :
    Linked (cells.set i ⟨q, next⟩) start (l ++ (i, q) :: l') := by
  obtain ⟨next', hget', hrest⟩ := h.getElem?
  cases hget.symm.trans hget'
  rw [map_append, map_cons, nodup_middle, nodup_cons, mem_append, not_or] at hnodup
  exact h.replace hnodup.1.1 hrest hnodup.1.2

/-! ## Walking -/

/-- The index of the first cell whose item is wanted, in at most `fuel` steps. -/
def find (cells : List (Cell P)) (wanted : P → Bool) : ℕ → Option ℕ → Option (Option ℕ)
  | _, none => some none
  | 0, some _ => none
  | fuel + 1, some i =>
    match cells[i]? with
    | none => none
    | some c => if wanted c.item then some (some i) else find cells wanted fuel c.next

/-- **Walking along a chain** finds the first cell with a wanted item. -/
theorem Linked.find_eq (h : Linked cells start l) {fuel : ℕ} (hfuel : l.length ≤ fuel)
    (wanted : P → Bool) :
    find cells wanted fuel start = some ((l.find? fun x => wanted x.2).map Prod.fst) := by
  induction l generalizing start fuel with
  | nil =>
    rw [linked_nil.mp h, find]
    rfl
  | cons x l ih =>
    obtain ⟨i, p⟩ := x
    obtain ⟨rfl, next, hget, hrest⟩ := h
    cases fuel with
    | zero => exact absurd hfuel (by simp)
    | succ fuel =>
      rw [length_cons, Nat.succ_le_succ_iff] at hfuel
      rw [find, hget, find?_cons]
      cases hp : wanted p with
      | true => simp [hp]
      | false => simpa [hp] using ih hrest hfuel

end DartVm.LinkedCells
