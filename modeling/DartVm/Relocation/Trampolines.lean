import Mathlib.Algebra.Order.Group.Int
import Mathlib.Data.List.Induction
import Mathlib.Data.List.TakeWhile

/-! # Looking for a trampoline

`CodeRelocator::FindTrampolineFor` of `compiler/relocation.cc`, on the circular list of
`intrusive_dlist.h`.  `Represents` says which entries are in a list; the search goes through them
from the last one on (`findFrom_eq`), and never comes to the first one unless it is the only one.

* `Represents`: the entries of a circular list.
* `findFrom_eq`: what a search from the last entry on finds.
* `findTrampolineFor_iff`: when the search is right. -/

namespace DartVm.Relocation

open List

/-! ## Doubly linked lists -/

/-- `IntrusiveDList`: the links of the entries, where `none` is `head_`. -/
structure DList (ι : Type) where
  next : Option ι → Option ι
  prev : Option ι → Option ι

variable {ι : Type} {l : List ι}

namespace DList

/-- A list whose head is linked to itself. -/
def empty : DList ι := ⟨fun _ => none, fun _ => none⟩

/-- `IntrusiveDList::Append`. -/
def append [DecidableEq ι] (d : DList ι) (a : ι) : DList ι :=
  ⟨Function.update (Function.update d.next (some a) none) (d.prev none) (some a),
    Function.update (Function.update d.prev (some a) (d.prev none)) none (some a)⟩

/-- The list of entries that were appended one after the other. -/
def ofList [DecidableEq ι] (l : List ι) : DList ι := l.foldl append empty

end DList

/-- Going back from the node, the entries come in this order, and then the head. -/
def Back (prev : Option ι → Option ι) : Option ι → List ι → Prop
  | node, [] => prev node = none
  | node, a :: l => prev node = some a ∧ Back prev (some a) l

/-- The entries of a list. -/
structure Represents (d : DList ι) (l : List ι) : Prop where
  first : d.next none = l.head?
  back : Back d.prev none l.reverse

theorem Back.congr {prev prev' : Option ι → Option ι} {node node' : Option ι}
    (h : Back prev node l) (hnode : prev' node' = prev node)
    (heq : ∀ a ∈ l, prev' (some a) = prev (some a)) : Back prev' node' l := by
  induction l generalizing node node' with
  | nil => exact hnode.trans h
  | cons a l ih =>
    rw [forall_mem_cons] at heq
    exact ⟨hnode.trans h.1, ih h.2 heq.1 heq.2⟩

/-- Appending an element extends the represented list. -/
theorem Represents.append [DecidableEq ι] {d : DList ι} {a : ι} (h : Represents d l)
    (ha : a ∉ l) : Represents (d.append a) (l ++ [a]) := by
  constructor
  · have hback := h.back
    cases l using List.reverseRec with
    | nil =>
      rw [reverse_nil, Back] at hback
      simp [DList.append, hback]
    | append_singleton l b =>
      rw [reverse_append, reverse_singleton, singleton_append, Back] at hback
      simp [DList.append, hback.1, h.first]
  · rw [reverse_append]
    refine ⟨by simp [DList.append], h.back.congr (by simp [DList.append]) fun b hb => ?_⟩
    have hne : b ≠ a := fun heq => ha (heq ▸ mem_reverse.mp hb)
    simp [DList.append, hne]

/-- A list built by appending represents its elements. -/
theorem represents_ofList [DecidableEq ι] (h : l.Nodup) : Represents (DList.ofList l) l := by
  induction l using List.reverseRec with
  | nil => exact ⟨rfl, rfl⟩
  | append_singleton l a ih =>
    rw [nodup_append] at h
    rw [DList.ofList, foldl_append]
    exact (ih h.1).append fun ha => h.2.2 a ha a (mem_singleton_self a) rfl

/-! ## Model -/

/-- `UnresolvedCall`: where the call is and where it goes to. -/
structure UnresolvedCall where
  textOffset : ℤ
  offsetIntoTarget : ℤ
  isTailCall : Bool

/-- `UnresolvedTrampoline`: where the trampoline is and where it goes to. -/
structure UnresolvedTrampoline where
  offsetIntoTarget : ℤ
  textOffset : ℤ

/-- `TailCallDistanceLimits` and `CallDistanceLimits`, which depend on the target. -/
structure DistanceLimits where
  lower : ℤ
  upper : ℤ

/-- `IsTargetInRangeFor`, with the limits of tail calls and of other ones. -/
def isTargetInRangeFor (limits : Bool → DistanceLimits) (call : UnresolvedCall)
    (targetTextOffset : ℤ) : Bool :=
  let forwardDistance := targetTextOffset - call.textOffset
  (limits call.isTailCall).lower < forwardDistance ∧
    forwardDistance < (limits call.isTailCall).upper

/-- The loop of `FindTrampolineFor` from a node, within `fuel` iterations, with the tests `inRange`
and `isFor`. The head is no trampoline: reading it as one is `none`. -/
def findFrom [DecidableEq ι] (inRange isFor : ι → Bool) (trampolines : DList ι) :
    ℕ → Option ι → Option (Option ι)
  | 0, _ => none
  | _ + 1, none => none
  | fuel + 1, some a =>
    if ¬inRange a then some none
    else if isFor a then some (some a)
    else
      let it := trampolines.prev (some a)
      if it ≠ trampolines.next none then findFrom inRange isFor trampolines fuel it else some none

section Model

variable (limits : Bool → DistanceLimits) (trampolineAt : ι → UnresolvedTrampoline)
  (call : UnresolvedCall)

/-- The trampoline is in range of the call. -/
def inRange (a : ι) : Bool := isTargetInRangeFor limits call (trampolineAt a).textOffset

/-- The trampoline goes where the call goes. -/
def isFor (a : ι) : Bool := (trampolineAt a).offsetIntoTarget == call.offsetIntoTarget

/-- `FindTrampolineFor`, where the destination has a list of trampolines. -/
def findTrampolineFor [DecidableEq ι] (trampolines : DList ι) (fuel : ℕ) : Option (Option ι) :=
  findFrom (inRange limits trampolineAt call) (isFor trampolineAt call) trampolines fuel
    (trampolines.prev none)

end Model

/-! ## Search -/

/-- The maximal tail of a list that is in range, the last trampoline first. -/
def tailInRange (p : ι → Bool) (l : List ι) : List ι := l.reverse.takeWhile p

section Search

variable [DecidableEq ι] {p q : ι → Bool} {d : DList ι} {a first : ι} {l rest : List ι} {fuel : ℕ}

/-- From any entry but the first one, the search returns the first trampoline in range that goes
where the call goes, leaving the first entry out. -/
theorem findFrom_eq (hfirst : d.next none = some first)
    (hback : Back d.prev (some a) (l ++ [first])) (hl : first ∉ l) (hfuel : l.length < fuel) :
    findFrom p q d fuel (some a) = some (((a :: l).takeWhile p).find? q) := by
  induction l generalizing a fuel with
  | nil =>
    obtain ⟨fuel, rfl⟩ := Nat.exists_eq_succ_of_ne_zero (Nat.ne_of_gt hfuel)
    have hprev : d.prev (some a) = some first := hback.1
    rw [findFrom, takeWhile_cons]
    cases p a
    · rfl
    · cases hq : q a <;> simp [hprev, hfirst, hq]
  | cons b l ih =>
    obtain ⟨fuel, rfl⟩ := Nat.exists_eq_succ_of_ne_zero (Nat.ne_of_gt (Nat.zero_lt_of_lt hfuel))
    obtain ⟨hprev, hback⟩ := hback
    rw [mem_cons, not_or] at hl
    rw [findFrom, takeWhile_cons]
    cases p a
    · rfl
    · cases hq : q a
      · have hne : some b ≠ some first := fun heq => hl.1 (Option.some.inj heq).symm
        simp [hprev, hfirst, hq, hne, ih hback hl.2 (Nat.lt_of_succ_lt_succ hfuel)]
      · simp [hq]

/-- A list of one trampoline: the head is read unless the trampoline is out of range or the right
one. -/
theorem findFrom_singleton (h : Represents d [first]) (hfuel : 1 < fuel) :
    findFrom p q d fuel (d.prev none) =
      if ¬p first then some none else if q first then some (some first) else none := by
  obtain ⟨fuel, rfl⟩ := Nat.exists_eq_add_of_le' hfuel
  have hlast : d.prev none = some first := h.back.1
  have hhead : d.prev (some first) = none := h.back.2
  have hbegin : d.next none = some first := h.first
  rw [hlast, findFrom, hhead, hbegin]
  simp [findFrom]

/-- Searching backwards visits the elements in range that are not the first. -/
theorem findFrom_cons (h : Represents d (first :: rest)) (hrest : rest ≠ []) (hnot : first ∉ rest)
    (hfuel : rest.length < fuel) :
    findFrom p q d fuel (d.prev none) = some ((tailInRange p rest).find? q) := by
  have hback := h.back
  rw [reverse_cons] at hback
  rw [tailInRange]
  cases hreverse : rest.reverse with
  | nil => exact absurd (reverse_eq_nil_iff.mp hreverse) hrest
  | cons last l =>
    rw [hreverse] at hback
    have hmem : first ∉ l := fun hl => hnot (mem_reverse.mp (hreverse ▸ mem_cons_of_mem _ hl))
    have hlength : rest.length = l.length + 1 := by
      rw [← length_reverse, hreverse, length_cons]
    rw [show d.prev none = some last from hback.1]
    exact findFrom_eq h.first hback.2 hmem (by omega)

omit [DecidableEq ι] in
/-- The last elements in range, by the first element of the list. -/
theorem mem_tailInRange_cons : a ∈ tailInRange p (first :: rest) ↔
    a ∈ tailInRange p rest ∨ a = first ∧ p first ∧ ∀ b ∈ rest, p b := by
  rw [tailInRange, tailInRange, reverse_cons]
  by_cases hall : ∀ b ∈ rest, p b
  · have htake : ∀ b ∈ rest.reverse, p b := fun b hb => hall b (mem_reverse.mp hb)
    rw [takeWhile_append_of_pos htake, takeWhile_eq_self_iff.mpr htake, mem_append,
      takeWhile_cons, and_iff_left hall]
    cases p first <;> simp
  · have hshort : (rest.reverse.takeWhile p).length ≠ rest.reverse.length := by
      intro hlength
      have heq := (takeWhile_sublist p).eq_of_length hlength
      exact hall fun b hb => takeWhile_eq_self_iff.mp heq b (mem_reverse.mpr hb)
    rw [takeWhile_append, if_neg hshort, or_iff_left fun h => hall h.2.2]

/-- The search reads only trampolines, ends, and returns one for the call if and only if the maximal
tail in range has one. -/
def FindsInRange (p q : ι → Bool) (l : List ι) (found : Option (Option ι)) : Prop :=
  ∃ result, found = some result ∧ (∀ a, result = some a → a ∈ tailInRange p l ∧ q a) ∧
    (result.isSome ↔ ∃ a ∈ tailInRange p l, q a)

omit [DecidableEq ι] in
/-- Leaving the first trampoline out does no harm unless it is the only one to be found. -/
theorem findsInRange_cons_iff :
    FindsInRange p q (first :: rest) (some ((tailInRange p rest).find? q)) ↔
      ((∀ a ∈ rest, p a ∧ ¬q a) → p first → ¬q first) := by
  constructor
  · rintro ⟨_, ⟨⟩, -, hiff⟩ hothers hp hq
    have hmem : first ∈ tailInRange p (first :: rest) :=
      mem_tailInRange_cons.mpr (.inr ⟨rfl, hp, fun a ha => (hothers a ha).1⟩)
    obtain ⟨a, ha, hqa⟩ := find?_isSome.mp (hiff.mpr ⟨first, hmem, hq⟩)
    exact (hothers a (mem_reverse.mp ((takeWhile_sublist p).subset ha))).2 hqa
  · intro hcond
    refine ⟨_, rfl, fun a ha => ⟨mem_tailInRange_cons.mpr (.inl (mem_of_find?_eq_some ha)),
      find?_some ha⟩, ?_⟩
    rw [find?_isSome]
    constructor
    · rintro ⟨a, ha, hq⟩
      exact ⟨a, mem_tailInRange_cons.mpr (.inl ha), hq⟩
    rintro ⟨a, ha, hq⟩
    rcases mem_tailInRange_cons.mp ha with ha | ⟨rfl, hp, hall⟩
    · exact ⟨a, ha, hq⟩
    -- Some other trampoline goes there, and all of them are in range.
    by_contra hnone
    push Not at hnone
    rw [tailInRange, takeWhile_eq_self_iff.mpr fun c hc => hall c (mem_reverse.mp hc)] at hnone
    exact hcond (fun b hb => ⟨hall b hb, hnone b (mem_reverse.mpr hb)⟩) hp hq

end Search

/-- **Looking for a trampoline**, in every list by increasing text offset: the search reads only
trampolines, ends, and returns one with the call's offset if and only if the maximal tail in range
has one. This holds unless all trampolines but the first are in range and not for the call, and the
first one is in range and, if it is the only one, not for the call either, or, if there are others,
for it. -/
theorem findTrampolineFor_iff [DecidableEq ι] (limits : Bool → DistanceLimits)
    (trampolineAt : ι → UnresolvedTrampoline) (call : UnresolvedCall) (first : ι) (rest : List ι)
    (hsorted : (first :: rest).Pairwise fun a b =>
      (trampolineAt a).textOffset < (trampolineAt b).textOffset)
    (fuel : ℕ) (hfuel : (first :: rest).length < fuel) :
    FindsInRange (inRange limits trampolineAt call) (isFor trampolineAt call) (first :: rest)
        (findTrampolineFor limits trampolineAt call (DList.ofList (first :: rest)) fuel) ↔
      ((∀ a ∈ rest, inRange limits trampolineAt call a ∧ ¬isFor trampolineAt call a) →
        inRange limits trampolineAt call first → (isFor trampolineAt call first ↔ rest = [])) := by
  have hnodup : (first :: rest).Nodup := hsorted.imp fun hlt heq => by
    rw [heq] at hlt
    exact lt_irrefl _ hlt
  have hlist := represents_ofList hnodup
  rw [findTrampolineFor]
  generalize inRange limits trampolineAt call = p
  generalize isFor trampolineAt call = q
  by_cases hrest : rest = []
  · subst hrest
    rw [findFrom_singleton hlist hfuel, FindsInRange]
    simp only [mem_tailInRange_cons]
    cases p first <;> cases hq : q first <;> simp [tailInRange, hq]
  · rw [findFrom_cons hlist hrest (nodup_cons.mp hnodup).1 (Nat.lt_of_succ_lt hfuel),
      findsInRange_cons_iff]
    simp [hrest]

/-- Limits for the examples. -/
def wideLimits : Bool → DistanceLimits := fun _ => ⟨-100, 100⟩

/-- The trampolines at 8 and 16, for the offsets 0 and 4 into the target. -/
def twoTrampolines (second : Bool) : UnresolvedTrampoline := if second then ⟨4, 16⟩ else ⟨0, 8⟩

/-- The head is read as a trampoline behind the only one, and the first of two is not looked at. -/
theorem findTrampolineFor_wrong :
    findTrampolineFor wideLimits twoTrampolines ⟨0, 4, false⟩ (DList.ofList [false]) 4 = none ∧
      findTrampolineFor wideLimits twoTrampolines ⟨0, 0, false⟩ (DList.ofList [false, true]) 4 =
        some none ∧
      false ∈ tailInRange (inRange wideLimits twoTrampolines ⟨0, 0, false⟩) [false, true] ∧
      isFor twoTrampolines ⟨0, 0, false⟩ false :=
  ⟨by decide, by decide, by decide, by decide⟩

/-- The last of two trampolines is found. -/
theorem findTrampolineFor_last :
    FindsInRange (inRange wideLimits twoTrampolines ⟨0, 4, false⟩)
      (isFor twoTrampolines ⟨0, 4, false⟩)
      [false, true]
      (findTrampolineFor wideLimits twoTrampolines ⟨0, 4, false⟩ (DList.ofList [false, true]) 4) :=
  (findTrampolineFor_iff wideLimits twoTrampolines ⟨0, 4, false⟩ false [true] (by decide) 4
    (by decide)).mpr (by decide)

end DartVm.Relocation
