import DartVm.Library.ListUpdate
import Mathlib.Data.Fintype.Pigeonhole
import Mathlib.Data.Nat.ModEq
import Mathlib.Data.Nat.Prime.Basic
import Mathlib.Tactic.Ring

/-! # Open addressing

Hash tables in one array, where a colliding element goes to a later slot of its probe path and a
deleted one leaves a mark.

* `loop` is `while (true)` with a bound; `elems` are the elements in the table.
* `Probed`: no free slot lies on the path from where an element is searched first to where it is.
  Insertions and deletions keep this, and it makes searches complete (`Probed.exists_before`).
* `linear` and `triangular` are the usual paths; both visit every slot. -/

namespace DartVm.OpenAddressing

open ListUpdate List Nat Option

variable {E σ β : Type*}

/-! ## Loops -/

/-- `while (true)`: the first result of `stop` along the states, within `fuel` iterations. -/
def loop (next : σ → σ) (stop : σ → Option β) : ℕ → σ → Option β
  | 0, _ => none
  | fuel + 1, s =>
    match stop s with
    | some b => some b
    | none => loop next stop fuel (next s)

variable {next : σ → σ} {stop : σ → Option β} {s : σ} {b : β} {fuel j : ℕ}

/-- A probing loop ends at the first state that stops it, if its fuel lasts. -/
theorem loop_eq_some_iff : loop next stop fuel s = some b ↔
    ∃ j < fuel, stop (next^[j] s) = some b ∧ ∀ i < j, stop (next^[i] s) = none := by
  induction fuel generalizing s with
  | zero => simp [loop]
  | succ fuel ih =>
    rw [loop]
    cases hs : stop s with
    | some b' =>
      constructor
      · intro h
        exact ⟨0, succ_pos _, hs.trans h, fun i hi => absurd hi (not_lt_zero i)⟩
      · rintro ⟨_ | j, -, hj, hbefore⟩
        · exact hs.symm.trans hj
        · exact absurd (hs.symm.trans (hbefore 0 (succ_pos j))) (by simp)
    | none =>
      rw [ih]
      constructor
      · rintro ⟨j, hj, hstop, hbefore⟩
        refine ⟨j + 1, by omega, hstop, ?_⟩
        rintro (_ | i) hi
        · exact hs
        · exact hbefore i (by omega)
      · rintro ⟨_ | j, hj, hstop, hbefore⟩
        · exact absurd (hs.symm.trans hstop) (by simp)
        · exact ⟨j, by omega, hstop, fun i hi => hbefore (i + 1) (by omega)⟩

/-- A probing loop that has a state to stop at within its fuel ends. -/
theorem loop_isSome (hj : j < fuel) (h : (stop (next^[j] s)).isSome) :
    ∃ b, loop next stop fuel s = some b := by
  have hexists : ∃ j, (stop (next^[j] s)).isSome := ⟨j, h⟩
  obtain ⟨b, hb⟩ := isSome_iff_exists.mp (Nat.find_spec hexists)
  refine ⟨b, loop_eq_some_iff.mpr ⟨_, (Nat.find_min' hexists h).trans_lt hj, hb, fun i hi => ?_⟩⟩
  simpa using Nat.find_min hexists hi

/-- One iteration of a loop that also remembers the first value of `mark`. -/
def remember {α : Type*} (next : σ → σ) (mark : σ → Option α) (s : σ × Option α) : σ × Option α :=
  (next s.1, s.2.or (mark s.1))

section Remember

variable {α : Type*} {mark : σ → Option α}

/-- Remembering a mark does not change the states of a loop. -/
theorem remember_iterate_fst (mark : σ → Option α) (j : ℕ) (s : σ × Option α) :
    ((remember next mark)^[j] s).1 = next^[j] s.1 := by
  induction j generalizing s with
  | zero => rfl
  | succ j ih => rw [Function.iterate_succ_apply, ih]; rfl

/-- What is remembered is the mark of an earlier state. -/
theorem exists_mark_of_remember {a : α}
    (h : ((remember next mark)^[j] (s, none)).2 = some a) :
    ∃ i < j, mark (next^[i] s) = some a := by
  induction j with
  | zero => cases h
  | succ j ih =>
    rw [Function.iterate_succ_apply', remember, or_eq_some_iff, remember_iterate_fst] at h
    rcases h with h | ⟨-, h⟩
    · obtain ⟨i, hi, hmark⟩ := ih h
      exact ⟨i, hi.trans (lt_succ_self j), hmark⟩
    · exact ⟨j, lt_succ_self j, h⟩

end Remember

/-! ## Slots -/

/-- **Slot** of a table. -/
inductive Slot (E : Type*) where
  /-- Never used since the table was set up. -/
  | free
  | deleted
  | used (e : E)
deriving DecidableEq

namespace Slot

/-- The element in a slot. -/
def elem : Slot E → Option E
  | used e => some e
  | _ => none

/-- The slot is free. -/
def isFree : Slot E → Bool
  | free => true
  | _ => false

/-- The slot holds the mark of a deleted element. -/
def isDeleted : Slot E → Bool
  | deleted => true
  | _ => false

@[simp] theorem isFree_free : (free : Slot E).isFree = true := rfl

@[simp] theorem isFree_deleted : (deleted : Slot E).isFree = false := rfl

@[simp] theorem isFree_used (e : E) : (used e).isFree = false := rfl

@[simp] theorem isDeleted_deleted : (deleted : Slot E).isDeleted = true := rfl

@[simp] theorem isDeleted_used (e : E) : (used e).isDeleted = false := rfl

/-- The slots with an element are the used ones. -/
theorem elem_eq_some_iff {s : Slot E} {e : E} : s.elem = some e ↔ s = used e := by
  cases s <;> simp [elem]

end Slot

variable {slots : List (Slot E)} {i : ℕ} {e e' : E} {x y : Slot E}

/-- The elements of a table, by index. -/
def elems (slots : List (Slot E)) : List E := slots.filterMap Slot.elem

/-- The number of free slots. -/
def numFree (slots : List (Slot E)) : ℕ := slots.countP Slot.isFree

/-- The number of marks. -/
def numDeleted (slots : List (Slot E)) : ℕ := slots.countP Slot.isDeleted

/-- The elements are those of the used slots. -/
theorem mem_elems : e ∈ elems slots ↔ ∃ i : ℕ, slots[i]? = some (Slot.used e) := by
  simp only [elems, mem_filterMap, Slot.elem_eq_some_iff]
  constructor
  · rintro ⟨x, hx, rfl⟩
    exact mem_iff_getElem?.mp hx
  · rintro ⟨i, hi⟩
    exact ⟨_, mem_of_getElem? hi, rfl⟩

/-- Every slot is free, deleted or used. -/
theorem count_slots (slots : List (Slot E)) :
    numFree slots + numDeleted slots + (elems slots).length = slots.length := by
  induction slots with
  | nil => rfl
  | cons x slots ih =>
    unfold numFree numDeleted elems at ih ⊢
    rw [countP_cons, countP_cons, filterMap_cons]
    cases x <;> simp [Slot.isFree, Slot.isDeleted, Slot.elem] <;> omega

/-- A table with free slots has one. -/
theorem exists_free (h : 0 < numFree slots) : ∃ i < slots.length, slots[i]? = some .free := by
  obtain ⟨x, hx, hfree⟩ := countP_pos_iff.mp h
  obtain ⟨i, hi, rfl⟩ := mem_iff_getElem.mp hx
  refine ⟨i, hi, ?_⟩
  cases hs : slots[i] <;> simp_all [Slot.isFree]

/-- Writing to a slot without an element adds one. -/
theorem elems_set_used (h : slots[i]? = some x) (hx : x.elem = none) :
    (elems (slots.set i (.used e))).Perm (e :: elems slots) := by
  obtain ⟨pre, post, rfl, -, hset⟩ := exists_split h
  have hused : (Slot.used e).elem = some e := rfl
  rw [hset]
  simp only [elems, filterMap_append, filterMap_cons, hx, hused]
  exact perm_middle

/-- Deleting a slot takes its element away. -/
theorem elems_set_deleted (h : slots[i]? = some (.used e)) :
    (elems slots).Perm (e :: elems (slots.set i .deleted)) := by
  obtain ⟨pre, post, rfl, -, hset⟩ := exists_split h
  rw [hset]
  simp only [elems, filterMap_append, filterMap_cons, Slot.elem]
  exact perm_middle

/-- Writing to a used slot replaces its element. -/
theorem elems_set_replace (h : slots[i]? = some (.used e)) (e' : E) :
    ∃ rest, (elems slots).Perm (e :: rest) ∧
      (elems (slots.set i (.used e'))).Perm (e' :: rest) := by
  obtain ⟨pre, post, rfl, -, hset⟩ := exists_split h
  rw [hset]
  simp only [elems, filterMap_append, filterMap_cons, Slot.elem]
  exact ⟨_, perm_middle, perm_middle⟩

/-- How the number of free slots changes with a slot. -/
theorem numFree_set (h : slots[i]? = some x) (y : Slot E) :
    numFree (slots.set i y) + x.isFree.toNat = numFree slots + y.isFree.toNat :=
  countP_set h Slot.isFree y

/-- How the number of deleted slots changes with a slot. -/
theorem numDeleted_set (h : slots[i]? = some x) (y : Slot E) :
    numDeleted (slots.set i y) + x.isDeleted.toNat = numDeleted slots + y.isDeleted.toNat :=
  countP_set h Slot.isDeleted y

/-! ## Probe paths -/

/-- Going along the path, `i` is reached before any free slot. -/
def Reaches (slots : List (Slot E)) (path : ℕ → ℕ) (i : ℕ) : Prop :=
  ∃ j, path j = i ∧ ∀ k < j, slots[path k]? ≠ some .free

/-- **Probing invariant.** Every element is reached on its path before any free slot. -/
def Probed (slots : List (Slot E)) (pathOf : E → ℕ → ℕ) : Prop :=
  ∀ i e, slots[i]? = some (.used e) → Reaches slots (pathOf e) i

variable {path : ℕ → ℕ} {pathOf : E → ℕ → ℕ}

/-- A slot stays reachable as long as no slot becomes free. -/
theorem Reaches.set {i₀ : ℕ} (h : Reaches slots path i₀) (hy : y ≠ .free) :
    Reaches (slots.set i y) path i₀ := by
  obtain ⟨j, hj, hbefore⟩ := h
  refine ⟨j, hj, fun k hk hfree => ?_⟩
  rw [getElem?_set] at hfree
  split_ifs at hfree with hik hlt
  · exact hy (some.inj hfree)
  · exact hbefore k hk hfree

/-- An element may be written to any slot that its own path reaches. -/
theorem Probed.set_used (h : Probed slots pathOf) (hreach : Reaches slots (pathOf e) i) :
    Probed (slots.set i (.used e)) pathOf := by
  intro i' e' hi'
  rw [getElem?_set] at hi'
  split_ifs at hi' with hii hlt
  · obtain rfl : e = e' := by simpa using hi'
    exact hii ▸ hreach.set (by simp)
  · exact (h i' e' hi').set (by simp)

/-- Marking a slot as deleted breaks no path; this is why deletion does not free it. -/
theorem Probed.set_deleted (h : Probed slots pathOf) : Probed (slots.set i .deleted) pathOf := by
  intro i' e' hi'
  rw [getElem?_set] at hi'
  split_ifs at hi' with hii hlt
  · cases hi'
  · exact (h i' e' hi').set (by simp)

/-- An empty table is probed. -/
theorem probed_replicate (n : ℕ) : Probed (List.replicate n (.free : Slot E)) pathOf := by
  intro i e hi
  obtain ⟨hlt, h⟩ := List.getElem?_eq_some_iff.mp hi
  rw [getElem_replicate] at h
  cases h

/-- An empty table has no elements. -/
theorem elems_replicate (n : ℕ) : elems (List.replicate n (.free : Slot E)) = [] := by
  induction n with
  | zero => rfl
  | succ n ih => rw [replicate_succ, elems]; exact ih

/-- **Searches are complete**: before a free slot, the path of an element meets it. -/
theorem Probed.exists_before (h : Probed slots pathOf) (he : e ∈ elems slots)
    (hfree : slots[pathOf e j]? = some .free) :
    ∃ k < j, slots[pathOf e k]? = some (Slot.used e) := by
  obtain ⟨i, hi⟩ := mem_elems.mp he
  obtain ⟨k, rfl, hbefore⟩ := h i e hi
  refine ⟨k, ?_, hi⟩
  by_contra hle
  rcases lt_or_eq_of_le (not_lt.mp hle) with hlt | rfl
  · exact hbefore j hlt hfree
  · exact absurd (hfree.symm.trans hi) (by simp)

/-- The path visits every one of `n` slots. -/
def Complete (n : ℕ) (path : ℕ → ℕ) : Prop := ∀ i < n, ∃ j < n, path j = i

/-- **The first entry** of a list with `stop` that is on the path, after `j` steps. -/
structure First {A : Type*} (l : List A) (path : ℕ → ℕ) (stop : A → Bool) (j : ℕ)
    (a : A) : Prop where
  lt : j < l.length
  get : l[path j]? = some a
  stops : stop a
  before : ∀ k < j, l[path k]?.any stop = false

section First

variable {A : Type*} {l : List A} {a : A} {halt : A → Bool} {j k : ℕ}

/-- A complete path halts if there is an element at which it has to. -/
theorem exists_first (hcomplete : Complete l.length path) (ha : a ∈ l) (hhalt : halt a) :
    ∃ j b, First l path halt j b := by
  obtain ⟨i, hi, rfl⟩ := mem_iff_getElem.mp ha
  obtain ⟨j, hj, rfl⟩ := hcomplete i hi
  have hexists : ∃ j, j < l.length ∧ l[path j]?.any halt :=
    ⟨j, hj, by rwa [getElem?_eq_getElem hi]⟩
  obtain ⟨hlt, hany⟩ := Nat.find_spec hexists
  obtain ⟨b, hb, hstop⟩ := (any_eq_true _ _).mp hany
  refine ⟨_, b, hlt, hb, hstop, fun k hk => ?_⟩
  simpa [hk.trans hlt] using Nat.find_min hexists hk

/-- The slots before the first halt do not stop the path. -/
theorem First.not_stop (h : First l path halt j a) (hk : k < j) {b : A} (hb : l[path k]? = some b) :
    halt b = false := by
  have hany := h.before k hk
  rwa [hb] at hany

variable (index : σ → ℕ)

variable (h : First l path halt j a) (hpath : ∀ j, index (next^[j] s) = path j)
include h hpath

/-- The loop ends at the first halt of its path. -/
theorem First.loop_eq (result : σ → β) :
    loop next (fun s => if l[index s]?.any halt then some (result s) else none) l.length s =
      some (result (next^[j] s)) := by
  refine loop_eq_some_iff.mpr ⟨j, h.lt, ?_, fun i hi => ?_⟩
  · rw [hpath, h.get, any_some, if_pos h.stops]
  · rw [hpath, h.before i hi]
    rfl

omit h in
/-- A loop along the path that ends is at the first entry with `halt`. -/
theorem exists_first_of_loop {result : σ → β}
    (h : loop next (fun s => if l[index s]?.any halt then some (result s) else none) l.length s =
      some b) : ∃ j a, First l path halt j a ∧ result (next^[j] s) = b := by
  obtain ⟨j, hj, hstop, hbefore⟩ := loop_eq_some_iff.mp h
  rw [hpath] at hstop
  split_ifs at hstop with hany
  obtain ⟨a, ha, hhalt⟩ := (any_eq_true _ _).mp hany
  refine ⟨j, a, ⟨hj, ha, hhalt, fun k hk => ?_⟩, some.inj hstop⟩
  have hnot := hbefore k hk
  rw [hpath] at hnot
  simpa using hnot

/-- A loop that remembers ends there, too, and what it remembers it has passed. -/
theorem First.loop_remember (mark : A → Bool) :
    ∃ d, loop (remember next fun s => if l[index s]?.any mark then some (index s) else none)
        (fun x => if l[index x.1]?.any halt then some x else none) l.length (s, none) =
        some (next^[j] s, d) ∧
      ∀ i ∈ d, ∃ k < j, i = path k ∧ ∃ b, l[i]? = some b ∧ mark b := by
  set mem := fun s => if l[index s]?.any mark then some (index s) else none
  refine ⟨((remember next mem)^[j] (s, none)).2, ?_, fun i hi => ?_⟩
  · refine loop_eq_some_iff.mpr ⟨j, h.lt, ?_, fun i hi => ?_⟩
    · rw [remember_iterate_fst, hpath, h.get, any_some, if_pos h.stops,
        ← remember_iterate_fst mem j (s, none)]
    · rw [remember_iterate_fst, hpath, h.before i hi]
      rfl
  · obtain ⟨k, hk, hmark⟩ := exists_mark_of_remember hi
    simp only [mem, hpath] at hmark
    split_ifs at hmark with hany
    cases hmark
    exact ⟨k, hk, rfl, (any_eq_true _ _).mp hany⟩

end First

/-- A search for `isMatch` ends at the slot. -/
def Slot.ends (isMatch : E → Bool) : Slot E → Bool
  | .free => true
  | .deleted => false
  | .used e => isMatch e

section Search

variable {isMatch : E → Bool} {j k : ℕ}

/-- The slots up to the first halt are reached. -/
theorem First.reaches (h : First slots path (Slot.ends isMatch) j x) (hk : k ≤ j) :
    Reaches slots path (path k) :=
  ⟨k, rfl, fun _ hl hslot => absurd (h.not_stop (hl.trans_le hk) hslot) (by simp [Slot.ends])⟩

/-- On the path of the elements that match, a search comes to a free slot only if there is none. -/
theorem Probed.not_isMatch (h : Probed slots pathOf)
    (hfirst : First slots path (Slot.ends isMatch) j .free)
    (hpath : ∀ e ∈ elems slots, isMatch e → pathOf e = path) :
    ∀ e ∈ elems slots, isMatch e = false := by
  intro e he
  by_contra hmatch
  rw [Bool.not_eq_false] at hmatch
  have hpathOf := hpath e he hmatch
  obtain ⟨k, hk, hused⟩ := h.exists_before he (by rw [hpathOf, hfirst.get])
  rw [hpathOf] at hused
  exact absurd (hfirst.not_stop hk hused) (by simp [Slot.ends, hmatch])

/-- **Searches end.** -/
theorem exists_end (hcomplete : Complete slots.length path) (hfree : 0 < numFree slots) :
    ∃ j x, First slots path (Slot.ends isMatch) j x := by
  obtain ⟨i, -, hi⟩ := exists_free hfree
  exact exists_first hcomplete (mem_of_getElem? hi) rfl

end Search

/-! ## Entries with marks -/

/-- How entries stand for slots: two of their keys are marks. -/
structure Marks (E K : Type*) where
  key : E → K
  free : K
  deleted : K
  free_ne_deleted : free ≠ deleted

namespace Marks

variable {K : Type*} [DecidableEq K] {M : Marks E K} {l es : List E} {a : E} {n d j k : ℕ}

/-- The entry is no mark. -/
def IsLive (M : Marks E K) (e : E) : Prop := M.key e ≠ M.free ∧ M.key e ≠ M.deleted

instance (M : Marks E K) : DecidablePred M.IsLive := fun _ => inferInstanceAs (Decidable (_ ∧ _))

/-- The slot that an entry stands for. -/
def slotOf (M : Marks E K) (e : E) : Slot E :=
  if M.key e = M.free then .free else if M.key e = M.deleted then .deleted else .used e

/-- The slots of the entries. -/
def slotsOf (M : Marks E K) (l : List E) : List (Slot E) := l.map M.slotOf

/-- An element with an ordinary key is a used slot. -/
theorem slotOf_of_isLive (h : M.IsLive e) : M.slotOf e = .used e := by
  rw [slotOf, if_neg h.1, if_neg h.2]

/-- An element with the free mark is a free slot. -/
theorem slotOf_of_free (h : M.key e = M.free) : M.slotOf e = .free := if_pos h

/-- An element with the deleted mark is a deleted slot. -/
theorem slotOf_of_deleted (h : M.key e = M.deleted) : M.slotOf e = .deleted := by
  rw [slotOf, if_neg (h ▸ M.free_ne_deleted.symm), if_pos h]

/-- The three kinds of slots, by the mark. -/
theorem cases_slotOf (M : Marks E K) (e : E) :
    M.key e = M.free ∧ M.slotOf e = .free ∨ M.key e = M.deleted ∧ M.slotOf e = .deleted ∨
      M.IsLive e ∧ M.slotOf e = .used e := by
  by_cases hfree : M.key e = M.free
  · exact .inl ⟨hfree, slotOf_of_free hfree⟩
  · by_cases hdeleted : M.key e = M.deleted
    · exact .inr (.inl ⟨hdeleted, slotOf_of_deleted hdeleted⟩)
    · exact .inr (.inr ⟨⟨hfree, hdeleted⟩, slotOf_of_isLive ⟨hfree, hdeleted⟩⟩)

theorem length_slotsOf (l : List E) : (M.slotsOf l).length = l.length := length_map ..

/-- The slot at an index. -/
theorem getElem?_slotsOf (h : l[i]? = some e) : (M.slotsOf l)[i]? = some (M.slotOf e) := by
  rw [slotsOf, getElem?_map, h]
  rfl

/-- Every slot is that of an element. -/
theorem exists_of_getElem?_slotsOf (h : (M.slotsOf l)[i]? = some x) :
    ∃ e, l[i]? = some e ∧ M.slotOf e = x := by
  rwa [slotsOf, getElem?_map, map_eq_some_iff] at h

/-- Writing an element writes its slot. -/
theorem set_slotsOf (e : E) : M.slotsOf (l.set i e) = (M.slotsOf l).set i (M.slotOf e) := map_set ..

/-- The elements of the slots are those with an ordinary key. -/
theorem elems_slotsOf (M : Marks E K) (l : List E) :
    elems (M.slotsOf l) = l.filter (M.IsLive ·) := by
  induction l with
  | nil => rfl
  | cons e l ih =>
    simp only [elems, slotsOf, map_cons, filterMap_cons] at ih ⊢
    rcases M.cases_slotOf e with ⟨hkey, heq⟩ | ⟨hkey, heq⟩ | ⟨hlive, heq⟩ <;> rw [heq, ih]
    · exact (filter_cons_of_neg (by simp [IsLive, hkey])).symm
    · exact (filter_cons_of_neg (by simp [IsLive, hkey])).symm
    · exact (filter_cons_of_pos (by simpa using hlive)).symm

/-- Counting the deleted marks. -/
theorem numDeleted_slotsOf (M : Marks E K) (l : List E) :
    numDeleted (M.slotsOf l) = l.countP (M.key · == M.deleted) := by
  rw [numDeleted, slotsOf, countP_map]
  refine countP_congr fun e _ => ?_
  rcases M.cases_slotOf e with ⟨hkey, heq⟩ | ⟨hkey, heq⟩ | ⟨hlive, heq⟩
  · simp [heq, hkey, Slot.isDeleted, M.free_ne_deleted]
  · simp [heq, hkey]
  · simp [heq, hlive.2]

/-- Counting the free marks. -/
theorem numFree_slotsOf (M : Marks E K) (l : List E) :
    numFree (M.slotsOf l) = l.countP (M.key · == M.free) := by
  rw [numFree, slotsOf, countP_map]
  refine countP_congr fun e _ => ?_
  rcases M.cases_slotOf e with ⟨hkey, heq⟩ | ⟨hkey, heq⟩ | ⟨hlive, heq⟩
  · simp [heq, hkey]
  · simp [heq, hkey, M.free_ne_deleted.symm]
  · simp [heq, hlive.1]

/-- **Tables** of `n` entries: `es` are live, each within reach on its path, and `d` are deleted. -/
structure Table (M : Marks E K) (pathOf : E → ℕ → ℕ) (n : ℕ) (l es : List E) (d : ℕ) : Prop where
  length_eq : l.length = n
  perm : (elems (M.slotsOf l)).Perm es
  probed : Probed (M.slotsOf l) pathOf
  numDeleted_eq : numDeleted (M.slotsOf l) = d

namespace Table

section

variable (h : M.Table pathOf n l es d)
include h

/-- The free, deleted and used slots make up the table. -/
theorem count : numFree (M.slotsOf l) + d + es.length = n := by
  have hcount := count_slots (M.slotsOf l)
  rwa [h.numDeleted_eq, h.perm.length_eq, length_slotsOf, h.length_eq] at hcount

/-- The deleted marks are as many as the table says. -/
theorem countP_deleted : l.countP (M.key · == M.deleted) = d := by
  rw [← numDeleted_slotsOf, h.numDeleted_eq]

/-- The free marks are the slots that are left. -/
theorem countP_free : l.countP (M.key · == M.free) + d + es.length = n := by
  rw [← numFree_slotsOf, h.count]

/-- The elements with an ordinary key are those of the table. -/
theorem perm_filter : (l.filter (M.IsLive ·)).Perm es :=
  M.elems_slotsOf l ▸ h.perm

/-- Membership in a table, by its slots. -/
theorem mem_iff : e ∈ es ↔ e ∈ l ∧ M.IsLive e := by
  rw [← h.perm_filter.mem_iff, mem_filter, decide_eq_true_iff]

/-- A table with room has a free slot. -/
theorem exists_free (hroom : es.length + d < n) : ∃ e ∈ l, M.key e = M.free := by
  have hcount := h.countP_free
  obtain ⟨e, he, hfree⟩ := countP_pos_iff.mp (show 0 < l.countP (M.key · == M.free) by omega)
  exact ⟨e, he, beq_iff_eq.mp hfree⟩

/-- The order of the elements is not part of a table. -/
theorem of_perm {es' : List E} (hperm : es.Perm es') :
    M.Table pathOf n l es' d := { h with perm := h.perm.trans hperm }

omit h in
/-- A table of free slots is empty. -/
theorem replicate (M : Marks E K) (pathOf : E → ℕ → ℕ) (n : ℕ) (h : M.key e = M.free) :
    M.Table pathOf n (List.replicate n e) [] 0 := by
  have hslots : M.slotsOf (List.replicate n e) = List.replicate n .free := by
    rw [slotsOf, map_replicate, slotOf_of_free h]
  refine ⟨length_replicate, ?_, ?_, ?_⟩ <;> rw [hslots]
  · rw [elems_replicate]
  · exact probed_replicate n
  · rw [numDeleted, countP_replicate]
    rfl

/-- **Insertion** at a slot that the path of the new element reaches; a deleted slot may be used
again. -/
theorem insert (ha : l[i]? = some a) (hmark : ¬M.IsLive a) (he : M.IsLive e)
    (hreach : Reaches (M.slotsOf l) (pathOf e) i) :
    ∃ d', M.Table pathOf n (l.set i e) (e :: es) d' ∧
      d' + (if M.key a = M.deleted then 1 else 0) = d := by
  have hslot := getElem?_slotsOf (M := M) ha
  have hset : M.slotsOf (l.set i e) = (M.slotsOf l).set i (.used e) := by
    rw [set_slotsOf, slotOf_of_isLive he]
  have hdeleted := numDeleted_set hslot (.used e)
  have hnone : (M.slotOf a).elem = none ∧
      (M.slotOf a).isDeleted.toNat = if M.key a = M.deleted then 1 else 0 := by
    rcases M.cases_slotOf a with ⟨hkey, heq⟩ | ⟨hkey, heq⟩ | ⟨hlive, -⟩
    · rw [heq, hkey, if_neg M.free_ne_deleted]
      exact ⟨rfl, rfl⟩
    · rw [heq, if_pos hkey]
      exact ⟨rfl, rfl⟩
    · exact absurd hlive hmark
  rw [hnone.2, h.numDeleted_eq] at hdeleted
  refine ⟨_, ⟨by rw [length_set, h.length_eq], ?_, ?_, rfl⟩, hset ▸ hdeleted⟩
  · rw [hset]
    exact (elems_set_used hslot hnone.1).trans (h.perm.cons e)
  · rw [hset]
    exact h.probed.set_used hreach

end

variable (h : M.Table pathOf n l (a :: es) d) (ha : l[i]? = some a) (hlive : M.IsLive a)
include h ha hlive

/-- **Replacement** of an element by one with the same path. -/
theorem replace (he : M.IsLive e)
    (hpath : pathOf e = pathOf a) : M.Table pathOf n (l.set i e) (e :: es) d := by
  have hslot := slotOf_of_isLive hlive ▸ getElem?_slotsOf (M := M) ha
  have hset : M.slotsOf (l.set i e) = (M.slotsOf l).set i (.used e) := by
    rw [set_slotsOf, slotOf_of_isLive he]
  obtain ⟨rest, hold, hnew⟩ := elems_set_replace hslot e
  refine ⟨by rw [length_set, h.length_eq], ?_, ?_, ?_⟩ <;> rw [hset]
  · exact hnew.trans ((hold.symm.trans h.perm).cons_inv.cons e)
  · exact h.probed.set_used (hpath ▸ h.probed i a hslot)
  · exact (numDeleted_set hslot (.used e)).trans h.numDeleted_eq

/-- **Deletion** leaves a mark behind. -/
theorem delete (he : M.key e = M.deleted) : M.Table pathOf n (l.set i e) es (d + 1) := by
  have hslot := slotOf_of_isLive hlive ▸ getElem?_slotsOf (M := M) ha
  have hset : M.slotsOf (l.set i e) = (M.slotsOf l).set i .deleted := by
    rw [set_slotsOf, slotOf_of_deleted he]
  refine ⟨by rw [length_set, h.length_eq], ?_, ?_, ?_⟩ <;> rw [hset]
  · exact ((elems_set_deleted hslot).symm.trans h.perm).cons_inv
  · exact h.probed.set_deleted
  · exact (numDeleted_set hslot .deleted).trans (congrArg (· + 1) h.numDeleted_eq)

end Table

variable {halt : E → Bool}

/-- A path that halts at free slots reaches every slot up to its first halt. -/
theorem reaches_of_first (hfirst : First l path halt j e) (hhalt : ∀ a, M.key a = M.free → halt a)
    (hk : k ≤ j) : Reaches (M.slotsOf l) path (path k) := by
  refine ⟨k, rfl, fun i hi hslot => ?_⟩
  obtain ⟨a, ha, hfree⟩ := exists_of_getElem?_slotsOf hslot
  have hstop : halt a := by
    rcases M.cases_slotOf a with ⟨hkey, -⟩ | ⟨-, heq⟩ | ⟨-, heq⟩
    · exact hhalt a hkey
    · cases heq.symm.trans hfree
    · cases heq.symm.trans hfree
  exact absurd (hfirst.not_stop (hi.trans_le hk) ha) (by simp [hstop])

/-- **Searches are right**: they end at an entry that matches or, if there is none, at
a free one. -/
theorem Table.search (h : M.Table pathOf n l es d) (hfirst : First l path halt j e)
    (isMatch : E → Prop) (hhalt : ∀ a, halt a ↔ M.key a = M.free ∨ M.IsLive a ∧ isMatch a)
    (hpath : ∀ a ∈ es, isMatch a → pathOf a = path) :
    M.key e = M.free ∧ (∀ a ∈ es, ¬isMatch a) ∨ M.IsLive e ∧ e ∈ es ∧ isMatch e := by
  rcases (hhalt e).mp hfirst.stops with hfree | ⟨hlive, hmatch⟩
  · refine .inl ⟨hfree, fun a ha hmatch => ?_⟩
    have hslot : (M.slotsOf l)[pathOf a j]? = some .free := by
      rw [hpath a ha hmatch, getElem?_slotsOf hfirst.get, slotOf_of_free hfree]
    -- The search would have passed `a` before.
    obtain ⟨k, hk, hused⟩ := h.probed.exists_before (h.perm.mem_iff.mpr ha) hslot
    obtain ⟨b, hb, heq⟩ := exists_of_getElem?_slotsOf hused
    have hlive := (h.mem_iff.mp ha).2
    obtain rfl : b = a := by
      rcases M.cases_slotOf b with ⟨-, hb⟩ | ⟨-, hb⟩ | ⟨-, hb⟩ <;> cases hb.symm.trans heq
      rfl
    rw [hpath b ha hmatch] at hb
    exact absurd (hfirst.not_stop hk hb) (by simp [(hhalt b).mpr (.inr ⟨hlive, hmatch⟩)])
  · exact .inr ⟨hlive, h.mem_iff.mpr ⟨mem_of_getElem? hfirst.get, hlive⟩, hmatch⟩

end Marks

/-! ## Linear probing -/

/-- The slots `h, h + 1, …` modulo `n`. -/
def linear (n h j : ℕ) : ℕ := (h + j) % n

/-- Linear probing, step by step. -/
theorem linear_iterate (n h j : ℕ) : (fun i => (i + 1) % n)^[j] (h % n) = linear n h j := by
  induction j with
  | zero => rfl
  | succ j ih =>
    rw [Function.iterate_succ_apply', ih, linear, linear, mod_add_mod, Nat.add_assoc]

/-- Linear probing stays in the table. -/
theorem linear_lt {n : ℕ} (hn : 0 < n) (h j : ℕ) : linear n h j < n := mod_lt _ hn

/-- Linear probing visits every slot. -/
theorem linear_complete (n h : ℕ) : Complete n (linear n h) := by
  intro i hi
  have hn : 0 < n := zero_lt_of_lt hi
  refine ⟨(i + (n - h % n)) % n, mod_lt _ hn, ?_⟩
  have hlt : h % n < n := mod_lt _ hn
  have hmod : (h + (i + (n - h % n))) % n = (h % n + (i + (n - h % n))) % n := by
    rw [mod_add_mod]
  rw [linear, add_mod_mod, hmod, show h % n + (i + (n - h % n)) = i + n by omega,
    add_mod_right, mod_eq_of_lt hi]

/-! ## Triangular probing -/

/-- The sum `1 + … + j`. -/
def triangle (j : ℕ) : ℕ := j * (j + 1) / 2

/-- The next triangular number. -/
theorem triangle_succ (j : ℕ) : triangle (j + 1) = triangle j + (j + 1) := by
  unfold triangle
  rw [show (j + 1) * (j + 1 + 1) = j * (j + 1) + (j + 1) * 2 by ring,
    add_mul_div_right _ _ (by omega)]

/-- Twice a triangular number. -/
theorem two_mul_triangle (j : ℕ) : 2 * triangle j = j * (j + 1) :=
  Nat.mul_div_cancel' (even_mul_succ_self j).two_dvd

/-- The slots at triangular distances from `h`, modulo `n`. -/
def triangular (n h j : ℕ) : ℕ := (h + triangle j) % n

/-- Triangular probing, step by step, with a growing stride. -/
theorem triangular_iterate (n h j : ℕ) :
    (fun s : ℕ × ℕ => ((s.1 + s.2) % n, s.2 + 1))^[j] (h % n, 1) = (triangular n h j, j + 1) := by
  induction j with
  | zero => rfl
  | succ j ih =>
    rw [Function.iterate_succ_apply', ih]
    simp only [triangular, triangle_succ, mod_add_mod, add_assoc]

/-- Two different triangular numbers below `2 ^ k` steps differ modulo `2 ^ k`. -/
theorem triangle_injective {k a b : ℕ} (hab : a < b) (hb : b < 2 ^ k) :
    ¬ triangle a ≡ triangle b [MOD 2 ^ k] := by
  intro h
  have hle : triangle a ≤ triangle b :=
    Nat.div_le_div_right (Nat.mul_le_mul hab.le (succ_le_succ hab.le))
  have hdvd : 2 ^ k ∣ triangle b - triangle a := (modEq_iff_dvd' hle).mp h
  -- Twice the difference is a product of an odd and an even factor.
  have hprod : 2 * (triangle b - triangle a) = (b - a) * (b + a + 1) := by
    obtain ⟨d, rfl⟩ := Nat.exists_eq_add_of_lt hab
    rw [Nat.mul_sub, two_mul_triangle, two_mul_triangle, show a + d + 1 - a = d + 1 by omega]
    rw [show (a + d + 1) * (a + d + 1 + 1) = a * (a + 1) + (d + 1) * (a + d + 1 + a + 1) by ring,
      Nat.add_sub_cancel_left]
  have hpow : 2 ^ (k + 1) ∣ (b - a) * (b + a + 1) := by
    rw [← hprod, pow_succ, mul_comm (2 ^ k)]
    exact mul_dvd_mul_left 2 hdvd
  rcases even_or_odd (b - a) with heven | hodd
  · have hodd' : Odd (b + a + 1) := by
      obtain ⟨m, hm⟩ := heven
      exact ⟨a + m, by omega⟩
    have hcop : Nat.Coprime (2 ^ (k + 1)) (b + a + 1) :=
      (coprime_two_left.mpr hodd').pow_left _
    have := le_of_dvd (by omega) (hcop.dvd_of_dvd_mul_right hpow)
    omega
  · have hcop : Nat.Coprime (2 ^ (k + 1)) (b - a) := (coprime_two_left.mpr hodd).pow_left _
    have := le_of_dvd (by omega) (hcop.dvd_of_dvd_mul_left hpow)
    omega

/-- **Triangular probing** visits every slot of a table of `2 ^ k` slots. -/
theorem triangular_complete (k h : ℕ) : Complete (2 ^ k) (triangular (2 ^ k) h) := by
  have hpos : 0 < 2 ^ k := Nat.two_pow_pos k
  let f : Fin (2 ^ k) → Fin (2 ^ k) := fun j => ⟨triangular (2 ^ k) h j, mod_lt _ hpos⟩
  have hinj : Function.Injective f := by
    intro a b hab
    have hmod : triangle a ≡ triangle b [MOD 2 ^ k] :=
      Nat.ModEq.add_left_cancel' h (Fin.mk.inj hab)
    by_contra hne
    rcases lt_or_gt_of_ne (fun h => hne (Fin.ext h)) with hlt | hlt
    · exact triangle_injective hlt b.isLt hmod
    · exact triangle_injective hlt a.isLt hmod.symm
  intro i hi
  obtain ⟨j, hj⟩ := Finite.injective_iff_surjective.mp hinj ⟨i, hi⟩
  exact ⟨j, j.isLt, Fin.mk.inj hj⟩

end DartVm.OpenAddressing
