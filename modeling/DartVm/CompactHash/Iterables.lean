import DartVm.CompactHash.Correct

/-! # Iterables over keys and values

`keys` and `values` hold on to `_data` and `_usedData` as they are when they are called, while the
check for modifications compares the map with what it is when an iterator is made.  So an iterable
lags behind its map: it does not yield the entries that are added later, and throws once the entries
lie in another list.

* `yields_iff`: what an iterator yields.
* `iterables_iff`: when an iterable yields the current keys or values.
* `keys_misses_insertion`: an iterable that misses an entry. -/

namespace DartVm.CompactHash

open LinkedHashMap

variable {K V : Type}

/-! ## Iterators -/

/-- The fields of `_CompactIterable`, with the list of data given by its number.  The step is two,
as for all iterables of maps. -/
structure CompactIterable where
  dataId : ℕ
  len : ℕ
  offset : ℤ
deriving DecidableEq, Repr

/-- The fields of `_CompactIterator`. -/
structure CompactIterator extends CompactIterable where
  checkSum : ℕ
deriving DecidableEq, Repr

namespace LinkedHashMap

/-- `_LinkedHashMapMixin.keys`. -/
def keys (m : LinkedHashMap K V) : CompactIterable := ⟨m.dataId, m.usedData, -2⟩

/-- `_LinkedHashMapMixin.values`. -/
def values (m : LinkedHashMap K V) : CompactIterable := ⟨m.dataId, m.usedData, -1⟩

/-- `_isModifiedSince`. -/
def isModifiedSince (m : LinkedHashMap K V) (oldDataId oldCheckSum : ℕ) : Bool :=
  m.dataId != oldDataId || m.checkSum != oldCheckSum

end LinkedHashMap

/-- `_CompactIterable.iterator`: the check sum is that of the map now, the list that of the
iterable. -/
def CompactIterable.iterator (it : CompactIterable) (table : LinkedHashMap K V) : CompactIterator :=
  ⟨it, table.checkSum⟩

/-- The loop of `moveNext`. -/
def nextOffset (data : List (Datum K V)) (len : ℕ) (offset : ℤ) : ℤ :=
  if offset + 2 < len ∧ data[(offset + 2).toNat]?.any Datum.isDeleted then
    nextOffset data len (offset + 2)
  else offset + 2
termination_by (len - offset).toNat

/-- `moveNext`, with the new `current`.  `none`: it throws. -/
def CompactIterator.moveNext (it : CompactIterator) (table : LinkedHashMap K V) :
    Option (CompactIterator × Option (Datum K V)) :=
  if table.isModifiedSince it.dataId it.checkSum then none
  else
    let offset := nextOffset table.data it.len it.offset
    if offset < it.len then do
      let current ← table.data[offset.toNat]?
      some ({ it with offset }, some current)
    else some ({ it with offset }, none)

/-- What an iterator yields until `moveNext` returns false. -/
inductive Yields (table : LinkedHashMap K V) : CompactIterator → List (Datum K V) → Prop where
  | done {it it'} (h : it.moveNext table = some (it', none)) : Yields table it []
  | next {it it' d l} (h : it.moveNext table = some (it', some d)) (hrest : Yields table it' l) :
      Yields table it (d :: l)

variable {m m' : LinkedHashMap K V} {l : List (Datum K V)}

/-- What an iterator yields depends on its next step. -/
theorem yields_congr {it it' : CompactIterator} (h : it.moveNext m = it'.moveNext m)
    (hl : Yields m it l) : Yields m it' l := by
  cases hl with
  | done hdone => exact .done (h ▸ hdone)
  | next hnext hrest => exact .next (h ▸ hnext) hrest

/-- An iterator over another list than that of the map throws. -/
theorem not_yields {it : CompactIterator} (h : m.isModifiedSince it.dataId it.checkSum) :
    ¬Yields m it l := by
  rintro (hmove | ⟨hmove, -⟩) <;> simp [CompactIterator.moveNext, h] at hmove

/-- **An iteration** yields what is not deleted of the list. -/
theorem yields_iff {len dataId checkSum : ℕ} (hmod : m.isModifiedSince dataId checkSum = false)
    (hlen : len ≤ m.data.length) (offset : ℕ) :
    Yields m ⟨⟨dataId, len, (offset : ℤ) - 2⟩, checkSum⟩ l ↔ l = iterate m.data len offset := by
  fun_induction iterate m.data len offset generalizing l with
  | case1 offset hlt hget =>
    rw [List.getElem?_eq_none_iff] at hget
    omega
  | case2 offset hlt datum hget hdeleted ih =>
    -- The loop of `moveNext` passes over the element.
    have hnext : nextOffset m.data len (offset - 2) = nextOffset m.data len (offset + 2 - 2) := by
      rw [nextOffset, if_pos (by simp [hlt, hget, hdeleted])]
      simp
    rw [← ih]
    push_cast
    constructor <;> refine yields_congr ?_ <;> simp [CompactIterator.moveNext, hnext]
  | case3 offset hlt datum hget hdeleted ih =>
    have hnext : nextOffset m.data len (offset - 2) = offset := by
      rw [nextOffset, if_neg (by simp [hget, hdeleted]), sub_add_cancel]
    have hmove : CompactIterator.moveNext ⟨⟨dataId, len, (offset : ℤ) - 2⟩, checkSum⟩ m =
        some (⟨⟨dataId, len, offset⟩, checkSum⟩, some datum) := by
      simp [CompactIterator.moveNext, hmod, hnext, hlt, hget]
    push_cast [add_sub_cancel_right] at ih
    constructor
    · rintro (h | ⟨h, hrest⟩) <;> cases hmove.symm.trans h
      rw [ih.mp hrest]
    · rintro rfl
      exact .next hmove (ih.mpr rfl)
  | case4 offset hge =>
    have hnext : nextOffset m.data len (offset - 2) = offset := by
      rw [nextOffset, if_neg (by omega), sub_add_cancel]
    have hmove : CompactIterator.moveNext ⟨⟨dataId, len, (offset : ℤ) - 2⟩, checkSum⟩ m =
        some (⟨⟨dataId, len, offset⟩, checkSum⟩, none) := by
      simp [CompactIterator.moveNext, hmod, hnext, hge]
    constructor
    · rintro (h | ⟨h, hrest⟩) <;> cases hmove.symm.trans h
      rfl
    · rintro rfl
      exact .done hmove

/-! ## Iterables and their maps -/

variable {keys : KeyEquality K}

/-- **An iterable is up to date**: the entries lie in the list that it holds, and those that were
added since were removed again. -/
def UpToDate (m m' : LinkedHashMap K V) : Prop :=
  m'.dataId = m.dataId ∧ ∀ i, m.usedData ≤ i → i < m'.usedData → m'.data[i]? = some .deleted

section Table

variable {entries : List (Option (K × V))} {slots : List (OpenAddressing.Slot (ℕ × K))} {n : ℕ}
  (h : Table keys m entries slots)
include h

/-- Later entries are all deleted if their places in the list are. -/
theorem Table.contents_drop_eq_nil_iff : contents (entries.drop n) = [] ↔
    ∀ i, 2 * n ≤ i → i < m.usedData → m.data[i]? = some .deleted := by
  have hcells : ∀ j e, entries[j]? = some e →
      m.data[2 * j]? = (cells e)[0]? ∧ m.data[2 * j + 1]? = (cells e)[1]? := fun j e he => by
    rw [h.data_eq]
    exact getElem?_flatMap_cells _ he
  rw [contents, List.filterMap_eq_nil_iff, h.used_eq]
  constructor
  · intro hall i hi hlt
    have hj : entries[i / 2]? = some none := by
      have hlt' : i / 2 < entries.length := by omega
      rw [List.getElem?_eq_getElem hlt']
      refine congrArg some (hall _ (List.mem_drop_iff_getElem.mpr ⟨i / 2 - n, by omega, ?_⟩))
      congr 1
      omega
    rcases Nat.mod_two_eq_zero_or_one i with h0 | h1
    · rw [show i = 2 * (i / 2) by omega, (hcells _ _ hj).1]
      rfl
    · rw [show i = 2 * (i / 2) + 1 by omega, (hcells _ _ hj).2]
      rfl
  · intro hall e he
    obtain ⟨j, hj⟩ := List.mem_iff_getElem?.mp he
    rw [List.getElem?_drop] at hj
    have hlt := (List.getElem?_eq_some_iff.mp hj).1
    have hkey := (hcells _ _ hj).1
    rw [hall _ (by omega) (by omega)] at hkey
    cases e with
    | none => rfl
    | some kv => simp [cells] at hkey

/-- An iterable of an earlier state yields the current entries if and only if it is up to date. -/
theorem Table.yields_iff_upToDate {m₀ : LinkedHashMap K V} (hused : m₀.usedData = 2 * n)
    (hlater : Later m₀ m) {offset : ℕ} (hoffset : offset < 2) :
    Yields m ⟨⟨m₀.dataId, m₀.usedData, (offset : ℤ) - 2⟩, m.checkSum⟩
        ((contents entries).map fun e => if offset = 0 then .key e.1 else .value e.2) ↔
      UpToDate m₀ m := by
  by_cases heq : m.dataId = m₀.dataId
  · have hfits := h.fits
    have hused' := h.used_eq
    have hn : n ≤ entries.length := by
      unfold Later at hlater
      omega
    have hsplit : contents entries = contents (entries.take n) ++ contents (entries.drop n) := by
      rw [contents, contents, contents, ← List.filterMap_append, List.take_append_drop]
    rw [yields_iff (by simp [isModifiedSince, heq]) (by omega), hused, h.iterate_take hn hoffset,
      hsplit, List.map_append, List.append_right_eq_self, List.map_eq_nil_iff,
      h.contents_drop_eq_nil_iff, UpToDate, hused]
    exact (and_iff_right heq).symm
  · exact iff_of_false (not_yields (by simp [isModifiedSince, heq])) fun hup => heq hup.1

end Table

/-- **Iterables are up to date or do not yield the map.**  For every program that takes an iterable
over the keys or the values and then a new iterator of it: the iterator yields the current keys or
values in the order of their insertion, as many as `length` says, if and only if the entries lie in
the list that the iterable holds and those that were added since were removed again. -/
theorem iterables_iff (keys : KeyEquality K) (hkeys : keys.Lawful) (before after : List (Call K V))
    (hbefore : AllFit keys Machine.initial before)
    (hafter : ∀ s outcomes, Machine.run keys Machine.initial before = some (s, outcomes) →
      AllFit keys s after) :
    ∃ (s s' : Machine K V) (outcomes outcomes' : List (Outcome K V)) (map : List (K × V)),
      Machine.run keys Machine.initial before = some (s, outcomes) ∧
      Machine.run keys s after = some (s', outcomes') ∧
      map = (FiniteMap.run keys (FiniteMap.run keys FiniteMap.initial before).1 after).1.map ∧
      s'.map.length = map.length ∧
      (Yields s'.map (s.map.keys.iterator s'.map) (map.map fun e => .key e.1) ↔
        UpToDate s.map s'.map) ∧
      (Yields s'.map (s.map.values.iterator s'.map) (map.map fun e => .value e.2) ↔
        UpToDate s.map s'.map) := by
  obtain ⟨s, hrun, hrefines, -⟩ := refines_initial.run hkeys before hbefore
  obtain ⟨s', hrun', hrefines', hlater⟩ := hrefines.run hkeys after (hafter _ _ hrun)
  obtain ⟨entries, slots, htable, -⟩ := hrefines.table
  obtain ⟨entries', slots', htable', hmap⟩ := hrefines'.table
  refine ⟨s, s', _, _, _, hrun, hrun', rfl, ?_⟩
  rw [← hmap]
  exact ⟨htable'.length_eq,
    htable'.yields_iff_upToDate htable.used_eq hlater (show 0 < 2 by decide),
    htable'.yields_iff_upToDate htable.used_eq hlater (show 1 < 2 by decide)⟩

/-- An iterable of an entry that is removed yields nothing. -/
theorem iterables_iff_remove : ∃ s s' : Machine ℕ ℕ,
    Machine.run intKeys Machine.initial [.set 1 10] = some (s, [.done]) ∧
    Machine.run intKeys s [.remove 1] = some (s', [.value (some (.value 10))]) ∧
    Yields s'.map (s.map.keys.iterator s'.map) [] := by
  obtain ⟨s, s', outcomes, outcomes', map, hrun, hrun', hmap, -, hkeys, -⟩ :=
    iterables_iff intKeys intKeys_lawful [.set 1 10] [.remove 1]
      ⟨fun _ h => absurd h.1 (by decide), fun _ _ _ => trivial⟩
      fun _ _ _ => ⟨trivial, fun _ _ _ => trivial⟩
  cases hrun
  cases hrun'
  subst hmap
  exact ⟨_, _, rfl, rfl, hkeys.mpr ⟨rfl, fun i hi hlt => absurd hlt (not_lt.mpr hi)⟩⟩

/-- **An entry is missed**: the map has two keys, the iterable taken before the second insertion
yields one. -/
theorem keys_misses_insertion : ∃ s s' : Machine ℕ ℕ,
    Machine.run intKeys Machine.initial [.set 1 10] = some (s, [.done]) ∧
    Machine.run intKeys s [.set 2 20] = some (s', [.done]) ∧
    s'.map.length = 2 ∧ Yields s'.map (s.map.keys.iterator s'.map) [.key 1] ∧
    ¬Yields s'.map (s.map.keys.iterator s'.map) [.key 1, .key 2] := by
  have hiterate : ∀ data : List (Datum ℕ ℕ), data[0]? = some (.key 1) →
      iterate data 2 0 = [.key 1] := fun data h => by
    rw [iterate, if_pos (by decide), h]
    simp [iterate, Datum.isDeleted]
  refine ⟨_, _, rfl, rfl, rfl, (yields_iff rfl (by decide) 0).mpr (hiterate _ rfl).symm,
    fun h => ?_⟩
  exact absurd (((yields_iff rfl (by decide) 0).mp h).trans (hiterate _ rfl)) (by simp)

end DartVm.CompactHash
