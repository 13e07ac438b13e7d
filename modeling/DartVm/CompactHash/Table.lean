import DartVm.CompactHash.Entries

/-! # The table

`Table keys m entries slots` says that the map `m` holds `entries` and that its index consists of
`slots`.  Every search in such a table ends, at the entry of the key or at an unused pair.

* `Table`: the invariant of the map.
* `exists_endsAt`: searches end.
* `findValueOrInsertPoint_spec`, `find_spec`: what the two searches return. -/

namespace DartVm.CompactHash

open OpenAddressing LinkedHashMap

variable {K V : Type} {keys : KeyEquality K} {m : LinkedHashMap K V}
  {entries : List (Option (K × V))} {slots : List (Slot (ℕ × K))}

/-- The pair for a slot that is unused, deleted or holds an entry with a key. -/
def pairOf (keys : KeyEquality K) (hashMask size : ℕ) : Slot (ℕ × K) → ℕ
  | .free => unusedPair
  | .deleted => deletedPair
  | .used (j, key) => hashPattern (keys.hashCode key) hashMask size ||| j

/-- The size of a new map, or a power of two with room for pairs of 32 bits. -/
def GoodSize (indexSize dataSize : ℕ) : Prop :=
  indexSize = 1 ∧ dataSize = 0 ∨
    ∃ p, 2 ≤ p ∧ p ≤ 31 ∧ indexSize = 2 ^ (p + 1) ∧ dataSize = 2 ^ (p + 1)

/-- **Invariant of the map.** -/
structure Table (keys : KeyEquality K) (m : LinkedHashMap K V) (entries : List (Option (K × V)))
    (slots : List (Slot (ℕ × K))) : Prop where
  size : GoodSize m.index.length m.data.length
  mask : RoomyMask m.hashMask m.index.length
  index_eq : m.index = slots.map (pairOf keys m.hashMask m.index.length)
  /-- No unused pair lies between the first place for a key and the place where it is. -/
  probed : Probed slots fun e => path keys m.index.length e.2
  elems_perm : (elems slots).Perm (live entries)
  /-- Pairs are only used up by new entries. -/
  free : m.index.length ≤ numFree slots + entries.length
  fits : 2 * entries.length ≤ m.data.length
  data_eq : m.data = entries.flatMap cells ++
    List.replicate (m.data.length - 2 * entries.length) .null
  used_eq : m.usedData = 2 * entries.length
  deleted_eq : m.deletedKeys = entries.countP (·.isNone)
  apart : Apart keys (contents entries)

/-- The pattern of a key in the index of the map. -/
abbrev LinkedHashMap.patternOf (m : LinkedHashMap K V) (keys : KeyEquality K) (key : K) : ℕ :=
  hashPattern (keys.hashCode key) m.hashMask m.index.length

/-- The size of the index is a power of two. -/
theorem GoodSize.two_pow {indexSize dataSize : ℕ} (h : GoodSize indexSize dataSize) :
    ∃ k, indexSize = 2 ^ k := by
  rcases h with ⟨h, -⟩ | ⟨p, -, -, h, -⟩
  · exact ⟨0, h⟩
  · exact ⟨p + 1, h⟩

namespace Table

/-! ## How searches end -/

/-- Where a search for a key stops. -/
def Matches (keys : KeyEquality K) (key : K) (e : ℕ × K) : Bool := keys.equals key e.2

/-- **How a search ends**: after `j` steps in the slot `x`, and no earlier. -/
abbrev EndsAt (keys : KeyEquality K) (m : LinkedHashMap K V) (slots : List (Slot (ℕ × K)))
    (key : K) (j : ℕ) (x : Slot (ℕ × K)) : Prop :=
  First slots (path keys m.index.length key) (Slot.ends (Matches keys key)) j x

/-- What the loop of `_findValueOrInsertPoint` returns in a slot. -/
def resultAt (keys : KeyEquality K) (key : K) (s : ℕ × Option ℕ) : Slot (ℕ × K) → Option ℤ
  | .free => some (-(s.2.getD s.1 : ℤ))
  | .deleted => none
  | .used (n, k) => if keys.equals key k then some (2 * n + 1) else none

/-- An insertion point: a pair that is not in use, within reach of the key. -/
structure InsertPoint (keys : KeyEquality K) (m : LinkedHashMap K V) (slots : List (Slot (ℕ × K)))
    (key : K) (i : ℕ) : Prop where
  slot : slots[i]? = some .free ∨ slots[i]? = some .deleted
  reaches : Reaches slots (path keys m.index.length key) i

variable {key : K} {x : Slot (ℕ × K)} {j : ℕ} {s : ℕ × Option ℕ}

/-- The search goes on at a slot that does not end it. -/
theorem resultAt_eq_none (hends : x.ends (Matches keys key) = false) : resultAt keys key s x = none
    := by
  cases x with
  | free => exact absurd hends (by simp [Slot.ends])
  | deleted => rfl
  | used e =>
    have hnot : keys.equals key e.2 = false := hends
    rw [resultAt, hnot, if_neg Bool.false_ne_true]

/-- The search returns at a slot that ends it. -/
theorem resultAt_isSome (s : ℕ × Option ℕ) (hends : x.ends (Matches keys key)) :
    ∃ d, resultAt keys key s x = some d := by
  cases x with
  | free => exact ⟨_, rfl⟩
  | deleted => exact absurd hends Bool.false_ne_true
  | used e =>
    have hequals : keys.equals key e.2 := hends
    exact ⟨2 * e.1 + 1, by rw [resultAt, if_pos hequals]⟩

/-! ## Slots and entries -/

variable (h : Table keys m entries slots) {i : ℕ} {k : K}
include h

theorem length_slots : slots.length = m.index.length := by
  have hlen := congrArg List.length h.index_eq
  rw [List.length_map] at hlen
  exact hlen.symm

/-- **There is always an unused pair.** -/
theorem numFree_pos : 0 < numFree slots := by
  have hfree := h.free
  have hfits := h.fits
  rcases h.size with ⟨hindex, hdata⟩ | ⟨p, -, -, hindex, hdata⟩
  · omega
  · have := Nat.two_pow_pos p
    omega

/-- The index holds the pairs of the slots. -/
theorem getElem?_index (i : ℕ) :
    m.index[i]? = slots[i]?.map (pairOf keys m.hashMask m.index.length) := by
  conv_lhs => rw [h.index_eq]
  exact List.getElem?_map ..

/-- A used slot refers to a live entry. -/
theorem entry_of_used
    (hslot : slots[i]? = some (.used (j, k))) : ∃ v, entries[j]? = some (some (k, v)) :=
  mem_live.mp (h.elems_perm.mem_iff.mp (mem_elems.mpr ⟨i, hslot⟩))

/-- An index with entries has a good size, and entry numbers fit below the pattern. -/
theorem exists_size (hj : j < entries.length) :
    ∃ p, 2 ≤ p ∧ p ≤ 31 ∧ m.index.length = 2 ^ (p + 1) ∧ m.data.length = 2 ^ (p + 1) ∧
      j < 2 ^ p := by
  have hfits := h.fits
  rcases h.size with ⟨-, hdata⟩ | ⟨p, hp, hp', hindex, hdata⟩
  · omega
  · refine ⟨p, hp, hp', hindex, hdata, ?_⟩
    omega

/-- The data holds the cells of the entries. -/
theorem getElem?_data {e : Option (K × V)} (hj : entries[j]? = some e) :
    m.data[2 * j]? = (cells e)[0]? ∧ m.data[2 * j + 1]? = (cells e)[1]? := by
  rw [h.data_eq]
  exact getElem?_flatMap_cells _ hj

/-! ## Pairs in use -/

/-- The pair of an entry is not one of the marks. -/
theorem pairOf_used (hslot : slots[i]? = some (.used (j, k))) :
    pairOf keys m.hashMask m.index.length (.used (j, k)) ≠ unusedPair ∧
      pairOf keys m.hashMask m.index.length (.used (j, k)) ≠ deletedPair := by
  obtain ⟨v, hentry⟩ := h.entry_of_used hslot
  obtain ⟨p, hp, -, hindex, -, hj⟩ := h.exists_size (getElem?_eq_some_iff.mp hentry).1
  rw [pairOf, hindex, hashPattern_eq, mul_two_pow_or _ hj]
  have hfactor := Nat.mul_le_mul_right (2 ^ p) (patternFactor_pos (keys.hashCode k) m.hashMask)
  have hpow : 2 ^ 2 ≤ 2 ^ p := Nat.pow_le_pow_right (by decide) hp
  simp only [unusedPair, deletedPair]
  omega

/-! ## Searches -/

/-- What matches no slot is not in the contents. -/
theorem not_equals_of_elems (helems : ∀ e ∈ elems slots, Matches keys key e = false) :
    ∀ e ∈ contents entries, keys.equals key e.1 = false := by
  rintro ⟨k, v⟩ he
  obtain ⟨j, hj⟩ := mem_contents.mp he
  exact helems (j, k) (h.elems_perm.mem_iff.mpr (mem_live.mpr ⟨v, hj⟩))

/-- The probes of the search are the path of the key. -/
theorem nextProbe_path (key : K) (j : ℕ) :
    (nextProbe (m.index.length - 1))^[j] (firstProbe (keys.hashCode key) (m.index.length - 1)) =
      path keys m.index.length key j := by
  obtain ⟨k, hk⟩ := h.size.two_pow
  rw [hk]
  exact nextProbe_iterate keys k j key

/-- The path stays in the index. -/
theorem path_lt (key : K) (j : ℕ) : path keys m.index.length key j < slots.length := by
  obtain ⟨k, hk⟩ := h.size.two_pow
  rw [h.length_slots]
  exact linear_lt (by rw [hk]; exact Nat.two_pow_pos k) _ _

/-- There is a slot at each step of the path. -/
theorem exists_slot (key : K) (j : ℕ) : ∃ y, slots[path keys m.index.length key j]? = some y :=
  ⟨_, List.getElem?_eq_getElem (h.path_lt key j)⟩

variable (hkeys : keys.Lawful)
include hkeys

/-- **A pair matches the keys that are equal to its key.** -/
theorem matchEntry_eq (hslot : slots[i]? = some (.used (j, k))) (key : K) :
    m.matchEntry keys key (m.patternOf keys key) m.index.length
        (pairOf keys m.hashMask m.index.length (.used (j, k))) =
      if keys.equals key k then some (2 * j) else none := by
  obtain ⟨v, hentry⟩ := h.entry_of_used hslot
  obtain ⟨p, hp, -, hindex, -, hj⟩ := h.exists_size (getElem?_eq_some_iff.mp hentry).1
  have hhalf : m.index.length >>> 1 = 2 ^ p := by
    rw [hindex, Nat.shiftRight_eq_div_pow, Nat.pow_succ, Nat.mul_div_cancel _ (by decide)]
  rw [matchEntry, patternOf, hhalf, pairOf, hindex, hashPattern_eq, hashPattern_eq,
    mul_two_pow_or _ hj]
  obtain ⟨hiff, hentryNumber⟩ := mul_two_pow_xor
    (patternFactor (keys.hashCode key) m.hashMask) (patternFactor (keys.hashCode k) m.hashMask) hj
  by_cases hpattern : patternFactor (keys.hashCode key) m.hashMask =
      patternFactor (keys.hashCode k) m.hashMask
  · rw [hentryNumber hpattern, Nat.shiftLeft_eq, Nat.mul_comm j 2, (h.getElem?_data hentry).1]
    simp [cells, Datum.equalsKey, hj]
  · rw [if_neg fun hmatch => hpattern (hiff.mp hmatch.1), if_neg]
    exact fun hequals => hpattern (by rw [hkeys.hash key k hequals])

/-- **Searches end**, and only in an unused pair if the key is not in the table. -/
theorem exists_endsAt (key : K) :
    (∃ j n k v, EndsAt keys m slots key j (.used (n, k)) ∧ keys.equals key k ∧
      entries[n]? = some (some (k, v))) ∨
    ∃ j, EndsAt keys m slots key j .free ∧ ∀ e ∈ contents entries, keys.equals key e.1 = false := by
  have hcomplete : Complete slots.length (path keys m.index.length key) := by
    rw [h.length_slots]
    exact linear_complete _ _
  have hpath : ∀ e ∈ elems slots, Matches keys key e →
      path keys m.index.length e.2 = path keys m.index.length key :=
    fun e _ hmatch => path_congr hkeys _ hmatch
  obtain ⟨j, x, hends⟩ := exists_end hcomplete h.numFree_pos
  cases x with
  | free => exact .inr ⟨j, hends, h.not_equals_of_elems (h.probed.not_isMatch hends hpath)⟩
  | deleted => exact absurd hends.stops Bool.false_ne_true
  | used e =>
    obtain ⟨v, hv⟩ := h.entry_of_used hends.get
    exact .inl ⟨j, e.1, e.2, v, hends, hends.stops, hv⟩

/-- **One step of the search** looks at the slot as `resultAt` says. -/
theorem findResult_eq (key : K) (hx : slots[s.1]? = some x) :
    m.findResult keys key (m.patternOf keys key)
        m.index.length s = resultAt keys key s x := by
  rw [findResult, h.getElem?_index, hx, Option.map_some]
  cases x with
  | free => rfl
  | deleted => rfl
  | used e =>
    dsimp only
    rw [if_neg (h.pairOf_used hx).1, if_neg (h.pairOf_used hx).2,
      h.matchEntry_eq hkeys hx, resultAt]
    split <;> simp

/-- **`_findValueOrInsertPoint`** returns what the loop gives at the end of the search, or a deleted
pair that it has passed. -/
theorem findValueOrInsertPoint_eq (hends : EndsAt keys m slots key j x) :
    ∃ mark : Option ℕ, (∀ i ∈ mark, ∃ j' < j, path keys m.index.length key j' = i ∧
        slots[i]? = some .deleted) ∧
      m.findValueOrInsertPoint keys key (keys.hashCode key)
          (m.patternOf keys key) m.index.length =
        resultAt keys key (path keys m.index.length key j, mark) x := by
  have hstate : ∀ i, ((remember (nextProbe (m.index.length - 1)) fun i =>
      if m.index[i]? = some deletedPair then some i else none)^[i]
      (firstProbe (keys.hashCode key) (m.index.length - 1), none)).1 =
        path keys m.index.length key i := by
    intro i
    rw [remember_iterate_fst, h.nextProbe_path]
  obtain ⟨mark, hmark⟩ : ∃ mark, ((remember (nextProbe (m.index.length - 1)) fun i =>
      if m.index[i]? = some deletedPair then some i else none)^[j]
      (firstProbe (keys.hashCode key) (m.index.length - 1), none)).2 = mark := ⟨_, rfl⟩
  refine ⟨mark, fun i hi => ?_, ?_⟩
  · obtain ⟨j', hj', hdeleted⟩ := exists_mark_of_remember (hmark.trans hi)
    rw [h.nextProbe_path] at hdeleted
    split at hdeleted
    next hpair =>
      cases hdeleted
      obtain ⟨y, hy⟩ := h.exists_slot key j'
      refine ⟨j', hj', rfl, ?_⟩
      rw [h.getElem?_index, hy, Option.map_some, Option.some.injEq] at hpair
      cases y with
      | free => exact absurd hpair zero_ne_one
      | deleted => exact hy
      | used e => exact absurd hpair (h.pairOf_used hy).2
    next => cases hdeleted
  · obtain ⟨d, hd⟩ := resultAt_isSome (path keys m.index.length key j, mark) hends.stops
    rw [hd, findValueOrInsertPoint, loop_eq_some_iff]
    refine ⟨j, h.length_slots ▸ hends.lt, ?_, fun i hi => ?_⟩
    · rw [h.findResult_eq hkeys key (by rw [hstate]; exact hends.get), ← hd]
      congr 1
      exact Prod.ext (hstate j) hmark
    · obtain ⟨y, hy⟩ := h.exists_slot key i
      rw [h.findResult_eq hkeys key (by rw [hstate]; exact hy)]
      exact resultAt_eq_none (hends.not_stop hi hy)

/-- **`_findValueOrInsertPoint`**: the value of the key, or where the key can go. -/
theorem findValueOrInsertPoint_spec (key : K) :
    (∃ (n : ℕ) (k : K) (v : V), keys.equals key k ∧ entries[n]? = some (some (k, v)) ∧
      m.findValueOrInsertPoint keys key (keys.hashCode key)
        (m.patternOf keys key) m.index.length = some (2 * n + 1 : ℤ)) ∨
    ∃ i : ℕ, (∀ e ∈ contents entries, keys.equals key e.1 = false) ∧
      InsertPoint keys m slots key i ∧
      m.findValueOrInsertPoint keys key (keys.hashCode key)
        (m.patternOf keys key) m.index.length = some (-i : ℤ) := by
  rcases h.exists_endsAt hkeys key with ⟨j, n, k, v, hends, hequals, hentry⟩ | ⟨j, hends, hnone⟩
  · obtain ⟨mark, -, hresult⟩ := h.findValueOrInsertPoint_eq hkeys hends
    refine .inl ⟨n, k, v, hequals, hentry, ?_⟩
    rw [hresult, resultAt, if_pos hequals]
  obtain ⟨mark, hmark, hresult⟩ := h.findValueOrInsertPoint_eq hkeys hends
  refine .inr ⟨mark.getD (path keys m.index.length key j), hnone, ?_, hresult⟩
  cases mark with
  | none => exact ⟨.inl hends.get, hends.reaches (le_refl j)⟩
  | some i =>
    obtain ⟨j', hj', rfl, hslot⟩ := hmark i rfl
    exact ⟨.inr hslot, hends.reaches (le_of_lt hj')⟩

/-- **The loop of `remove` and `_getValueOrData`** finds the key if it is there. -/
theorem find_spec (key : K) :
    (∃ (i n : ℕ) (k : K) (v : V), keys.equals key k ∧ entries[n]? = some (some (k, v)) ∧
      slots[i]? = some (.used (n, k)) ∧ m.find keys key = some (some (i, 2 * n))) ∨
    (∀ e ∈ contents entries, keys.equals key e.1 = false) ∧ m.find keys key = some none := by
  -- The loop goes on in the slots before the end of the search.
  have hgoes : ∀ (i : ℕ) (y : Slot (ℕ × K)), slots[i]? = some y →
      y.ends (Matches keys key) = false → m.findPlace keys key
        (m.patternOf keys key) m.index.length i = none := by
    intro i y hy hnot
    rw [findPlace, h.getElem?_index, hy, Option.map_some]
    cases y with
    | free => exact absurd hnot (by simp [Slot.ends])
    | deleted => rfl
    | used e =>
      have hnot' : keys.equals key e.2 = false := hnot
      dsimp only
      rw [if_neg (h.pairOf_used hy).1, if_neg (h.pairOf_used hy).2, h.matchEntry_eq hkeys hy, hnot']
      rfl
  have hfind : ∀ {j x r}, EndsAt keys m slots key j x → m.findPlace keys key
      (m.patternOf keys key) m.index.length (path keys m.index.length key j) = some r →
      m.find keys key = some r := by
    intro j x r hends hplace
    refine loop_eq_some_iff.mpr ⟨j, h.length_slots ▸ hends.lt, ?_, fun i hi => ?_⟩
    · rwa [h.nextProbe_path]
    · obtain ⟨y, hy⟩ := h.exists_slot key i
      rw [h.nextProbe_path]
      exact hgoes _ y hy (hends.not_stop hi hy)
  rcases h.exists_endsAt hkeys key with ⟨j, n, k, v, hends, hequals, hentry⟩ | ⟨j, hends, hnone⟩
  · refine .inl ⟨path keys m.index.length key j, n, k, v, hequals, hentry, hends.get,
      hfind hends ?_⟩
    rw [findPlace, h.getElem?_index, hends.get, Option.map_some]
    dsimp only
    rw [if_neg (h.pairOf_used hends.get).1, if_neg (h.pairOf_used hends.get).2,
      h.matchEntry_eq hkeys hends.get, if_pos hequals]
    rfl
  · refine .inr ⟨hnone, hfind hends ?_⟩
    rw [findPlace, h.getElem?_index, hends.get]
    rfl

end Table

end DartVm.CompactHash
