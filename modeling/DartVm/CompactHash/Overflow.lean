import DartVm.CompactHash.Correct

/-! # Maps that outgrow their index

With more than `2 ^ 31` entries the index has `2 ^ 33` slots, and the smallest hash pattern is
`2 ^ 32`. An element of `_index` keeps the number of the entry only, which no search takes for the
key: the map has lost all of its keys.

* `Lost`: the state of such a map.
* `Table.set_lost`: the growth that loses the keys.
* `linkedHashMap_loses_keys`: a program that gets there. -/

namespace DartVm.CompactHash

open OpenAddressing LinkedHashMap List Option Machine

variable {K V : Type} {keys : KeyEquality K} {m : LinkedHashMap K V} {count : ℕ}
  {entries : List (Option (ℕ × ℕ))} {slots : List (Slot (ℕ × ℕ))}

/-! ## Lost keys -/

/-- **A map that has lost its keys**: patterns do not fit into the pairs of the index. -/
structure Lost (m : LinkedHashMap K V) (count : ℕ) : Prop where
  index_length : m.index.length = 2 ^ 33
  data_length : m.data.length = 2 ^ 33
  mask : m.hashMask = 0
  used_eq : m.usedData = 2 * count
  pairs_lt : ∀ pair ∈ m.index, pair < 2 ^ 32
  free : 2 ^ 33 ≤ m.index.countP (· == unusedPair) + count

/-- The index that has just been made too large. -/
theorem lost_fresh (dataId : ℕ) :
    Lost (⟨List.replicate (2 ^ 33) unusedPair, 0, List.replicate (2 ^ 33) .null, dataId, 0, 0⟩ :
      LinkedHashMap K V) 0 where
  index_length := length_replicate
  data_length := length_replicate
  mask := rfl
  used_eq := rfl
  pairs_lt pair hpair := by
    rw [eq_of_mem_replicate hpair]
    exact Nat.two_pow_pos 32
  free := by
    rw [countP_replicate]
    exact le_rfl

/-- In it every key has the pattern 2^32. -/
theorem Lost.hashPattern_eq (h : Lost m count) (hash : BitVec 64) :
    hashPattern hash m.hashMask m.index.length = 2 ^ 32 := by
  rw [h.mask, h.index_length, CompactHash.hashPattern_eq, patternFactor, Nat.and_zero, if_pos rfl,
    Nat.one_mul]

/-- No stored pair matches a pattern that it cannot hold. -/
theorem Lost.matchEntry_eq_none (h : Lost m count) (key : K) {i pair : ℕ}
    (hi : m.index[i]? = some pair) :
    m.matchEntry keys key (m.patternOf keys key) m.index.length
      pair = none := by
  have hpair := h.pairs_lt pair (mem_of_getElem? hi)
  have hxor := (mul_two_pow_xor 1 0 hpair).1
  rw [zero_mul, zero_add] at hxor
  have hhalf : m.index.length >>> 1 = 2 ^ 32 := by
    rw [h.index_length, Nat.shiftRight_eq_div_pow, Nat.pow_succ 2 32,
      Nat.mul_div_cancel _ (by decide)]
  rw [patternOf, h.hashPattern_eq, matchEntry, hhalf]
  exact if_neg fun hmatch => absurd (hxor.mp hmatch.1) (by decide)

section

variable (h : Lost m count) (hcount : count < 2 ^ 33) (keys : KeyEquality K) (key : K)
include h hcount

/-- The search meets an unused slot. -/
theorem Lost.exists_unused : ∃ j < m.index.length,
    m.index[(nextProbe (m.index.length - 1))^[j]
      (firstProbe (keys.hashCode key) (m.index.length - 1))]? = some unusedPair := by
  have hpos : 0 < m.index.countP (· == unusedPair) := by
    have := h.free
    omega
  obtain ⟨pair, hmem, hunused⟩ := List.countP_pos_iff.mp hpos
  obtain ⟨i, hi⟩ := mem_iff_getElem?.mp hmem
  have hlt := (List.getElem?_eq_some_iff.mp hi).1
  rw [h.index_length] at hlt ⊢
  obtain ⟨j, hj, hpath⟩ :=
    linear_complete (2 ^ 33) (firstProbe (keys.hashCode key) (2 ^ 33 - 1)) i hlt
  refine ⟨j, hj, ?_⟩
  rw [nextProbe_iterate, path, hpath, hi, beq_iff_eq.mp hunused]

/-- The search for any key ends at an unused slot. -/
theorem Lost.findValueOrInsertPoint :
    ∃ i : ℕ, m.findValueOrInsertPoint keys key (keys.hashCode key) (m.patternOf keys key)
      m.index.length = some (-i : ℤ) := by
  obtain ⟨j, hj, hunused⟩ := h.exists_unused hcount keys key
  have hstops : (m.findResult keys key (m.patternOf keys key) m.index.length
      ((remember (nextProbe (m.index.length - 1)) fun i =>
        if m.index[i]? = some deletedPair then some i else none)^[j]
        (firstProbe (keys.hashCode key) (m.index.length - 1), none))).isSome := by
    rw [findResult, remember_iterate_fst, hunused]
    rfl
  obtain ⟨d, hd⟩ := loop_isSome hj hstops
  refine ⟨(-d).toNat, hd.trans ?_⟩
  obtain ⟨i, -, hresult, -⟩ := loop_eq_some_iff.mp hd
  rw [findResult] at hresult
  split at hresult
  case h_1 => cases hresult
  case h_2 pair hpair =>
    rw [h.matchEntry_eq_none key hpair, map_none] at hresult
    split_ifs at hresult
    cases hresult
    rw [neg_neg, Int.toNat_natCast]

/-- **No key is found.** -/
theorem Lost.find : m.find keys key = some none := by
  obtain ⟨j, hj, hunused⟩ := h.exists_unused hcount keys key
  have hstops : (m.findPlace keys key (m.patternOf keys key) m.index.length
      ((nextProbe (m.index.length - 1))^[j]
        (firstProbe (keys.hashCode key) (m.index.length - 1)))).isSome := by
    rw [findPlace, hunused]
    rfl
  obtain ⟨place, hplace⟩ := loop_isSome hj hstops
  refine hplace.trans ?_
  obtain ⟨i, -, hresult, -⟩ := loop_eq_some_iff.mp hplace
  rw [findPlace] at hresult
  split at hresult
  case h_1 => cases hresult
  case h_2 pair hpair =>
    rw [h.matchEntry_eq_none key hpair, map_none] at hresult
    split_ifs at hresult
    exact hresult.symm

end

/-- Replacing an element changes a count by one at most. -/
theorem countP_le_countP_set (l : List ℕ) (i a : ℕ) (p : ℕ → Bool) :
    l.countP p ≤ (l.set i a).countP p + 1 := by
  rcases lt_or_ge i l.length with hi | hi
  · rw [countP_set hi]
    split <;> omega
  · rw [set_eq_of_length_le hi]
    omega

/-- **Every key is inserted as a new one.** -/
theorem Lost.setWithin (h : Lost m count) (hcount : count < 2 ^ 32) (keys : KeyEquality K)
    (depth : ℕ) (key : K) (value : V) :
    ∃ m', setWithin keys (depth + 1) m key value = some m' ∧ Lost m' (count + 1) := by
  obtain ⟨i, hfind⟩ := h.findValueOrInsertPoint (by omega) keys key
  have hroom : m.usedData ≠ m.data.length := by
    rw [h.used_eq, h.data_length]
    omega
  refine ⟨Table.withEntry keys m key value i, ?_, ?_⟩
  · rw [Table.setWithin_eq, hfind, bind_some, if_neg (by omega), LinkedHashMap.insert,
      if_neg hroom, neg_neg]
    rfl
  constructor
  · rw [Table.withEntry, length_set, h.index_length]
  · rw [Table.withEntry, length_set, length_set, h.data_length]
  · exact h.mask
  · change m.usedData + 2 = _
    rw [h.used_eq]
    omega
  · intro pair hpair
    rcases mem_or_eq_of_mem_set hpair with hmem | rfl
    · exact h.pairs_lt pair hmem
    · exact Nat.mod_lt _ (Nat.two_pow_pos 32)
  · have hfree := h.free
    have hle := countP_le_countP_set m.index i
      ((m.patternOf keys key ||| m.usedData >>> 1) % 2 ^ 32)
      (· == unusedPair)
    rw [Table.withEntry]
    dsimp only
    omega

/-- Copying the entries writes pairs that are never found, by induction over the entries. -/
theorem Lost.copy (keys : KeyEquality K) {entries : List (Option (K × V))} (rest : List (Datum K V))
    (hentries : ∀ e ∈ entries, e.isSome) (hlength : entries.length < 2 ^ 32) (depth : ℕ)
    (h : Lost m 0) (n : ℕ) (hn : n ≤ entries.length) :
    ∃ m', (List.range n).foldlM
        (copyEntry (LinkedHashMap.setWithin keys (depth + 1)) (entries.flatMap cells ++ rest)) m =
          some m' ∧ Lost m' n := by
  induction n with
  | zero => exact ⟨m, rfl, h⟩
  | succ n ih =>
    obtain ⟨m₁, hfold, h1⟩ := ih (Nat.le_of_succ_le hn)
    obtain ⟨e, he⟩ : ∃ e, entries[n]? = some e := ⟨_, getElem?_eq_getElem hn⟩
    obtain ⟨⟨k, v⟩, rfl⟩ := isSome_iff_exists.mp (hentries e (mem_of_getElem? he))
    obtain ⟨hkey, hvalue⟩ := getElem?_flatMap_cells rest he
    obtain ⟨m', hset, h'⟩ := h1.setWithin (by omega) keys depth k v
    refine ⟨m', ?_, h'⟩
    rw [range_succ, foldlM_append, hfold]
    simp only [bind_eq_bind, bind_some, foldlM_cons, foldlM_nil, copyEntry,
      hkey, hvalue, cells, getElem?_cons_zero, getElem?_cons_succ, hset]
    rfl

/-! ## Growing past the limit -/

/-- **The growth that loses the keys**: a full index of `2 ^ 32` slots without deleted entries. -/
theorem Table.set_lost {entries : List (Option (K × V))} {slots : List (Slot (ℕ × K))}
    (hkeys : keys.Lawful) (h : Table keys m entries slots) (hlength : entries.length = 2 ^ 31)
    (hdeleted : m.deletedKeys = 0) {key : K}
    (hnone : ∀ e ∈ contents entries, keys.equals key e.1 = false) (value : V) :
    ∃ m', m.set keys key value = some m' ∧ Lost m' (2 ^ 31 + 1) := by
  have hused := h.used_eq
  have hfits := h.fits
  -- The size is the largest one, and no more than one bit of the mask is left.
  obtain ⟨p, -, hp, hindex, hdata⟩ := h.size.resolve_left fun hnew => by omega
  have hpow : 2 ^ (p + 1) ≤ 2 ^ 32 := Nat.pow_le_pow_right (by decide) (by omega)
  have hsize : m.index.length = 2 ^ 32 := by omega
  have hmask : m.hashMask >>> 1 = 0 := by
    obtain ⟨b, hb, hroom⟩ := h.mask
    rw [hsize] at hroom
    have hle : 2 ^ b ≤ 2 := by
      rcases hroom with rfl | hroom <;> omega
    omega
  rcases h.findValueOrInsertPoint_spec hkeys key with
    ⟨n, k, v, hequals, hentry, -⟩ | ⟨i, -, -, hfind⟩
  · exact absurd hequals (Bool.eq_false_iff.mp (hnone (k, v) (mem_contents.mpr ⟨n, hentry⟩)))
  have hsome : ∀ e ∈ entries, e.isSome := by
    rw [h.deleted_eq, countP_eq_zero] at hdeleted
    intro e he
    have hne := hdeleted e he
    cases e with
    | none => exact absurd rfl hne
    | some kv => rfl
  obtain ⟨m₁, hfold, h1⟩ := Lost.copy keys
    (replicate (m.data.length - 2 * entries.length) .null) hsome (by omega) 0
    (lost_fresh (m.dataId + 1)) entries.length (le_refl _)
  rw [← h.data_eq] at hfold
  rw [hlength] at h1
  obtain ⟨m', hset, h'⟩ := h1.setWithin (by omega) keys 0 key value
  refine ⟨m', ?_, h'⟩
  have hrehash : m.rehash keys (setWithin keys 1) = some m₁ := by
    rw [LinkedHashMap.rehash, if_neg (by rw [hdeleted]; omega), hmask, hsize,
      Table.init_eq keys m _ (by rw [initialIndexSize]; omega), hused,
      show (2 * entries.length + 1) / 2 = entries.length by omega]
    exact hfold
  rw [LinkedHashMap.set, Table.setWithin_eq, hfind, bind_some, if_neg (by omega),
    LinkedHashMap.insert, if_pos (by omega), hrehash]
  exact hset

/-! ## A program -/

/-- Inserts the numbers below `n`. -/
def fill (n : ℕ) : List (Call ℕ ℕ) := (List.range n).map fun i => .set i i

/-- The numbers below `n` with themselves as values. -/
def numbers (n : ℕ) : List (ℕ × ℕ) := (List.range n).map fun i => (i, i)

/-- A number is new to those below it. -/
theorem not_equals_numbers (n : ℕ) : ∀ e ∈ numbers n, intKeys.equals n e.1 = false := by
  intro e he
  obtain ⟨i, hi, rfl⟩ := mem_map.mp he
  rw [mem_range] at hi
  exact beq_false_of_ne (by omega)

/-- Inserting the next number. -/
theorem assign_numbers (n : ℕ) : assign intKeys (numbers n) n n = numbers (n + 1) := by
  rw [assign, if_neg, numbers, numbers, range_succ, map_append]
  · rfl
  · rw [List.any_eq_true]
    rintro ⟨e, he, hequals⟩
    exact Bool.eq_false_iff.mp (not_equals_numbers n e he) hequals

/-- A table of the first `n` numbers without deletions has `n` entries. -/
theorem Table.length_numbers {m : LinkedHashMap ℕ ℕ} {n : ℕ} (h : Table intKeys m entries slots)
    (hmap : contents entries = numbers n) (hdeleted : m.deletedKeys = 0) : entries.length = n := by
  have hcount := h.length_contents
  rw [hmap, numbers, length_map, length_range, hdeleted] at hcount
  exact hcount.symm

/-- Looking up 0 after inserting the numbers from `n` to `2 ^ 31`. -/
theorem getLast?_run {s : Machine ℕ ℕ} (left n : ℕ) (hn : n + left = 2 ^ 31)
    (htable : Table intKeys s.map entries slots) (hmap : contents entries = numbers n)
    (hdeleted : s.map.deletedKeys = 0) :
    let calls := (range' n (left + 1)).map (fun i => Call.set i i) ++ [.get 0]
    ∃ s' outcomes, s.run intKeys calls = some (s', outcomes) ∧
      outcomes.getLast? = some (.value none) ∧
      (FiniteMap.run intKeys ⟨numbers n, []⟩ calls).2.getLast? =
        some (.value (some (.value 0))) := by
  have hlength := htable.length_numbers hmap hdeleted
  induction left generalizing n s entries slots with
  -- The last insertion makes the index grow, and its pairs lose their patterns.
  | zero =>
    obtain ⟨m', hset, hlost⟩ := htable.set_lost intKeys_lawful (hlength.trans hn) hdeleted
      (by rw [hmap]; exact not_equals_numbers n) n
    refine ⟨{ s with map := m' }, [.done, .value none], ?_, rfl, ?_⟩
    · simp [run, call, hset, LinkedHashMap.get, hlost.find (by omega) intKeys]
    · change some (Outcome.value
        ((lookup intKeys (assign intKeys (numbers n) n n) 0).map .value)) = _
      rw [assign_numbers, numbers, range_succ_eq_map]
      rfl
  | succ left ih =>
    have hused := htable.used_eq
    have hfits : ¬s.map.Outgrows := by
      rintro ⟨hindex, hfull, -⟩
      rcases htable.size with ⟨hsize, -⟩ | ⟨p, -, -, hsize, hdata⟩ <;> omega
    obtain ⟨m', entries', slots', hset, htable', hmap', -, hdeleted'⟩ :=
      htable.set intKeys_lawful n (fun _ => hfits) n
    rw [hmap, assign_numbers] at hmap'
    have hzero : m'.deletedKeys = 0 := Nat.le_zero.mp (hdeleted ▸ hdeleted')
    obtain ⟨s', outcomes, hrun, hlast, hmapLast⟩ :=
      ih (s := { s with map := m' }) (n + 1) (by omega)
      htable' hmap' hzero (htable'.length_numbers hmap' hzero)
    refine ⟨s', .done :: outcomes, ?_, ?_, ?_⟩
    · rw [range'_succ, map_cons, cons_append, run, call, hset]
      simp [hrun]
    · rw [getLast?_cons, hlast]
      rfl
    · rw [range'_succ, map_cons, cons_append, FiniteMap.run]
      dsimp only [FiniteMap.call]
      rw [assign_numbers, getLast?_cons, hmapLast]
      rfl

/-- **The map loses its keys**: after more than `2 ^ 31` insertions, looking up the first key gives
null. -/
theorem linkedHashMap_loses_keys :
    ∃ s outcomes, run intKeys initial (fill (2 ^ 31 + 1) ++ [.get 0]) =
        some (s, outcomes) ∧
      outcomes.getLast? = some (.value none) ∧
      (FiniteMap.run intKeys FiniteMap.initial (fill (2 ^ 31 + 1) ++ [.get 0])).2.getLast? =
        some (.value (some (.value 0))) := by
  obtain ⟨entries, slots, htable, hmap⟩ :=
    (refines_initial : Refines intKeys (initial : Machine ℕ ℕ) _).table
  rw [fill, range_eq_range']
  exact getLast?_run (2 ^ 31) 0 (zero_add _) htable hmap rfl

end DartVm.CompactHash
