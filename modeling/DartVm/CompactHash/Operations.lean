import DartVm.CompactHash.Table

/-! # Operations on the table

Every operation keeps the invariant of the table and does to its entries what it should do to the
finite map.  A rehash leaves out deleted entries and so makes room.

* `set`, `remove`, `get`, `clear`: what the operations do to the entries.
* `rehash`: makes room, if the index can still grow.
* `iterate_eq`: iterators yield the entries in the order of insertion. -/

namespace DartVm.CompactHash

open OpenAddressing List

variable {K V : Type} {keys : KeyEquality K} {m m' : LinkedHashMap K V}
  {entries : List (Option (K × V))} {slots : List (Slot (ℕ × K))} {key : K} {value : V}
  {size hashMask n : ℕ} {k : K} {v : V} {i : ℕ}

namespace Table

/-! ## Changing entries -/

/-- The map with a new entry in a place of the index. -/
def withEntry (keys : KeyEquality K) (m : LinkedHashMap K V) (key : K) (value : V) (i : ℕ) :
    LinkedHashMap K V :=
  { m with
    index := m.index.set i
      ((m.patternOf keys key ||| m.usedData >>> 1) % 2 ^ 32)
    data := (m.data.set m.usedData (.key key)).set (m.usedData + 1) (.value value)
    usedData := m.usedData + 2 }

/-- How many entries are deleted after one has been replaced. -/
theorem countP_isNone_set (hentry : entries[n]? = some (some (k, v)))
    (e : Option (K × V)) :
    (entries.set n e).countP (·.isNone) = entries.countP (·.isNone) + e.isNone.toNat :=
  ListUpdate.countP_set hentry (·.isNone) e

section

variable (h : Table keys m entries slots)
include h

/-- **A pair is stored as it is.** -/
theorem pair_mod (hroom : m.usedData ≠ m.data.length) (key : K) :
    (m.patternOf keys key ||| m.usedData >>> 1) % 2 ^ 32 =
      pairOf keys m.hashMask m.index.length (.used (entries.length, key)) := by
  have hused := h.used_eq
  have hfits := h.fits
  have hhalf : m.usedData >>> 1 = entries.length := by
    rw [hused, Nat.shiftRight_eq_div_pow, Nat.mul_div_cancel_left _ (by decide)]
  rcases h.size with ⟨-, hdata⟩ | ⟨p, -, hp, hindex, hdata⟩
  · omega
  have hlt : entries.length < 2 ^ p := by
    omega
  have hmask := h.mask
  rw [hindex] at hmask
  rw [hhalf, pairOf, LinkedHashMap.patternOf, hindex, hashPattern_eq, mul_two_pow_or _ hlt]
  exact Nat.mod_eq_of_lt (pair_lt hmask hp _ hlt)

/-- Overwriting a value keeps the table. -/
theorem setValue (hentry : entries[n]? = some (some (k, v))) (value : V) :
    Table keys { m with data := m.data.set (2 * n + 1) (.value value) }
      (entries.set n (some (k, value))) slots := by
  obtain ⟨hkey, -⟩ := h.getElem?_data hentry
  have hlength : (entries.set n (some (k, value))).length = entries.length := length_set
  constructor
  · rw [length_set]
    exact h.size
  · exact h.mask
  · exact h.index_eq
  · exact h.probed
  · rw [live_set_value hentry]
    exact h.elems_perm
  · rw [hlength]
    exact h.free
  · rw [hlength, length_set]
    exact h.fits
  · have hself : m.data.set (2 * n) (.key k) = m.data := ListUpdate.set_eq_self hkey
    rw [hlength, length_set]
    conv_lhs => rw [← hself, h.data_eq]
    exact set_flatMap_cells _ hentry rfl
  · rw [hlength]
    exact h.used_eq
  · exact h.deleted_eq.trans (countP_isNone_set hentry (some (k, value))).symm
  · exact h.apart.set_value hentry value

/-- Deleting an entry and marking its slot keeps the table. -/
theorem setDeleted {i n : ℕ}
    (hentry : entries[n]? = some (some (k, v))) (hslot : slots[i]? = some (.used (n, k))) :
    Table keys
      { m with
        index := m.index.set i deletedPair
        data := (m.data.set (2 * n) .deleted).set (2 * n + 1) .deleted
        deletedKeys := m.deletedKeys + 1 }
      (entries.set n none) (slots.set i .deleted) := by
  have hlength : (entries.set n none).length = entries.length := length_set
  have hdata : ((m.data.set (2 * n) .deleted).set (2 * n + 1) .deleted).length = m.data.length := by
    rw [length_set, length_set]
  have hindex : (m.index.set i deletedPair).length = m.index.length := length_set
  constructor
  · rw [hindex, hdata]
    exact h.size
  · rw [hindex]
    exact h.mask
  · rw [hindex, map_set]
    exact congrArg (fun index : List ℕ => index.set i deletedPair) h.index_eq
  · rw [hindex]
    exact h.probed.set_deleted
  · have hperm := (elems_set_deleted hslot).symm.trans (h.elems_perm.trans (live_set_none hentry))
    exact hperm.cons_inv
  · have hcount := numFree_set hslot .deleted
    have hfree := h.free
    rw [hindex]
    simp only [Slot.isFree_used, Slot.isFree_deleted, Bool.toNat_false] at hcount
    omega
  · rw [hlength, hdata]
    exact h.fits
  · rw [hlength, hdata]
    conv_lhs => rw [h.data_eq]
    exact set_flatMap_cells _ hentry rfl
  · rw [hlength]
    exact h.used_eq
  · exact (congrArg (· + 1) h.deleted_eq).trans (countP_isNone_set hentry none).symm
  · exact h.apart.set_none n

theorem length_contents : (contents entries).length + m.deletedKeys = entries.length := by
  rw [h.deleted_eq, length_contents_add]

/-- `length` is the number of pairs. -/
theorem length_eq : m.length = (contents entries).length := by
  have hcount := h.length_contents
  rw [LinkedHashMap.length, h.used_eq, Nat.shiftRight_eq_div_pow,
    Nat.mul_div_cancel_left _ (by decide)]
  omega

/-- **`_insert`** where the list of data is not full. -/
theorem insert (hkeys : keys.Lawful)
    (hroom : m.usedData ≠ m.data.length) (hi : InsertPoint keys m slots key i)
    (hnone : ∀ e ∈ contents entries, keys.equals key e.1 = false) (value : V) :
    Table keys (withEntry keys m key value i) (entries ++ [some (key, value)])
      (slots.set i (.used (entries.length, key))) := by
  have hused := h.used_eq
  have hfits := h.fits
  obtain ⟨x, hx, hxelem, hxfree⟩ : ∃ x : Slot (ℕ × K), slots[i]? = some x ∧ x.elem = none ∧
      x.isFree.toNat ≤ 1 := by
    rcases hi.slot with hslot | hslot
    · exact ⟨_, hslot, rfl, le_refl 1⟩
    · exact ⟨_, hslot, rfl, Nat.zero_le 1⟩
  have hindex : (withEntry keys m key value i).index.length = m.index.length := length_set
  have hdata : (withEntry keys m key value i).data.length = m.data.length := by
    rw [withEntry, length_set, length_set]
  -- Entries come in pairs of elements, so there is room for two of them.
  have heven : 2 * entries.length + 2 ≤ m.data.length := by
    rcases h.size with ⟨-, hsize⟩ | ⟨p, -, -, -, hsize⟩
    · omega
    · omega
  constructor
  · rw [hindex, hdata]
    exact h.size
  · rw [hindex]
    exact h.mask
  · rw [hindex, map_set]
    change m.index.set i _ = _
    rw [h.pair_mod hroom key]
    exact congrArg (fun index : List ℕ => index.set i
      (pairOf keys m.hashMask m.index.length (.used (entries.length, key)))) h.index_eq
  · rw [hindex]
    exact h.probed.set_used hi.reaches
  · rw [live_append]
    exact (elems_set_used hx hxelem).trans
      ((h.elems_perm.cons _).trans (perm_append_singleton _ _).symm)
  · have hcount := numFree_set hx (.used (entries.length, key))
    have hfree := h.free
    rw [length_append, length_singleton]
    omega
  · rw [length_append, length_singleton]
    omega
  · obtain ⟨room, hroom'⟩ : ∃ room, m.data.length - 2 * entries.length = room + 2 :=
      ⟨m.data.length - 2 * entries.length - 2, by omega⟩
    have hrest : m.data.length - 2 * (entries ++ [some (key, value)]).length = room := by
      rw [length_append, length_singleton]
      omega
    rw [hdata, hrest, withEntry]
    conv_lhs => rw [h.data_eq]
    rw [hused, hroom', append_flatMap_cells]
  · change m.usedData + 2 = _
    rw [length_append, length_singleton]
    omega
  · change m.deletedKeys = _
    rw [countP_append, h.deleted_eq]
    rfl
  · exact h.apart.append hkeys hnone value

end

end Table

/-! ## Maps after an operation -/

namespace LinkedHashMap

/-- The search looks at the index and the keys only. -/
theorem findValueOrInsertPoint_congr (hindex : m'.index = m.index)
    (hdata : ∀ entry : ℕ, m'.data[entry <<< 1]? = m.data[entry <<< 1]?) :
    m'.findValueOrInsertPoint keys = m.findValueOrInsertPoint keys := by
  have hresult : m'.findResult keys = m.findResult keys := by
    funext key pattern size s
    simp only [findResult, matchEntry, hindex, hdata]
  funext key hash pattern size
  simp only [findValueOrInsertPoint, hresult, hindex]

/-- **What `_isModifiedSince` can see.** A changed map has other data or a larger check sum, unless
only values change. -/
def Evolves (keys : KeyEquality K) (m m' : LinkedHashMap K V) : Prop :=
  m.dataId < m'.dataId ∨ m.dataId = m'.dataId ∧ (m.checkSum < m'.checkSum ∨
    m.checkSum = m'.checkSum ∧ m'.index.length = m.index.length ∧ m'.hashMask = m.hashMask ∧
      m'.findValueOrInsertPoint keys = m.findValueOrInsertPoint keys)

/-- Nothing happens. -/
theorem evolves_refl (m : LinkedHashMap K V) : Evolves keys m m :=
  Or.inr ⟨rfl, Or.inr ⟨rfl, rfl, rfl, rfl⟩⟩

/-- Overwriting a value is a step that waiting calls need not see. -/
theorem evolves_setValue (m : LinkedHashMap K V) (n : ℕ) (value : V) :
    Evolves keys m { m with data := m.data.set (2 * n + 1) (.value value) } := by
  refine .inr ⟨rfl, .inr ⟨rfl, rfl, rfl, findValueOrInsertPoint_congr rfl fun entry => ?_⟩⟩
  refine getElem?_set_ne fun heq => ?_
  omega

/-- A later state of a map: it has another list of data, or the same one with no less in use. -/
def Later (m m' : LinkedHashMap K V) : Prop :=
  m.dataId < m'.dataId ∨ m.dataId = m'.dataId ∧ m.usedData ≤ m'.usedData

theorem Later.refl (m : LinkedHashMap K V) : Later m m := .inr ⟨rfl, le_rfl⟩

theorem Later.trans {m m' m'' : LinkedHashMap K V} (h : Later m m') (h' : Later m' m'') :
    Later m m'' := by
  unfold Later at *
  omega

/-- A change that does not delete leads to a later state. -/
theorem Evolves.later {m m' : LinkedHashMap K V} (h : Evolves keys m m')
    (hdeleted : m'.deletedKeys ≤ m.deletedKeys) : Later m m' := by
  unfold Later
  rcases h with hlt | ⟨heq, hsum | ⟨hsum, -⟩⟩
  · exact .inl hlt
  all_goals
    simp only [checkSum] at hsum
    omega

/-- The index has no room for pairs of 32 bits after the growth that the next insertion causes. -/
def Outgrows (m : LinkedHashMap K V) : Prop :=
  2 ^ 32 ≤ m.index.length ∧ m.usedData = m.data.length ∧ m.deletedKeys <<< 2 ≤ m.usedData

/-- Setting the key does not make the index outgrow pairs of 32 bits: it grows for absent keys
only. -/
def HasRoomFor (keys : KeyEquality K) (m : LinkedHashMap K V) (key : K) : Prop :=
  m.get keys key = some none → ¬m.Outgrows

end LinkedHashMap

namespace Table

open LinkedHashMap

/-! ## Setting where there is room -/

/-- `[]=` in terms of the search for the key. -/
theorem setWithin_eq (depth : ℕ) (m : LinkedHashMap K V) (key : K) (value : V) :
    setWithin keys (depth + 1) m key value =
      (m.findValueOrInsertPoint keys key (keys.hashCode key)
        (m.patternOf keys key) m.index.length).bind fun d =>
      if d > 0 then some { m with data := m.data.set d.toNat (.value value) }
      else m.insert keys (setWithin keys depth) key value
        (m.patternOf keys key) (-d).toNat := rfl

section

variable (h : Table keys m entries slots) (hkeys : keys.Lawful)
include h hkeys

/-- **`operator []=`** for a key that is in the map. -/
theorem setWithin_found (depth : ℕ)
    (value : V) (hfound : ∃ e ∈ contents entries, keys.equals key e.1) :
    ∃ m' entries', setWithin keys (depth + 1) m key value = some m' ∧ Table keys m' entries' slots ∧
      contents entries' = assign keys (contents entries) key value ∧ Evolves keys m m' ∧
      m'.deletedKeys ≤ m.deletedKeys := by
  rcases h.findValueOrInsertPoint_spec hkeys key with
    ⟨n, k, v, hequals, hentry, hfind⟩ | ⟨i, hnone, -, -⟩
  · refine ⟨_, _, ?_, h.setValue hentry value, (found hkeys h.apart hentry hequals value).2.1.symm,
      evolves_setValue m n value, le_rfl⟩
    rw [setWithin_eq, hfind, Option.bind_some, if_pos (by omega)]
    congr 1
  · obtain ⟨e, he, hequals⟩ := hfound
    exact absurd hequals (Bool.eq_false_iff.mp (hnone e he))

/-- **`operator []=`** for a new key while there is room. -/
theorem setWithin_room (depth : ℕ) (value : V) (hroom : m.usedData ≠ m.data.length)
    (hnone : ∀ e ∈ contents entries, keys.equals key e.1 = false) :
    ∃ i, setWithin keys (depth + 1) m key value = some (withEntry keys m key value i) ∧
      Table keys (withEntry keys m key value i) (entries ++ [some (key, value)])
        (slots.set i (.used (entries.length, key))) := by
  rcases h.findValueOrInsertPoint_spec hkeys key with
    ⟨n, k, v, hequals, hentry, -⟩ | ⟨i, -, hi, hfind⟩
  · exact absurd hequals (Bool.eq_false_iff.mp (hnone (k, v) (mem_contents.mpr ⟨n, hentry⟩)))
  · refine ⟨i, ?_, h.insert hkeys hroom hi hnone value⟩
    rw [setWithin_eq, hfind, Option.bind_some, if_neg (by omega), LinkedHashMap.insert,
      if_neg hroom, neg_neg]
    rfl

end

/-! ## Rehashing -/

/-- The initial size is a good size. -/
theorem goodSize_initial : GoodSize initialIndexSize initialIndexSize :=
  .inr ⟨2, by decide, by decide, rfl, rfl⟩

/-- An index of unused slots is a table without entries. -/
theorem fresh (keys : KeyEquality K) (V : Type) (hsize : GoodSize size size)
    (hmask : RoomyMask hashMask size) (dataId : ℕ) :
    Table keys (⟨List.replicate size unusedPair, hashMask, List.replicate size .null,
      dataId, 0, 0⟩ :
      LinkedHashMap K V) [] (List.replicate size .free) := by
  have hindex : (List.replicate size unusedPair).length = size := length_replicate
  have hdata : (List.replicate size (Datum.null : Datum K V)).length = size := length_replicate
  constructor
  · rw [hindex, hdata]
    exact hsize
  · rw [hindex]
    exact hmask
  · rw [map_replicate]
    rfl
  · exact probed_replicate size
  · rw [elems_replicate]
    exact List.Perm.refl _
  · rw [numFree, countP_replicate]
    simp
  · exact Nat.zero_le _
  · rw [hdata]
    rfl
  · rfl
  · rfl
  · exact List.Pairwise.nil

/-- The entries without those that are deleted. -/
def compacted (entries : List (Option (K × V))) : List (Option (K × V)) :=
  (contents entries).map some

/-- Compacting keeps the pairs and their order. -/
theorem contents_compacted (entries : List (Option (K × V))) :
    contents (compacted entries) = contents entries := by
  rw [compacted, contents, filterMap_map]
  exact filterMap_some

/-- The contents of one more entry. -/
theorem contents_take_succ {e : Option (K × V)} (he : entries[n]? = some e) :
    contents (entries.take (n + 1)) = contents (entries.take n) ++ e.toList := by
  rw [take_add_one, he]
  have hsplit := contents_split (entries.take n) [] e
  rwa [show contents ([] : List (Option (K × V))) = [] from rfl, append_nil] at hsplit

theorem length_contents_take_le (entries : List (Option (K × V))) (n : ℕ) :
    (contents (entries.take n)).length ≤ (contents entries).length :=
  ((take_sublist n entries).filterMap id).length_le

/-- A live key is new to what has been copied before it. -/
theorem not_equals_take (hkeys : keys.Lawful) (hapart : Apart keys (contents entries))
    (he : entries[n]? = some (some (k, v))) :
    ∀ e ∈ contents (entries.take n), keys.equals k e.1 = false := by
  intro e hmem
  have hsplit : Apart keys (contents (entries.take (n + 1))) :=
    hapart.sublist ((take_sublist (n + 1) entries).filterMap id)
  rw [contents_take_succ he] at hsplit
  have hne := (pairwise_append.mp hsplit).2.2 e hmem (k, v) (by simp)
  rw [Bool.eq_false_iff] at hne ⊢
  exact fun hequals => hne (hkeys.symm _ _ hequals)

/-- **The loop of `_init`** copies the entries that are not deleted, and does not rehash. -/
theorem copy (hkeys : keys.Lawful) (hapart : Apart keys (contents entries))
    (rest : List (Datum K V))
    (depth : ℕ) {new : LinkedHashMap K V} {newSlots : List (Slot (ℕ × K))}
    (hnew : Table keys new [] newSlots) (hroom : 2 * (contents entries).length ≤ new.data.length)
    (n : ℕ) (hn : n ≤ entries.length) :
    ∃ m slots, (List.range n).foldlM
        (copyEntry (setWithin keys (depth + 1)) (entries.flatMap cells ++ rest)) new = some m ∧
      Table keys m (compacted (entries.take n)) slots ∧ m.dataId = new.dataId ∧
      m.data.length = new.data.length ∧ m.index.length = new.index.length := by
  induction n with
  | zero => exact ⟨new, newSlots, rfl, hnew, rfl, rfl, rfl⟩
  | succ n ih =>
    obtain ⟨m, slots, hfold, htable, hid, hdata, hindex⟩ := ih (Nat.le_of_succ_le hn)
    obtain ⟨e, he⟩ : ∃ e, entries[n]? = some e := ⟨_, getElem?_eq_getElem hn⟩
    obtain ⟨hkey, hvalue⟩ := getElem?_flatMap_cells rest he
    rw [range_succ, foldlM_append, hfold]
    simp only [Option.bind_eq_bind, Option.bind_some, foldlM_cons, foldlM_nil, copyEntry,
      hkey, hvalue, compacted, contents_take_succ he]
    -- A deleted entry is passed over; any other one is new and finds room.
    cases e with
    | none =>
      refine ⟨m, slots, rfl, ?_, hid, hdata, hindex⟩
      rw [Option.toList_none, append_nil]
      exact htable
    | some kv =>
      obtain ⟨k, v⟩ := kv
      have hlength : (contents (entries.take n)).length + 1 ≤ (contents entries).length := by
        have hle := length_contents_take_le entries (n + 1)
        rwa [contents_take_succ he, length_append] at hle
      have hused := htable.used_eq
      rw [compacted, length_map] at hused
      have hnone : ∀ e ∈ contents (compacted (entries.take n)), keys.equals k e.1 = false := by
        rw [contents_compacted]
        exact not_equals_take hkeys hapart he
      obtain ⟨i, hset, htable'⟩ := htable.setWithin_room hkeys depth v (by omega) hnone
      refine ⟨withEntry keys m k v i,
        slots.set i (.used ((compacted (entries.take n)).length, k)), ?_, ?_, hid, ?_, ?_⟩
      · simp only [cells, getElem?_cons_zero, getElem?_cons_succ, hset]
        rfl
      · rw [map_append]
        exact htable'
      · rw [withEntry, length_set, length_set]
        exact hdata
      · rw [withEntry, length_set]
        exact hindex

/-- A new size, where sizes below the initial one are replaced by it. -/
theorem init_eq (keys : KeyEquality K) (m : LinkedHashMap K V)
    (set : LinkedHashMap K V → K → V → Option (LinkedHashMap K V))
    (hsize : initialIndexSize ≤ size) (oldData : List (Datum K V)) (oldUsed : ℕ) :
    m.init keys set size hashMask oldData oldUsed =
      (List.range ((oldUsed + 1) / 2)).foldlM (copyEntry set oldData)
        ⟨List.replicate size unusedPair, hashMask, List.replicate size .null,
          m.dataId + 1, 0, 0⟩ := by
  rw [LinkedHashMap.init]
  simp [not_lt.mpr hsize]

/-- The loop of the iterator from an entry on: it skips the deleted ones. -/
theorem iterate_flatMap_cells (entries : List (Option (K × V))) (rest : List (Datum K V))
    (n offset : ℕ) (hoffset : offset < 2) (hn : n ≤ entries.length) :
    iterate (entries.flatMap cells ++ rest) (2 * entries.length)
        (2 * (entries.length - n) + offset) =
      (contents (entries.drop (entries.length - n))).map fun e =>
        if offset = 0 then .key e.1 else .value e.2 := by
  induction n with
  | zero =>
    rw [LinkedHashMap.iterate, if_neg (by omega), Nat.sub_zero, drop_length]
    rfl
  | succ n ih =>
    have hlt : entries.length - (n + 1) < entries.length := by omega
    obtain ⟨hkey, hvalue⟩ := getElem?_flatMap_cells rest (getElem?_eq_getElem hlt)
    have hget : (entries.flatMap cells ++ rest)[2 * (entries.length - (n + 1)) + offset]? =
        (cells entries[entries.length - (n + 1)])[offset]? := by
      rcases Nat.le_one_iff_eq_zero_or_eq_one.mp (Nat.le_of_lt_succ hoffset) with rfl | rfl
      · exact hkey
      · exact hvalue
    have hnext : 2 * (entries.length - (n + 1)) + offset + 2 =
        2 * (entries.length - n) + offset := by
      omega
    have hdrop : entries.drop (entries.length - (n + 1)) =
        entries[entries.length - (n + 1)] :: entries.drop (entries.length - n) := by
      rw [drop_eq_getElem_cons hlt]
      congr 2
      omega
    rw [LinkedHashMap.iterate, if_pos (by omega), hget, hnext, ih (by omega), hdrop]
    rcases Nat.le_one_iff_eq_zero_or_eq_one.mp (Nat.le_of_lt_succ hoffset) with rfl | rfl <;>
      cases entries[entries.length - (n + 1)] <;> rfl

variable (h : Table keys m entries slots)
include h

/-- **`clear`** keeps the hash mask of the larger index. -/
theorem clear :
    ∃ m' entries' slots', m.clear keys = some m' ∧ Table keys m' entries' slots' ∧
      contents entries' = [] ∧ Evolves keys m m' ∧ m'.deletedKeys ≤ m.deletedKeys := by
  rw [LinkedHashMap.clear, h.length_eq]
  split
  next hempty =>
    exact ⟨m, entries, slots, rfl, h, length_eq_zero_iff.mp hempty, evolves_refl m, le_rfl⟩
  next hne =>
    have hmask : RoomyMask m.hashMask initialIndexSize := by
      obtain ⟨b, hb, hsize⟩ := h.mask
      refine ⟨b, hb, hsize.imp_right fun hle => Nat.le_trans (Nat.mul_le_mul_left _ ?_) hle⟩
      have hfits := h.fits
      have hcount := h.length_contents
      rcases h.size with ⟨-, hdata⟩ | ⟨p, hp, -, hindex, -⟩
      · omega
      · have hpow : 2 ^ 3 ≤ 2 ^ (p + 1) := Nat.pow_le_pow_right (by decide) (by omega)
        rw [hindex]
        exact hpow
    have hnew := fresh keys V goodSize_initial hmask (m.dataId + 1)
    refine ⟨_, _, _, ?_, hnew, rfl, .inl (Nat.lt_succ_self _), Nat.zero_le _⟩
    rfl

/-- Iterating over the first entries gives their keys or values in order. -/
theorem iterate_take {n offset : ℕ} (hn : n ≤ entries.length) (hoffset : offset < 2) :
    iterate m.data (2 * n) offset =
      (contents (entries.take n)).map fun e => if offset = 0 then .key e.1 else .value e.2 := by
  have hlen : (entries.take n).length = n := length_take_of_le hn
  have hiterate := iterate_flatMap_cells (entries.take n) ((entries.drop n).flatMap cells ++
    List.replicate (m.data.length - 2 * entries.length) .null) n offset hoffset hlen.ge
  rw [← append_assoc, ← flatMap_append, take_append_drop, ← h.data_eq, hlen]
    at hiterate
  simpa using hiterate

/-- **Iterators** yield the keys and the values in the order of insertion. -/
theorem iterate_eq :
    iterate m.data m.usedData 0 = (contents entries).map (fun e => .key e.1) ∧
      iterate m.data m.usedData 1 = (contents entries).map (fun e => .value e.2) := by
  have hkeys := h.iterate_take le_rfl (show 0 < 2 by decide)
  have hvalues := h.iterate_take le_rfl (show 1 < 2 by decide)
  rw [take_length, ← h.used_eq] at hkeys hvalues
  exact ⟨hkeys, hvalues⟩

variable (hkeys : keys.Lawful)
include hkeys

/-- **`_init`** with the old entries. -/
theorem init (depth : ℕ)
    (hinitial : initialIndexSize ≤ size) (hsize : GoodSize size size)
    (hmask : RoomyMask hashMask size)
    (hroom : 2 * (contents entries).length ≤ size) :
    ∃ m' slots', m.init keys
      (setWithin keys (depth + 1)) size hashMask m.data m.usedData = some m' ∧
      Table keys m' (compacted entries) slots' ∧ m'.dataId = m.dataId + 1 ∧
      m'.data.length = size := by
  have hnew := fresh keys V hsize hmask (m.dataId + 1)
  have hhalf : (m.usedData + 1) / 2 = entries.length := by
    rw [h.used_eq]
    omega
  obtain ⟨m', slots', hfold, htable, hid, hdata, -⟩ := copy hkeys h.apart
    (List.replicate (m.data.length - 2 * entries.length) .null) depth hnew
    (by rw [length_replicate]; exact hroom) entries.length le_rfl
  rw [take_length] at htable
  rw [length_replicate] at hdata
  refine ⟨m', slots', ?_, htable, hid, hdata⟩
  rw [init_eq keys m _ hinitial, hhalf]
  rwa [← h.data_eq] at hfold

/-- **`_rehash`** makes room, if the index can still grow. -/
theorem rehash (depth : ℕ) (hfull : m.usedData = m.data.length) (hfits : ¬m.Outgrows) :
    ∃ m' slots', m.rehash keys (setWithin keys (depth + 1)) = some m' ∧
      Table keys m' (compacted entries) slots' ∧ m.dataId < m'.dataId ∧
      m'.usedData ≠ m'.data.length := by
  have hcount := h.length_contents
  have hused := h.used_eq
  have hcompacted : (compacted entries).length = (contents entries).length := length_map _
  rw [LinkedHashMap.rehash]
  rcases h.size with ⟨hindex, hdata⟩ | ⟨p, hp, hp', hindex, hdata⟩
  · -- A new map gets its first index.
    have hempty : entries = [] := length_eq_zero_iff.mp (by omega)
    subst hempty
    have hdeleted : m.deletedKeys = 0 := h.deleted_eq
    rw [if_neg (by rw [hdeleted]; omega)]
    have hmask : RoomyMask (indexSizeToHashMask keys.has63BitSmis initialIndexSize)
        initialIndexSize := by
      cases keys.has63BitSmis
      · exact ⟨28, by decide, .inr (by decide)⟩
      · exact ⟨30, by decide, .inr (by decide)⟩
    have hnew := fresh keys V goodSize_initial hmask (m.dataId + 1)
    refine ⟨_, _, ?_, hnew, Nat.lt_succ_self _, ?_⟩
    · rw [LinkedHashMap.init, hindex, hused]
      rw [show (2 * ([] : List (Option (K × V))).length + 1) / 2 = 0 by simp]
      rfl
    · exact (by decide : 0 ≠ initialIndexSize)
  · have hpow : 2 ^ 2 ≤ 2 ^ p := Nat.pow_le_pow_right (by decide) hp
    split
    next hdeleted =>
      -- The size stays, and deleted entries make room.
      have hgood : GoodSize m.index.length m.index.length :=
        .inr ⟨p, hp, hp', hindex, hindex⟩
      obtain ⟨m', slots', hinit, htable, hid, hsize⟩ := h.init hkeys depth
        (by rw [initialIndexSize]; omega) hgood h.mask (by omega)
      have hused' := htable.used_eq
      exact ⟨m', slots', hinit, htable, by omega, by omega⟩
    next hdeleted =>
      have hlt : p + 1 < 32 := by
        by_contra hge
        have hle : 2 ^ 32 ≤ 2 ^ (p + 1) := Nat.pow_le_pow_right (by decide) (Nat.not_lt.mp hge)
        exact hfits ⟨by omega, hfull, by rw [Nat.shiftLeft_eq]; omega⟩
      have hdouble : m.index.length <<< 1 = 2 ^ (p + 1 + 1) := by
        rw [Nat.shiftLeft_eq, hindex, Nat.pow_succ 2 (p + 1)]
      have hgood : GoodSize (m.index.length <<< 1) (m.index.length <<< 1) :=
        .inr ⟨p + 1, by omega, by omega, hdouble, hdouble⟩
      obtain ⟨m', slots', hinit, htable, hid, hsize⟩ := h.init hkeys depth
        (by rw [initialIndexSize]; omega) hgood h.mask.halve (by omega)
      have hused' := htable.used_eq
      exact ⟨m', slots', hinit, htable, by omega, by omega⟩

/-! ## The operations -/

/-- **`operator []`.** -/
theorem get (key : K) :
    m.get keys key = some ((lookup keys (contents entries) key).map .value) := by
  rw [LinkedHashMap.get]
  rcases h.find_spec hkeys key with ⟨i, n, k, v, hequals, hentry, hslot, hfind⟩ | ⟨hnone, hfind⟩
  · obtain ⟨hlookup, -⟩ := found hkeys h.apart hentry hequals v
    simp only [hfind, Option.bind_eq_bind, Option.bind_some, (h.getElem?_data hentry).2, hlookup]
    rfl
  · rw [hfind, lookup_notFound hnone]
    rfl

/-- A key that is not there has no value. -/
theorem get_absent (hnone : ∀ e ∈ contents entries, keys.equals key e.1 = false) :
    m.get keys key = some none := by
  rw [h.get hkeys, lookup_notFound hnone, Option.map_none]

/-- **`_insert`**, which rehashes first if the list of data is full. -/
theorem insertWithin (depth : ℕ) (hfits : ¬m.Outgrows) (hi : InsertPoint keys m slots key i)
    (hnone : ∀ e ∈ contents entries, keys.equals key e.1 = false) (value : V) :
    ∃ m' entries' slots', m.insert keys (setWithin keys (depth + 1)) key value
        (m.patternOf keys key) i = some m' ∧
      Table keys m' entries' slots' ∧
      contents entries' = assign keys (contents entries) key value ∧ Evolves keys m m' ∧
      m'.deletedKeys ≤ m.deletedKeys := by
  rw [LinkedHashMap.insert]
  split
  next hfull =>
    obtain ⟨m₁, slots₁, hrehash, htable, hid, hroom⟩ := h.rehash hkeys depth hfull hfits
    rw [← contents_compacted] at hnone
    obtain ⟨i', hset, htable'⟩ := htable.setWithin_room hkeys depth value hroom hnone
    refine ⟨_, _, _, ?_, htable', ?_, .inl hid, ?_⟩
    · rw [hrehash]
      exact hset
    · rw [← contents_compacted entries]
      exact (assign_notFound hnone value).symm
    · have hdeleted := htable.length_contents
      rw [contents_compacted, compacted, length_map] at hdeleted
      change m₁.deletedKeys ≤ _
      omega
  next hroom =>
    refine ⟨_, _, _, rfl, h.insert hkeys hroom hi hnone value,
      (assign_notFound hnone value).symm, ?_,
      le_rfl⟩
    refine .inr ⟨rfl, .inl ?_⟩
    change m.usedData + m.deletedKeys < m.usedData + 2 + m.deletedKeys
    omega

/-- **`operator []=`.** -/
theorem set (key : K) (hfits : m.HasRoomFor keys key) (value : V) :
    ∃ m' entries' slots', m.set keys key value = some m' ∧ Table keys m' entries' slots' ∧
      contents entries' = assign keys (contents entries) key value ∧ Evolves keys m m' ∧
      m'.deletedKeys ≤ m.deletedKeys := by
  rcases h.findValueOrInsertPoint_spec hkeys key with
    ⟨n, k, v, hequals, hentry, -⟩ | ⟨i, hnone, hi, hfind⟩
  · obtain ⟨m', entries', hset, hrest⟩ :=
      h.setWithin_found hkeys 1 value ⟨(k, v), mem_contents.mpr ⟨n, hentry⟩, hequals⟩
    exact ⟨m', entries', slots, hset, hrest⟩
  · rw [LinkedHashMap.set, setWithin_eq, hfind, Option.bind_some, if_neg (by omega), neg_neg]
    exact h.insertWithin hkeys 0 (hfits (h.get_absent hkeys hnone)) hi hnone value

/-- **`remove`.** -/
theorem remove (key : K) :
    ∃ m' entries' slots', m.remove keys key =
        some ((lookup keys (contents entries) key).map .value, m') ∧
      Table keys m' entries' slots' ∧ contents entries' = erase keys (contents entries) key ∧
      Evolves keys m m' ∧ Later m m' := by
  rw [LinkedHashMap.remove]
  rcases h.find_spec hkeys key with ⟨i, n, k, v, hequals, hentry, hslot, hfind⟩ | ⟨hnone, hfind⟩
  · obtain ⟨hlookup, -, herase⟩ := found hkeys h.apart hentry hequals v
    refine ⟨_, _, _, ?_, h.setDeleted hentry hslot, herase.symm, .inr ⟨rfl, .inl ?_⟩,
      .inr ⟨rfl, le_rfl⟩⟩
    · simp only [hfind, Option.bind_eq_bind, Option.bind_some, (h.getElem?_data hentry).2, hlookup]
      rfl
    · change m.usedData + m.deletedKeys < m.usedData + (m.deletedKeys + 1)
      omega
  · refine ⟨m, entries, slots, ?_, h, (erase_notFound hnone).symm, evolves_refl m, .refl m⟩
    rw [hfind, lookup_notFound hnone]
    rfl

end Table

end DartVm.CompactHash
