import DartVm.CompactHash.Pairs

/-! # Entries

The entries of a map in the order of insertion, where `none` is one that was deleted: how they lie
in `_data`, and which finite map they are.

* `found`: a key that is found gets its new value, or is deleted.
* `assign_notFound`: a key that is not found is added at the end. -/

namespace DartVm.CompactHash

open ListUpdate List Option

variable {K V : Type} {entries : List (Option (K × V))} {j : ℕ} {k : K} {v v' : V}

/-! ## Cells -/

/-- The two elements of `_data` for an entry. -/
def cells : Option (K × V) → List (Datum K V)
  | some (k, v) => [.key k, .value v]
  | none => [.deleted, .deleted]

/-- An entry takes two places of `_data`. -/
theorem length_cells (e : Option (K × V)) : (cells e).length = 2 := by
  cases e <;> rfl

theorem length_flatMap_cells (entries : List (Option (K × V))) :
    (entries.flatMap cells).length = 2 * entries.length := by
  induction entries with
  | nil => rfl
  | cons e entries ih =>
    rw [flatMap_cons, length_append, length_cells, length_cons]
    omega

/-- Where the key and the value of an entry are. -/
theorem getElem?_flatMap_cells (rest : List (Datum K V)) {e : Option (K × V)}
    (h : entries[j]? = some e) :
    (entries.flatMap cells ++ rest)[2 * j]? = (cells e)[0]? ∧
      (entries.flatMap cells ++ rest)[2 * j + 1]? = (cells e)[1]? := by
  obtain ⟨pre, post, rfl, hlen, -⟩ := exists_split h
  have hpre : (pre.flatMap cells).length = 2 * j := by rw [length_flatMap_cells, hlen]
  have hcells := length_cells e
  rw [flatMap_append, flatMap_cons, append_assoc, append_assoc]
  constructor
  · rw [getElem?_append_right (by omega), hpre, Nat.sub_self, getElem?_append_left (by omega)]
  · rw [getElem?_append_right (by omega), hpre, Nat.add_sub_cancel_left,
      getElem?_append_left (by omega)]

/-- Replacing both places of an entry replaces the entry. -/
theorem set_flatMap_cells (rest : List (Datum K V)) {e e' : Option (K × V)} {a b : Datum K V}
    (h : entries[j]? = some e) (he' : cells e' = [a, b]) :
    ((entries.flatMap cells ++ rest).set (2 * j) a).set (2 * j + 1) b =
      (entries.set j e').flatMap cells ++ rest := by
  obtain ⟨pre, post, rfl, hlen, hset⟩ := exists_split h
  have hpre : (pre.flatMap cells).length = 2 * j := by rw [length_flatMap_cells, hlen]
  obtain ⟨x, y, hxy⟩ : ∃ x y, cells e = [x, y] := List.length_eq_two.mp (length_cells e)
  simp only [hset, flatMap_append, flatMap_cons, append_assoc, hxy, he']
  rw [← hpre, ← Nat.add_zero (List.length _), set_append_length, Nat.add_zero, set_append_length]
  rfl

/-- Writing to the first free places appends an entry. -/
theorem append_flatMap_cells {room : ℕ} (k : K) (v : V) :
    ((entries.flatMap cells ++ List.replicate (room + 2) Datum.null).set (2 * entries.length)
        (.key k)).set (2 * entries.length + 1) (.value v) =
      (entries ++ [some (k, v)]).flatMap cells ++ List.replicate room Datum.null := by
  have hlen := length_flatMap_cells entries
  have hkey := set_append_length (entries.flatMap cells) (List.replicate (room + 2) Datum.null) 0
  simp only [Nat.add_zero, hlen] at hkey
  rw [hkey, ← hlen, set_append_length, flatMap_append, append_assoc]
  rfl

/-! ## Live entries -/

/-- The numbers and keys of the entries that are not deleted. -/
def live (entries : List (Option (K × V))) : List (ℕ × K) :=
  entries.zipIdx.filterMap fun e => e.1.map fun kv => (e.2, kv.1)

/-- A live entry holds its key. -/
theorem mem_live : (j, k) ∈ live entries ↔ ∃ v, entries[j]? = some (some (k, v)) := by
  simp only [live, mem_filterMap, map_eq_some_iff, Prod.mk.injEq, Prod.exists,
    mem_zipIdx_iff_getElem?]
  constructor
  · rintro ⟨e, i, hmem, k', v, rfl, rfl, rfl⟩
    exact ⟨v, hmem⟩
  · rintro ⟨v, hmem⟩
    exact ⟨some (k, v), j, hmem, k, v, rfl, rfl, rfl⟩

/-- Appending an entry makes it live. -/
theorem live_append (entries : List (Option (K × V))) (k : K) (v : V) :
    live (entries ++ [some (k, v)]) = live entries ++ [(entries.length, k)] := by
  rw [live, zipIdx_append, filterMap_append, Nat.zero_add]
  rfl

/-- A new value leaves the live keys. -/
theorem live_set_value (h : entries[j]? = some (some (k, v))) (v' : V) :
    live (entries.set j (some (k, v'))) = live entries := by
  obtain ⟨pre, post, rfl, rfl, hset⟩ := exists_split h
  rw [hset]
  simp [live, zipIdx_append]

/-- Deleting an entry takes out its key. -/
theorem live_set_none (h : entries[j]? = some (some (k, v))) :
    (live entries).Perm ((j, k) :: live (entries.set j none)) := by
  obtain ⟨pre, post, rfl, rfl, hset⟩ := exists_split h
  rw [hset]
  simp only [live, zipIdx_append, filterMap_append, zipIdx_cons,
    filterMap_cons, map_some, map_none, Nat.zero_add]
  exact perm_middle

/-! ## Finite maps -/

/-- The finite map that the entries stand for, in the order of insertion. -/
def contents (entries : List (Option (K × V))) : List (K × V) := entries.filterMap id

variable (keys : KeyEquality K) (a : List (K × V)) (key : K)

/-- The value for a key. -/
def lookup : Option V := (a.find? fun e => keys.equals key e.1).map (·.2)

/-- Gives a key a value: in its place, or at the end if the key is new. -/
def assign (value : V) : List (K × V) :=
  if a.any fun e => keys.equals key e.1 then
    a.map fun e => if keys.equals key e.1 then (e.1, value) else e
  else a ++ [(key, value)]

/-- Takes a key out. -/
def erase : List (K × V) := a.filter fun e => !keys.equals key e.1

/-- The keys are different. -/
def Apart : Prop := a.Pairwise fun e e' => keys.equals e.1 e'.1 = false

variable {keys a key}

/-- The contents around an entry. -/
theorem contents_split (pre post : List (Option (K × V))) (e : Option (K × V)) :
    contents (pre ++ e :: post) = contents pre ++ e.toList ++ contents post := by
  rw [contents, filterMap_append]
  cases e
  · rw [toList_none, append_nil]
    rfl
  · rw [append_assoc]
    rfl

/-- What the map contains are the pairs of its entries. -/
theorem mem_contents : (k, v) ∈ contents entries ↔ ∃ j : ℕ, entries[j]? = some (some (k, v)) := by
  rw [contents, mem_filterMap]
  simp only [id_eq, exists_eq_right]
  exact mem_iff_getElem?

theorem length_contents_add (entries : List (Option (K × V))) :
    (contents entries).length + entries.countP (·.isNone) = entries.length := by
  induction entries with
  | nil => rfl
  | cons e entries ih =>
    rw [countP_cons, length_cons]
    cases e with
    | none =>
      change (contents entries).length + (_ + 1) = _
      omega
    | some kv =>
      change (contents entries).length + 1 + (_ + 0) = _
      omega

section

variable {pre post : List (K × V)} (hkeys : keys.Lawful) (h : Apart keys (pre ++ [(k, v)] ++ post))
  (hkey : keys.equals key k)
include hkeys h hkey

/-- Around a key that has been found there is no other equal one. -/
theorem Apart.not_equals_of_split : ∀ e ∈ pre ++ post, keys.equals key e.1 = false := by
  rw [Apart, pairwise_append, pairwise_append] at h
  obtain ⟨⟨-, -, hpre⟩, -, hpost⟩ := h
  intro e he
  rw [Bool.eq_false_iff]
  intro hequals
  rcases mem_append.mp he with he | he
  · have hek := hkeys.trans _ _ _ (hkeys.symm _ _ hequals) hkey
    exact Bool.eq_false_iff.mp (hpre e he (k, v) (mem_singleton_self _)) hek
  · have hke := hkeys.trans _ _ _ (hkeys.symm _ _ hkey) hequals
    exact Bool.eq_false_iff.mp (hpost (k, v) (by simp) e he) hke

/-- Lookup, assignment and removal for a key that has been found. -/
theorem found_split (value : V) :
    lookup keys (pre ++ [(k, v)] ++ post) key = some v ∧
      assign keys (pre ++ [(k, v)] ++ post) key value = pre ++ [(k, value)] ++ post ∧
      erase keys (pre ++ [(k, v)] ++ post) key = pre ++ post := by
  have hothers := h.not_equals_of_split hkeys hkey
  have hpre : ∀ e ∈ pre, keys.equals key e.1 = false :=
    fun e he => hothers e (mem_append_left _ he)
  have hpost : ∀ e ∈ post, keys.equals key e.1 = false :=
    fun e he => hothers e (mem_append_right _ he)
  refine ⟨?_, ?_, ?_⟩
  · have hfind : pre.find? (fun e => keys.equals key e.1) = none := by
      rw [find?_eq_none]
      intro e he
      rw [hpre e he]
      exact Bool.false_ne_true
    rw [lookup, append_assoc, find?_append, hfind]
    simp [hkey]
  · have hmap : ∀ l : List (K × V), (∀ e ∈ l, keys.equals key e.1 = false) →
        l.map (fun e => if keys.equals key e.1 then (e.1, value) else e) = l := by
      intro l hl
      refine (map_congr_left fun e he => ?_).trans (List.map_id l)
      rw [hl e he]
      rfl
    rw [assign]
    rw [map_append, map_append, hmap pre hpre, hmap post hpost]
    simp [hkey]
  · have hfilter : ∀ l : List (K × V), (∀ e ∈ l, keys.equals key e.1 = false) →
        l.filter (fun e => !keys.equals key e.1) = l := by
      intro l hl
      rw [filter_eq_self]
      intro e he
      rw [hl e he]
      rfl
    rw [erase, filter_append, filter_append, hfilter pre hpre, hfilter post hpost]
    simp [hkey]

end

/-- **A key that is found**: its entry gets the new value, or is deleted. -/
theorem found (hkeys : keys.Lawful) (hapart : Apart keys (contents entries))
    (h : entries[j]? = some (some (k, v))) (hkey : keys.equals key k) (value : V) :
    lookup keys (contents entries) key = some v ∧
      assign keys (contents entries) key value = contents (entries.set j (some (k, value))) ∧
      erase keys (contents entries) key = contents (entries.set j none) := by
  obtain ⟨pre, post, rfl, -, hset⟩ := exists_split h
  rw [hset, hset]
  simp only [contents_split, toList_some, toList_none, append_nil] at hapart ⊢
  exact found_split hkeys hapart hkey value

section NotFound

variable (h : ∀ e ∈ contents entries, keys.equals key e.1 = false)

include h

/-- A key that has not been found has no value. -/
theorem lookup_notFound : lookup keys (contents entries) key = none := by
  rw [lookup, map_eq_none_iff, find?_eq_none]
  intro e he
  rw [h e he]
  exact Bool.false_ne_true

/-- **A key that is not found** is added at the end. -/
theorem assign_notFound (value : V) :
    assign keys (contents entries) key value = contents (entries ++ [some (key, value)]) := by
  rw [assign, if_neg, contents, contents, filterMap_append]
  · rfl
  · rw [List.any_eq_true]
    rintro ⟨e, he, hequals⟩
    exact Bool.eq_false_iff.mp (h e he) hequals

/-- Removing a key that has not been found changes nothing. -/
theorem erase_notFound : erase keys (contents entries) key = contents entries := by
  rw [erase, filter_eq_self]
  intro e he
  rw [h e he]
  rfl

end NotFound

/-! ## Different keys -/

/-- A new value keeps the keys apart. -/
theorem Apart.set_value (hapart : Apart keys (contents entries))
    (h : entries[j]? = some (some (k, v))) (v' : V) :
    Apart keys (contents (entries.set j (some (k, v')))) := by
  obtain ⟨pre, post, rfl, rfl, hset⟩ := exists_split h
  rw [hset]
  unfold Apart at hapart ⊢
  rw [contents_split] at hapart ⊢
  simpa [pairwise_append] using hapart

/-- Deleting keeps the keys apart. -/
theorem Apart.set_none (hapart : Apart keys (contents entries)) (j : ℕ) :
    Apart keys (contents (entries.set j none)) := by
  cases h : entries[j]? with
  | none => rwa [set_eq_of_length_le (List.getElem?_eq_none_iff.mp h)]
  | some e =>
    obtain ⟨pre, post, rfl, -, hset⟩ := exists_split h
    rw [hset]
    refine Pairwise.sublist ?_ hapart
    rw [contents_split, contents_split, toList_none, append_nil]
    exact (sublist_append_left _ _).append (Sublist.refl _)

/-- Inserting an absent key keeps the keys apart. -/
theorem Apart.append (hkeys : keys.Lawful) (hapart : Apart keys (contents entries))
    (h : ∀ e ∈ contents entries, keys.equals key e.1 = false) (value : V) :
    Apart keys (contents (entries ++ [some (key, value)])) := by
  rw [contents_split]
  refine pairwise_append.mpr ⟨?_, List.Pairwise.nil, by simp [contents]⟩
  refine pairwise_append.mpr ⟨hapart, pairwise_singleton _ _, fun e he e' he' => ?_⟩
  obtain rfl := mem_singleton.mp he'
  rw [Bool.eq_false_iff]
  exact fun hequals => Bool.eq_false_iff.mp (h e he) (hkeys.symm _ _ hequals)

end DartVm.CompactHash
