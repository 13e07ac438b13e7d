import DartVm.Library.Postcondition
import DartVm.Tables.HashTable

/-! # Hash maps of the VM are maps

`Run traits t m` relates a table to the map of the last values stored.  `hashMap_correct` says that
lookups in `t` agree with `m`, that the counters are right and that some entry is always unused, so
that every probe ends.

* `Inv.updateOrInsert`, `Inv.remove`, `Inv.getOrNull`: the operations.
* `Run.inv`: the invariant of every run.
* `hashMap_correct`: hash maps are maps. -/

namespace DartVm.HashTables

open ListUpdate OpenAddressing LoadFactor Postcondition List Option

variable {α K : Type} {traits : KeyTraits α K}

/-! ## Matching -/

section Traits

variable {k : K} {o o' : Object α}

section

variable (ho : IsKey o) (ho' : IsKey o') (h : traits.isMatch (traits.ofObject o) o')
include ho ho' h

/-- Matching of stored keys is symmetric. -/
theorem KeyTraits.isMatch_symm : traits.isMatch (traits.ofObject o') o :=
  (traits.isMatch_iff _ o' o ho' ho h).mp (traits.isMatch_self o ho)

/-- Keys that match each other match the same lookups. -/
theorem KeyTraits.isMatch_congr (k : K) : traits.isMatch k o ↔ traits.isMatch k o' := by
  constructor
  · exact fun hk => (traits.isMatch_iff k o o' ho ho' hk).mpr h
  · exact fun hk => (traits.isMatch_iff k o' o ho' ho hk).mpr (traits.isMatch_symm ho ho' h)

omit h in
/-- Keys that match the same lookup match each other. -/
theorem KeyTraits.isMatch_of_isMatch (h : traits.isMatch k o)
    (h' : traits.isMatch k o') : traits.isMatch (traits.ofObject o) o' :=
  (traits.isMatch_iff k o o' ho ho' h).mp h'

end

variable {m : K → Option (Object α)} {v v' : Option (Object α)}

/-- Matching keys are the same key of the map. -/
theorem store_congr (ho : IsKey o) (ho' : IsKey o') (h : traits.isMatch (traits.ofObject o) o') :
    store traits m o v = store traits m o' v := by
  funext k
  simp only [store, traits.isMatch_congr ho ho' h k]

/-- The last of two values that are stored for a key counts. -/
theorem store_store : store traits (store traits m o v) o v' = store traits m o v' := by
  funext k
  simp only [store]
  split_ifs <;> rfl

/-- Storing what is there changes nothing. -/
theorem store_eq_self (h : ∀ k, traits.isMatch k o → m k = v) : store traits m o v = m := by
  funext k
  simp only [store]
  split_ifs with hk
  · exact (h k hk).symm
  · rfl

end Traits

/-! ## Probing -/

/-- The marks in the array. -/
def marks (α : Type) : Marks (Entry α) (Object α) := ⟨Entry.key, unusedMarker, deletedMarker, nofun⟩

/-- The entries that are probed for the key. -/
def path (traits : KeyTraits α K) (numEntries : ℕ) (key : K) : ℕ → ℕ :=
  triangular numEntries (traits.hash key).toNat

/-- The paths on which the entries lie. -/
abbrev pathOf (traits : KeyTraits α K) (n : ℕ) (e : Entry α) : ℕ → ℕ :=
  path traits n (traits.ofObject e.key)

/-- The probes of a key, step by step. -/
theorem nextProbe_iterate (n j : ℕ) (key : K) :
    (nextProbe (2 ^ n))^[j] (firstProbe traits (2 ^ n) key) =
      (path traits (2 ^ n) key j, j + 1) := by
  have hnext : nextProbe (2 ^ n) = fun s => ((s.1 + s.2) % 2 ^ n, s.2 + 1) := by
    funext s
    exact Prod.ext (Nat.and_two_pow_sub_one_eq_mod ..) rfl
  rw [hnext, firstProbe, Nat.and_two_pow_sub_one_eq_mod]
  exact triangular_iterate ..

variable [DecidableEq α] {t t' : HashTable α} {e e' : Entry α} {key : K} {i j n : ℕ} {o : Object α}

/-- A search for the key ends at the entry. -/
def stopsAt (traits : KeyTraits α K) (key : K) (e : Entry α) : Bool :=
  e.key == unusedMarker || !(e.key == deletedMarker) && traits.isMatch key e.key

/-- The probing loop ends at the entries that stop it. -/
theorem endsAt_eq (t : HashTable α) (key : K) (i : ℕ) :
    endsAt traits t key i = t.entries[i]?.any (stopsAt traits key) := by
  unfold endsAt isUnused isDeleted isMatchAt
  cases t.entries[i]? <;> rfl

/-- A lookup stops at an unused entry or at its key. -/
theorem stopsAt_iff (e : Entry α) : stopsAt traits key e ↔
    e.key = unusedMarker ∨ (marks α).IsLive e ∧ traits.isMatch key e.key := by
  by_cases hunused : e.key = unusedMarker
  · simp [stopsAt, hunused]
  · simp [stopsAt, Marks.IsLive, marks, hunused]

section

variable (hsize : t.entries.length = 2 ^ n)
  (h : First t.entries (path traits (2 ^ n) key) (stopsAt traits key) j e)
include hsize h

/-- `FindKey` returns where its path stops. -/
theorem findKey_eq :
    findKey traits t key = some (if e.key = unusedMarker then none
      else some (path traits (2 ^ n) key j)) := by
  have hloop := h.loop_eq Prod.fst (fun j => congrArg Prod.fst (nextProbe_iterate n j key)) Prod.fst
  rw [nextProbe_iterate] at hloop
  simp only [findKey, endsAt_eq, hsize] at hloop ⊢
  simp only [hloop, bind_eq_bind, bind_some, isUnused, h.get, any_some,
    beq_iff_eq]

/-- `FindKeyOrDeletedOrUnused` returns where the search ends or an entry that was deleted. -/
theorem findKeyOrDeletedOrUnused_eq :
    ∃ deleted : Option ℕ, findKeyOrDeletedOrUnused traits t key = some (if e.key = unusedMarker then
        (false, deleted.getD (path traits (2 ^ n) key j))
      else (true, path traits (2 ^ n) key j)) ∧
      ∀ d ∈ deleted, ∃ i < j, d = path traits (2 ^ n) key i ∧
        ∃ e', t.entries[d]? = some e' ∧ e'.key = deletedMarker := by
  obtain ⟨deleted, hloop, hmark⟩ :=
    h.loop_remember Prod.fst (fun j => congrArg Prod.fst (nextProbe_iterate n j key))
      (·.key == deletedMarker)
  refine ⟨deleted, ?_, fun d hd => ?_⟩
  · rw [nextProbe_iterate] at hloop
    simp only [findKeyOrDeletedOrUnused, endsAt_eq, isDeleted, hsize] at hloop ⊢
    refine (congrArg (Option.bind · _) hloop).trans ?_
    simp [isUnused, h.get]
  · simpa using hmark d hd

end

/-! ## Invariant -/

/-- The entries are those of the map, one for each key. -/
structure Lists (traits : KeyTraits α K) (es : List (Entry α)) (m : K → Option (Object α)) :
    Prop where
  isKey : ∀ e ∈ es, IsKey e.key
  nodup : es.Nodup
  distinct : ∀ e ∈ es, ∀ e' ∈ es, traits.isMatch (traits.ofObject e.key) e'.key → e = e'
  valid : ∀ e ∈ es, ∀ k, traits.isMatch k e.key → m k = some e.payload
  complete : ∀ k, m k ≠ none → ∃ e ∈ es, traits.isMatch k e.key

variable {es es' : List (Entry α)} {m : K → Option (Object α)} {v : Object α}

omit [DecidableEq α] in
theorem Lists.perm (h : Lists traits es m) (hperm : es'.Perm es) : Lists traits es' m where
  isKey e he := h.isKey e (hperm.mem_iff.mp he)
  nodup := hperm.nodup_iff.mpr h.nodup
  distinct e he e' he' := h.distinct e (hperm.mem_iff.mp he) e' (hperm.mem_iff.mp he')
  valid e he := h.valid e (hperm.mem_iff.mp he)
  complete k hk := by
    obtain ⟨e, he, hmatch⟩ := h.complete k hk
    exact ⟨e, hperm.mem_iff.mpr he, hmatch⟩

omit [DecidableEq α] in
theorem lists_nil : Lists traits [] fun _ => none where
  isKey := by simp
  nodup := nodup_nil
  distinct := by simp
  valid := by simp
  complete := by simp

omit [DecidableEq α] in
/-- An entry with a new key extends the map. -/
theorem Lists.cons (h : Lists traits es m) (ho : IsKey o)
    (hnone : ∀ e ∈ es, ¬traits.isMatch (traits.ofObject o) e.key) :
    Lists traits (⟨o, v⟩ :: es) (store traits m o (some v)) := by
  constructor
  · rw [forall_mem_cons]
    exact ⟨ho, h.isKey⟩
  · rw [nodup_cons]
    exact ⟨fun hmem => hnone _ hmem (traits.isMatch_self o ho), h.nodup⟩
  · intro e he e' he' hmatch
    rcases mem_cons.mp he with rfl | he <;> rcases mem_cons.mp he' with rfl | he'
    · rfl
    · exact absurd hmatch (hnone e' he')
    · exact absurd (traits.isMatch_symm (h.isKey e he) ho hmatch) (hnone e he)
    · exact h.distinct e he e' he' hmatch
  · intro e he k hmatch
    rcases mem_cons.mp he with rfl | he
    · exact if_pos hmatch
    · have hnot : ¬traits.isMatch k o := fun hk =>
        hnone e he (traits.isMatch_of_isMatch ho (h.isKey e he) hk hmatch)
      rw [store, if_neg hnot]
      exact h.valid e he k hmatch
  · intro k hk
    by_cases hmatch : traits.isMatch k o
    · exact ⟨_, mem_cons_self .., hmatch⟩
    · rw [store, if_neg hmatch] at hk
      obtain ⟨e, he, hek⟩ := h.complete k hk
      exact ⟨e, mem_cons_of_mem _ he, hek⟩

omit [DecidableEq α] in
/-- The keys of the entries do not match each other. -/
theorem Lists.not_isMatch (h : Lists traits (e :: es) m) :
    ∀ e' ∈ es, ¬traits.isMatch (traits.ofObject e.key) e'.key := by
  intro e' he' hmatch
  have heq := h.distinct e (mem_cons_self ..) e' (mem_cons_of_mem _ he') hmatch
  exact (nodup_cons.mp h.nodup).1 (heq ▸ he')

omit [DecidableEq α] in
/-- Without its entry, a key has no value. -/
theorem Lists.of_cons (h : Lists traits (e :: es) m) :
    Lists traits es (store traits m e.key none) := by
  have hmem := fun e' (he' : e' ∈ es) => mem_cons_of_mem e he'
  have hkey := h.isKey e (mem_cons_self ..)
  refine ⟨fun e' he' => h.isKey e' (hmem e' he'), h.nodup.of_cons,
    fun e₁ h1 e₂ h2 => h.distinct e₁ (hmem e₁ h1) e₂ (hmem e₂ h2), fun e' he' k hmatch => ?_,
    fun k hk => ?_⟩
  · have hne : ¬traits.isMatch k e.key := fun hek =>
      h.not_isMatch e' he' (traits.isMatch_of_isMatch hkey (h.isKey e' (hmem e' he')) hek hmatch)
    rw [store, if_neg hne]
    exact h.valid e' (hmem e' he') k hmatch
  · by_cases hek : traits.isMatch k e.key
    · rw [store, if_pos hek] at hk
      exact absurd rfl hk
    rw [store, if_neg hek] at hk
    obtain ⟨e', he', hmatch⟩ := h.complete k hk
    rcases mem_cons.mp he' with rfl | he'
    · exact absurd hmatch hek
    · exact ⟨e', he', hmatch⟩

omit [DecidableEq α] in
/-- A key that matches no entry has no value. -/
theorem Lists.eq_none (h : Lists traits es m) (hnone : ∀ e ∈ es, ¬traits.isMatch key e.key) :
    m key = none := by
  by_contra hne
  obtain ⟨e, he, hmatch⟩ := h.complete key hne
  exact hnone e he hmatch

/-- **Invariant of hash tables**, with the entries of the map and the number of deleted ones. -/
structure Holds (traits : KeyTraits α K) (n : ℕ) (t : HashTable α) (m : K → Option (Object α))
    (es : List (Entry α)) (d : ℕ) : Prop where
  bound : 2 ^ n ≤ kMaxElements
  table : (marks α).Table (pathOf traits (2 ^ n)) (2 ^ n) t.entries es d
  lists : Lists traits es m
  numOccupied : t.numOccupied = es.length
  numDeleted : t.numDeleted = d
  free : es.length + d < 2 ^ n

/-- Some entries make the table one of the map. -/
def Inv (traits : KeyTraits α K) (t : HashTable α) (m : K → Option (Object α)) : Prop :=
  ∃ n es d, Holds traits n t m es d

variable {d : ℕ} {t₁ : HashTable α} {present : Bool} {c : ℕ}

/-- **Where a search ends**: at an entry that matches or, if there is none, at an unused one. -/
theorem exists_first_stopsAt (h : (marks α).Table (pathOf traits (2 ^ n)) (2 ^ n) t.entries es d)
    (hroom : es.length + d < 2 ^ n) (key : K) :
    ∃ j e, First t.entries (path traits (2 ^ n) key) (stopsAt traits key) j e ∧
      (e.key = unusedMarker ∧ (∀ e' ∈ es, ¬traits.isMatch key e'.key) ∨
        IsKey e.key ∧ e ∈ es ∧ traits.isMatch key e.key) := by
  have hcomplete : Complete t.entries.length (path traits (2 ^ n) key) := by
    rw [h.length_eq]
    exact triangular_complete n _
  obtain ⟨e, he, hfree⟩ := h.exists_free hroom
  have hstops : stopsAt traits key e := (stopsAt_iff e).mpr (.inl hfree)
  obtain ⟨j, x, hfirst⟩ := exists_first hcomplete he hstops
  refine ⟨j, x, hfirst, h.search hfirst _ stopsAt_iff fun a ha hmatch => ?_⟩
  -- Keys that match have one hash, hence one path.
  rw [pathOf, path, path, traits.hash_eq key a.key (h.mem_iff.mp ha).2 hmatch]

/-- The path of a lookup reaches every entry up to where it stops. -/
theorem reaches_of_stopsAt {k : ℕ} (hk : k ≤ j)
    (h : First t.entries (path traits (2 ^ n) key) (stopsAt traits key) j e) :
    Reaches ((marks α).slotsOf t.entries) (path traits (2 ^ n) key) (path traits (2 ^ n) key k) :=
  Marks.reaches_of_first h (fun a ha => (stopsAt_iff a).mpr (.inl ha)) hk

/-! ## Writing one entry -/

section

variable (h : Holds traits n t m es d) (he : t.entries[i]? = some e)
include h he

omit h in
/-- Writing a key and its value fills an entry. -/
theorem updatePayload_insertKey (o v : Object α) :
    updatePayload (insertKey t i o) i v =
      ⟨t.entries.set i ⟨o, v⟩, t.numOccupied + 1,
        if e.key = deletedMarker then t.numDeleted - 1 else t.numDeleted⟩ := by
  have hi := (List.getElem?_eq_some_iff.mp he).1
  have hget : (t.entries.set i { e with key := o })[i]? = some { e with key := o } :=
    getElem?_set_self hi
  simp only [updatePayload, insertKey, modify_eq_set he, modify_eq_set hget, set_set,
    isDeleted, he, any_some, beq_iff_eq]

omit he in
/-- A new key goes to an entry that is not occupied and that its path reaches. -/
theorem Holds.insert (hroom : es.length + d + 1 < 2 ^ n) (ho : IsKey o)
    (hnone : ∀ e ∈ es, ¬traits.isMatch (traits.ofObject o) e.key) (he : t.entries[i]? = some e)
    (hmark : ¬IsKey e.key)
    (hreach : Reaches ((marks α).slotsOf t.entries) (path traits (2 ^ n) (traits.ofObject o)) i) :
    Inv traits (updatePayload (insertKey t i o) i v) (store traits m o (some v)) := by
  obtain ⟨d', htable, hd⟩ := h.table.insert he hmark (show (marks α).IsLive ⟨o, v⟩ from ho) hreach
  have hold := h.numDeleted
  rw [updatePayload_insertKey he]
  refine ⟨n, ⟨o, v⟩ :: es, d', h.bound, htable, h.lists.cons ho hnone, ?_, ?_, ?_⟩
  · rw [h.numOccupied, length_cons]
    rfl
  · change (if e.key = deletedMarker then _ else _) = _
    change _ + (if e.key = deletedMarker then _ else _) = _ at hd
    split_ifs at hd ⊢ <;> omega
  · rw [length_cons]
    omega

omit he in
/-- Any entry may be taken as the first one. -/
theorem Holds.exists_rest (he : e ∈ es) : ∃ rest, Holds traits n t m (e :: rest) d := by
  obtain ⟨pre, post, rfl⟩ := append_of_mem he
  have hperm : (pre ++ e :: post).Perm (e :: (pre ++ post)) := perm_middle
  exact ⟨pre ++ post, h.bound, h.table.of_perm hperm, h.lists.perm hperm.symm,
    hperm.length_eq ▸ h.numOccupied, h.numDeleted, hperm.length_eq ▸ h.free⟩

/-- Writing a value stores it for the key of the entry. -/
theorem Holds.updatePayload
    (hmem : e ∈ es) : Inv traits (updatePayload t i v) (store traits m e.key (some v)) := by
  obtain ⟨rest, h⟩ := h.exists_rest hmem
  have hkey := h.lists.isKey e (mem_cons_self ..)
  -- The entry is taken out and comes back with its new payload.
  have hcons := h.lists.of_cons.cons (v := v) hkey h.lists.not_isMatch
  rw [store_store] at hcons
  rw [HashTables.updatePayload, modify_eq_set he]
  exact ⟨n, ⟨e.key, v⟩ :: rest, d, h.bound, h.table.replace he hkey hkey rfl, hcons, h.numOccupied,
    h.numDeleted, h.free⟩

/-- Deleting an entry removes its key. -/
theorem Holds.deleteEntry
    (hmem : e ∈ es) : Inv traits (deleteEntry t i) (store traits m e.key none) := by
  obtain ⟨rest, h⟩ := h.exists_rest hmem
  have hi := (List.getElem?_eq_some_iff.mp he).1
  have hget : (t.entries.set i { e with payload := deletedMarker })[i]? =
      some { e with payload := deletedMarker } := getElem?_set_self hi
  have hdelete : HashTables.deleteEntry t i = ⟨t.entries.set i ⟨deletedMarker, deletedMarker⟩,
      t.numOccupied - 1, t.numDeleted + 1⟩ := by
    simp only [HashTables.deleteEntry, HashTables.updatePayload, modify_eq_set he,
      modify_eq_set hget, set_set]
  have hocc := h.numOccupied
  have hdel := h.numDeleted
  have hfree := h.free
  rw [length_cons] at hocc hfree
  rw [hdelete]
  refine ⟨n, rest, d + 1, h.bound, h.table.delete he (h.lists.isKey e (mem_cons_self ..)) rfl,
    h.lists.of_cons, ?_, ?_, by omega⟩ <;> dsimp only <;> omega

end

/-! ## New tables -/

/-- A table of unused entries. -/
def unusedTable (n : ℕ) : HashTable α := ⟨List.replicate n ⟨unusedMarker, unusedMarker⟩, 0, 0⟩

omit [DecidableEq α] in
/-- An initialized table has unused entries only. -/
theorem initializeTable_eq (t : HashTable α) :
    initializeTable t = unusedTable t.entries.length := by
  rw [initializeTable, unusedTable, map_const']

/-- A table of unused entries is empty. -/
theorem table_unusedTable (traits : KeyTraits α K) (n : ℕ) :
    (marks α).Table (pathOf traits n) n (unusedTable n : HashTable α).entries [] 0 :=
  Marks.Table.replicate _ _ n rfl

/-- A table of unused entries represents the empty map. -/
theorem inv_unusedTable (hbound : 2 ^ n ≤ kMaxElements) :
    Inv traits (unusedTable (2 ^ n) : HashTable α) fun _ => none :=
  ⟨n, [], 0, hbound, table_unusedTable .., lists_nil, rfl, rfl, Nat.two_pow_pos n⟩

/-- The number of entries is a power of two and leaves one entry free. -/
theorem exists_numEntriesForNumOccupied (hc : c < 2 ^ 63) :
    ∃ n, numEntriesForNumOccupied c = 2 ^ n ∧ c + 1 ≤ 2 ^ n := by
  have hword : (BitVec.ofInt 64 ((c : ℤ) + 1)).toNat = c + 1 := by
    rw [BitVec.toNat_ofInt]
    omega
  obtain ⟨n, -, hround, hle⟩ := exists_roundUpToPowerOfTwo
    (x := BitVec.ofInt 64 ((c : ℤ) + 1)) (by omega) (by omega)
  exact ⟨n, hround, hword ▸ hle⟩

omit [DecidableEq α] in
/-- `HashTables::New` makes a table of unused entries or runs out of memory. -/
theorem new_cases (hc : c < 2 ^ 63) :
    (∃ n, new c = .ok (unusedTable (2 ^ n) : HashTable α) ∧ c + 1 ≤ 2 ^ n ∧ 2 ^ n ≤ kMaxElements) ∨
    (new c = (.error .outOfMemory : Except Abort (HashTable α)) ∧
      kMaxElements < arrayLengthForNumOccupied c) := by
  obtain ⟨n, hn, hle⟩ := exists_numEntriesForNumOccupied hc
  unfold new
  split_ifs with hfits
  · left
    refine ⟨n, ?_, hle, ?_⟩
    · rw [initializeTable_eq, length_replicate, hn]
    · simp only [arrayLengthForNumOccupied, kEntrySize, hn] at hfits
      omega
  · exact .inr ⟨rfl, not_le.mp hfits⟩

/-! ## Copying -/

/-- What the new table holds while `Copy` fills it. -/
def Copied (traits : KeyTraits α K) (n : ℕ) (es : List (Entry α)) (t : HashTable α) : Prop :=
  (marks α).Table (pathOf traits (2 ^ n)) (2 ^ n) t.entries es 0 ∧ t.numOccupied = es.length ∧
    t.numDeleted = 0

/-- One iteration of the loop of `Copy` puts the entry into the first unused one of its path. -/
theorem copyEntry_copied (h : Copied traits n es t) (hroom : es.length < 2 ^ n) (hkey : IsKey e.key)
    (hapart : ∀ a ∈ es, ¬traits.isMatch (traits.ofObject e.key) a.key) :
    Returns False (copyEntry traits t e) (Copied traits n (e :: es)) := by
  obtain ⟨htable, hocc, hdel⟩ := h
  obtain ⟨j, x, hfirst, hcases⟩ := exists_first_stopsAt htable hroom (traits.ofObject e.key)
  obtain ⟨deleted, hfind, hmark⟩ := findKeyOrDeletedOrUnused_eq htable.length_eq hfirst
  -- No entry was deleted and none matches, so the search comes to an unused one.
  have hnone : deleted = none := by
    rw [eq_none_iff_forall_not_mem]
    intro d hd
    obtain ⟨-, -, -, e', he', hdeleted⟩ := hmark d hd
    have hcount := countP_eq_zero.mp htable.countP_deleted e' (mem_of_getElem? he')
    exact hcount (beq_iff_eq.mpr hdeleted)
  have hunused : x.key = unusedMarker := by
    rcases hcases with ⟨hunused, -⟩ | ⟨-, hmem, hmatch⟩
    · exact hunused
    · exact absurd hmatch (hapart x hmem)
  rw [if_pos hunused, hnone, getD_none] at hfind
  rw [copyEntry, hfind]
  obtain ⟨d', htable', hd⟩ := htable.insert (e := e) hfirst.get (fun hlive => hlive.1 hunused) hkey
    (reaches_of_stopsAt le_rfl hfirst)
  change Copied traits n (e :: es) (HashTables.updatePayload _ _ _)
  rw [updatePayload_insertKey hfirst.get, if_neg (by rw [hunused]; nofun)]
  obtain rfl : d' = 0 := by omega
  refine ⟨htable', ?_, hdel⟩
  rw [hocc, length_cons]
  rfl

/-- The occupied entries are the live ones. -/
theorem filter_isOccupied (entries : List (Entry α)) :
    entries.filter (·.isOccupied) = entries.filter ((marks α).IsLive ·) := by
  refine filter_congr fun e _ => ?_
  rw [Bool.eq_iff_iff, decide_eq_true_iff]
  simp [Entry.isOccupied, Marks.IsLive, marks]

/-- **Copying** into a larger table keeps the map. -/
theorem Holds.exists_copy (h : Holds traits i t m es d) (hbound : 2 ^ n ≤ kMaxElements)
    (hroom : es.length < 2 ^ n) :
    ∃ t' es', copy traits t (unusedTable (2 ^ n)) = some t' ∧ Holds traits n t' m es' 0 ∧
      es'.length = es.length := by
  have hperm := h.table.perm_filter
  rw [← filter_isOccupied] at hperm
  have hlists := h.lists.perm hperm
  have hcopy : Returns False (copy traits t (unusedTable (2 ^ n)))
      (Copied traits n (t.entries.filter (·.isOccupied)).reverse) := by
    rw [copy, initializeTable_eq, (table_unusedTable traits (2 ^ n)).length_eq]
    refine returns_foldlM_done (Copied traits n) ⟨table_unusedTable .., rfl, rfl⟩ ?_
    intro done e rest t₁ hsplit hcopied
    rw [hsplit] at hlists hperm
    have hlength := hperm.length_eq
    rw [length_append, length_reverse, length_cons] at hlength
    refine copyEntry_copied hcopied (by omega) (hlists.isKey e (by simp)) fun a ha hmatch => ?_
    have heq := hlists.distinct e (by simp) a (by simp [ha]) hmatch
    have hnodup := nodup_append.mp hlists.nodup
    exact hnodup.2.2 a (by simpa using ha) e (mem_cons_self ..) heq.symm
  obtain ⟨t', ht', htable, hocc', hdel⟩ := hcopy.exists_eq_some
  have hlength : (t.entries.filter (·.isOccupied)).reverse.length = es.length := by
    rw [length_reverse, hperm.length_eq]
  exact ⟨t', _, ht', ⟨hbound, htable, hlists.perm (reverse_perm _), hocc', hdel, by omega⟩, hlength⟩

/-- **`EnsureLoadFactor`** leaves room for one more key, or runs out of memory. -/
theorem Inv.ensureLoadFactor (h : Inv traits t m) :
    (∃ t' n es d, ensureLoadFactor traits t = .ok t' ∧ Holds traits n t' m es d ∧
      es.length + d + 1 < 2 ^ n) ∨
    (ensureLoadFactor traits t = .error .outOfMemory ∧
      kMaxElements < arrayLengthForNumOccupied (t.numOccupied * 2 + 1)) := by
  obtain ⟨n, es, d, h⟩ := h
  have hocc := h.numOccupied
  have hdel := h.numDeleted
  have hbound := h.bound
  have hfree := h.free
  unfold HashTables.ensureLoadFactor
  rw [h.table.length_eq]
  by_cases hload : isBelow (1 + t.numOccupied + t.numDeleted).toNat (2 ^ n) ∧
      ¬t.numOccupied ≤ t.numDeleted
  · left
    have hlt := lt_of_isBelow hload.1
    exact ⟨t, n, es, d, if_pos hload, h, by omega⟩
  rw [if_neg hload]
  have hcapacity : t.numOccupied * 2 + 1 = ((2 * es.length + 1 : ℕ) : ℤ) := by omega
  have hc : 2 * es.length + 1 < 2 ^ 63 := by
    unfold kMaxElements at hbound
    omega
  rw [hcapacity]
  rcases new_cases (α := α) hc with ⟨n', hnew, hle, hfits⟩ | ⟨hnew, hfits⟩
  · left
    obtain ⟨t', es', hcopy, hholds, hlength⟩ := h.exists_copy hfits (by omega)
    refine ⟨t', n', es', 0, ?_, hholds, by omega⟩
    rw [hnew]
    change orEndless (copy traits t (unusedTable (2 ^ n'))) = .ok t'
    rw [hcopy]
    rfl
  · right
    exact ⟨by rw [hnew]; rfl, hfits⟩

/-! ## Operations -/

/-- A search for a key returns its entry or, if there is none, says so. -/
theorem Holds.findKey (h : Holds traits n t m es d) (key : K) :
    (findKey traits t key = some none ∧ m key = none) ∨
    ∃ i e, findKey traits t key = some (some i) ∧ t.entries[i]? = some e ∧ e ∈ es ∧
      traits.isMatch key e.key ∧ m key = some e.payload := by
  obtain ⟨j, e, hfirst, hcases⟩ := exists_first_stopsAt h.table h.free key
  rw [findKey_eq h.table.length_eq hfirst]
  rcases hcases with ⟨hunused, hnone⟩ | ⟨hkey, hmem, hmatch⟩
  · exact .inl ⟨by rw [if_pos hunused], h.lists.eq_none hnone⟩
  · exact .inr ⟨_, e, by rw [if_neg hkey.1], hfirst.get, hmem, hmatch,
      h.lists.valid e hmem key hmatch⟩

/-- A search for a key returns its entry or, if there is none, one where it may be inserted. -/
theorem Holds.findKeyOrDeletedOrUnused (h : Holds traits n t m es d) (key : K) :
    (∃ i e, findKeyOrDeletedOrUnused traits t key = some (false, i) ∧ m key = none ∧
      (∀ e' ∈ es, ¬traits.isMatch key e'.key) ∧ t.entries[i]? = some e ∧ ¬IsKey e.key ∧
      Reaches ((marks α).slotsOf t.entries) (path traits (2 ^ n) key) i) ∨
    ∃ i e, findKeyOrDeletedOrUnused traits t key = some (true, i) ∧ t.entries[i]? = some e ∧
      e ∈ es ∧ traits.isMatch key e.key ∧ m key = some e.payload := by
  obtain ⟨j, e, hfirst, hcases⟩ := exists_first_stopsAt h.table h.free key
  obtain ⟨deleted, hfind, hmark⟩ := findKeyOrDeletedOrUnused_eq h.table.length_eq hfirst
  rw [hfind]
  rcases hcases with ⟨hunused, hnone⟩ | ⟨hkey, hmem, hmatch⟩
  · left
    rw [if_pos hunused]
    have hm := h.lists.eq_none hnone
    cases deleted with
    | none =>
      exact ⟨_, e, rfl, hm, hnone, hfirst.get, fun hkey => hkey.1 hunused,
        reaches_of_stopsAt le_rfl hfirst⟩
    | some d =>
      obtain ⟨i, hi, rfl, e', he', hdeleted⟩ := hmark d rfl
      exact ⟨_, e', rfl, hm, hnone, he', fun hkey => hkey.2 hdeleted,
        reaches_of_stopsAt (le_of_lt hi) hfirst⟩
  · exact .inr ⟨_, e, by rw [if_neg hkey.1], hfirst.get, hmem, hmatch,
      h.lists.valid e hmem key hmatch⟩

/-- **`GetOrNull` returns the value of the map**, and whether there is one. -/
theorem Inv.getOrNull (h : Inv traits t m) (key : K) :
    getOrNull traits t key = some ((m key).getD .null, (m key).isSome) := by
  obtain ⟨n, es, d, h⟩ := h
  rcases h.findKey key with ⟨hfind, hm⟩ | ⟨i, e, hfind, he, -, -, hm⟩
  · rw [HashTables.getOrNull, hfind, hm]
    rfl
  · rw [HashTables.getOrNull, hfind, hm]
    simp [getPayload, he]

/-- **`Remove` removes the key** and tells whether it was there. -/
theorem Inv.remove (h : Inv traits t m) (key : K) :
    ∃ t', remove traits t key = some ((m key).isSome, t') ∧
      Inv traits t' (store traits m (traits.newKey key) none) := by
  obtain ⟨n, es, d, h⟩ := h
  rcases h.findKey key with ⟨hfind, hm⟩ | ⟨i, e, hfind, he, hmem, hmatch, hm⟩
  · refine ⟨t, by rw [HashTables.remove, hfind, hm]; rfl, ?_⟩
    rw [store_eq_self]
    · exact ⟨n, es, d, h⟩
    -- A key that matches the new one has no value, either.
    intro k hk
    apply h.lists.eq_none
    intro e he hek
    have hekey := h.lists.isKey e he
    have hnew := traits.isMatch_of_isMatch hekey (traits.isKey_newKey key) hek hk
    have hvalue := h.lists.valid e he key
      ((traits.isMatch_congr hekey (traits.isKey_newKey key) hnew key).mpr
        (traits.isMatch_newKey key))
    rw [hm] at hvalue
    cases hvalue
  · refine ⟨_, by rw [HashTables.remove, hfind, hm]; rfl, ?_⟩
    have hkey := h.lists.isKey e hmem
    rw [← store_congr hkey (traits.isKey_newKey key)
      (traits.isMatch_of_isMatch hkey (traits.isKey_newKey key) hmatch (traits.isMatch_newKey key))]
    exact h.deleteEntry he hmem

/-- `UpdateOrInsert`, once its two searches have succeeded. -/
theorem updateOrInsert_eq {key value : Object α}
    (hensure : ensureLoadFactor traits t = .ok t₁)
    (hfind : findKeyOrDeletedOrUnused traits t₁ (traits.ofObject key) = some (present, i)) :
    updateOrInsert traits t key value =
      .ok (present, updatePayload (if present then t₁ else insertKey t₁ i key) i value) := by
  rw [updateOrInsert, hensure]
  change orEndless (findKeyOrDeletedOrUnused traits t₁ (traits.ofObject key)) >>= _ = _
  rw [hfind]
  rfl

/-- `InsertNewOrGetValue`, once its two searches have succeeded. -/
theorem insertNewOrGetValue_eq
    (hensure : ensureLoadFactor traits t = .ok t₁)
    (hfind : findKeyOrDeletedOrUnused traits t₁ key = some (present, i)) (v : Object α) :
    insertNewOrGetValue traits t key v = .ok (if present then (getPayload t₁ i, t₁)
      else (v, updatePayload (insertKey t₁ i (traits.newKey key)) i v)) := by
  rw [insertNewOrGetValue, hensure]
  change orEndless (findKeyOrDeletedOrUnused traits t₁ key) >>= _ = _
  rw [hfind]
  cases present <;> rfl

/-- **`UpdateOrInsert` stores the value**, unless the table would grow too large. -/
theorem Inv.updateOrInsert (h : Inv traits t m) {key : Object α} (hkey : IsKey key)
    (value : Object α) :
    (∃ t', updateOrInsert traits t key value = .ok ((m (traits.ofObject key)).isSome, t') ∧
      Inv traits t' (store traits m key (some value))) ∨
    (updateOrInsert traits t key value = .error .outOfMemory ∧
      kMaxElements < arrayLengthForNumOccupied (t.numOccupied * 2 + 1)) := by
  rcases h.ensureLoadFactor with ⟨t₁, n, es, d, hensure, hinv, hroom⟩ | ⟨hensure, hfits⟩
  · left
    rcases hinv.findKeyOrDeletedOrUnused (traits.ofObject key) with
      ⟨i, e, hfind, hm, hnone, he, hmark, hreach⟩ | ⟨i, e, hfind, he, hmem, hmatch, hm⟩
    · rw [updateOrInsert_eq hensure hfind, hm]
      exact ⟨_, rfl, hinv.insert hroom hkey hnone he hmark hreach⟩
    · rw [updateOrInsert_eq hensure hfind, hm]
      refine ⟨_, rfl, ?_⟩
      rw [store_congr hkey (hinv.lists.isKey e hmem) hmatch]
      exact hinv.updatePayload he hmem
  · exact .inr ⟨by rw [HashTables.updateOrInsert, hensure]; rfl, hfits⟩

/-- **`InsertNewOrGetValue` stores a value for a new key only**, unless the table would grow too
large. -/
theorem Inv.insertNewOrGetValue (h : Inv traits t m) (key : K) (v : Object α) :
    (∃ t', insertNewOrGetValue traits t key v = .ok ((m key).getD v, t') ∧
      Inv traits t' (store traits m (traits.newKey key) (some ((m key).getD v)))) ∨
    (insertNewOrGetValue traits t key v = .error .outOfMemory ∧
      kMaxElements < arrayLengthForNumOccupied (t.numOccupied * 2 + 1)) := by
  have hnewKey := traits.isKey_newKey key
  have hnewMatch := traits.isMatch_newKey key
  rcases h.ensureLoadFactor with ⟨t₁, n, es, d, hensure, hinv, hroom⟩ | ⟨hensure, hfits⟩
  · left
    rcases hinv.findKeyOrDeletedOrUnused key with
      ⟨i, e, hfind, hm, hnone, he, hmark, hreach⟩ | ⟨i, e, hfind, he, hmem, hmatch, hm⟩
    · rw [insertNewOrGetValue_eq hensure hfind, hm]
      refine ⟨_, rfl, ?_⟩
      have hpath : path traits (2 ^ n) key =
          path traits (2 ^ n) (traits.ofObject (traits.newKey key)) := by
        rw [path, path, traits.hash_eq key _ hnewKey hnewMatch]
      refine hinv.insert hroom hnewKey (fun e' he' hmatch => ?_) he hmark (hpath ▸ hreach)
      exact hnone e' he' ((traits.isMatch_iff key _ _ hnewKey (hinv.lists.isKey e' he')
        hnewMatch).mpr hmatch)
    · rw [insertNewOrGetValue_eq hensure hfind, hm]
      refine ⟨t₁, by simp [getPayload, he], ?_⟩
      have hekey := hinv.lists.isKey e hmem
      rw [store_eq_self]
      · exact ⟨n, es, d, hinv⟩
      · intro k hk
        apply hinv.lists.valid e hmem
        exact (traits.isMatch_congr hnewKey hekey
          (traits.isMatch_of_isMatch hnewKey hekey hnewMatch hmatch) k).mp hk
  · exact .inr ⟨by rw [HashTables.insertNewOrGetValue, hensure]; rfl, hfits⟩

/-- **Run lemma.** The invariant holds in every reachable table. -/
theorem Run.inv (h : Run traits t m) : Inv traits t m := by
  induction h with
  | new hcapacity hnew =>
    rcases new_cases hcapacity with ⟨n, hok, -, hbound⟩ | ⟨herror, -⟩
    · rw [Except.ok.inj (hnew.symm.trans hok)]
      exact inv_unusedTable hbound
    · exact absurd (hnew.symm.trans herror) (by simp)
  | updateOrInsert _ hkey hs ih =>
    rcases ih.updateOrInsert hkey _ with ⟨t'', hok, hinv⟩ | ⟨herror, -⟩
    · rwa [(Prod.mk.inj (Except.ok.inj (hs.symm.trans hok))).2]
    · exact absurd (hs.symm.trans herror) (by simp)
  | insertNewOrGetValue _ hs ih =>
    rcases ih.insertNewOrGetValue _ _ with ⟨t'', hok, hinv⟩ | ⟨herror, -⟩
    · rwa [(Prod.mk.inj (Except.ok.inj (hs.symm.trans hok))).2]
    · exact absurd (hs.symm.trans herror) (by simp)
  | remove _ hs ih =>
    obtain ⟨t'', hsome, hinv⟩ := ih.remove _
    rwa [(Prod.mk.inj (some.inj (hs.symm.trans hsome))).2]
  | clear _ ih =>
    obtain ⟨n, es, d, ih⟩ := ih
    rw [HashTables.clear, initializeTable_eq, ih.table.length_eq]
    exact inv_unusedTable ih.bound

/-! ## Correctness -/

/-- **Hash maps are maps.** In every run, lookups return the last value stored or say that there is
none, the counters count the entries, an entry is unused, the probes for a key visit every entry,
and every operation ends with the table of the updated map, unless a larger table cannot be
allocated. -/
theorem hashMap_correct (h : Run traits t m) :
    (∀ key, getOrNull traits t key = some ((m key).getD .null, (m key).isSome)) ∧
    t.numOccupied = t.entries.countP (·.isOccupied) ∧
    t.numDeleted = t.entries.countP (·.key == deletedMarker) ∧
    (∃ e ∈ t.entries, e.key = unusedMarker) ∧
    (∀ key, ∀ i < t.entries.length, ∃ j < t.entries.length,
      ((nextProbe t.entries.length)^[j] (firstProbe traits t.entries.length key)).1 = i) ∧
    (∀ key, ∃ t', remove traits t key = some ((m key).isSome, t') ∧
      Run traits t' (store traits m (traits.newKey key) none)) ∧
    Run traits (clear t) (fun _ => none) ∧
    (∀ key value, IsKey key →
      (∃ t', updateOrInsert traits t key value = .ok ((m (traits.ofObject key)).isSome, t') ∧
        Run traits t' (store traits m key (some value))) ∨
      (updateOrInsert traits t key value = .error .outOfMemory ∧
        kMaxElements < arrayLengthForNumOccupied (t.numOccupied * 2 + 1))) ∧
    ∀ key value,
      (∃ t', insertNewOrGetValue traits t key value = .ok ((m key).getD value, t') ∧
        Run traits t' (store traits m (traits.newKey key) (some ((m key).getD value)))) ∨
      (insertNewOrGetValue traits t key value = .error .outOfMemory ∧
        kMaxElements < arrayLengthForNumOccupied (t.numOccupied * 2 + 1)) := by
  have hinv := h.inv
  obtain ⟨n, es, d, hholds⟩ := h.inv
  have htable := hholds.table
  refine ⟨hinv.getOrNull, ?_, ?_, htable.exists_free hholds.free, ?_, ?_, h.clear, ?_, ?_⟩
  · rw [hholds.numOccupied, countP_eq_length_filter, filter_isOccupied,
      htable.perm_filter.length_eq]
  · rw [hholds.numDeleted, ← htable.countP_deleted]
    rfl
  -- Triangular probing visits every entry.
  · intro key i hi
    rw [htable.length_eq] at hi ⊢
    obtain ⟨j, hj, hji⟩ := triangular_complete n (traits.hash key).toNat i hi
    exact ⟨j, hj, by rw [nextProbe_iterate]; exact hji⟩
  · intro key
    obtain ⟨t', ht', -⟩ := hinv.remove key
    exact ⟨t', ht', h.remove ht'⟩
  · intro key value hkey
    rcases hinv.updateOrInsert hkey value with ⟨t', ht', -⟩ | herror
    · exact .inl ⟨t', ht', h.updateOrInsert hkey ht'⟩
    · exact .inr herror
  · intro key value
    rcases hinv.insertNewOrGetValue key value with ⟨t', ht', -⟩ | herror
    · exact .inl ⟨t', ht', h.insertNewOrGetValue ht'⟩
    · exact .inr herror

/-- Traits of numbers and null, where all hashes collide. -/
def collidingTraits : KeyTraits ℕ (Option ℕ) where
  ofObject
    | .other a => some a
    | _ => none
  hash _ := 7
  isMatch
    | none, .null => true
    | some a, .other b => a == b
    | _, _ => false
  newKey
    | none => .null
    | some a => .other a
  isMatch_self := by
    rintro (_ | _ | _ | a) ho
    · rfl
    · exact absurd rfl ho.1
    · exact absurd rfl ho.2
    · simp
  isMatch_iff := by
    rintro (_ | k) (_ | _ | _ | a) (_ | _ | _ | b) ho ho' h <;> simp_all
  hash_eq := by simp
  isKey_newKey := by
    rintro (_ | a) <;> simp [IsKey, unusedMarker, deletedMarker]
  isMatch_newKey := by
    rintro (_ | a) <;> simp

/-- A table that has grown to four entries, with two keys of the same hash. -/
def grownTable : HashTable ℕ :=
  ⟨[⟨.other 6, .other 9⟩, ⟨unusedMarker, unusedMarker⟩, ⟨unusedMarker, unusedMarker⟩,
    ⟨.other 5, .other 8⟩], 2, 0⟩

/-- The smallest table grows with each of two keys; then the first one is removed. -/
theorem hashMap_correct_store :
    ∃ t m, remove collidingTraits grownTable (some 5) = some (true, t) ∧ Run collidingTraits t m ∧
      getOrNull collidingTraits t (some 6) = some (.other 9, true) ∧
      getOrNull collidingTraits t (some 5) = some (.null, false) := by
  have hnew : Run collidingTraits (unusedTable 1) fun _ => none :=
    Run.new (show (0 : ℕ) < 2 ^ 63 by decide) rfl
  have hkey (a : ℕ) : IsKey (.other a) := by simp [IsKey, unusedMarker, deletedMarker]
  have hfive := hnew.updateOrInsert (hkey 5)
    (show updateOrInsert collidingTraits _ _ (.other 8) =
      .ok (false, ⟨[⟨unusedMarker, unusedMarker⟩, ⟨.other 5, .other 8⟩], 1, 0⟩) by decide +kernel)
  have hgrown := hfive.updateOrInsert (hkey 6)
    (show updateOrInsert collidingTraits _ _ (.other 9) = .ok (false, grownTable) by decide +kernel)
  obtain ⟨t, hremove, hrun⟩ := (hashMap_correct hgrown).2.2.2.2.2.1 (some 5)
  exact ⟨t, _, hremove, hrun, (hashMap_correct hrun).1 (some 6), (hashMap_correct hrun).1 (some 5)⟩

end DartVm.HashTables
