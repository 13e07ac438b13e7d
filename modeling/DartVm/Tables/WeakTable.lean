import DartVm.Library.OpenAddressing
import DartVm.Library.Postcondition
import Mathlib.Data.Set.Card

/-! # Weak tables

A model of `weak_table.h` and `weak_table.cc`: a map from object addresses to values by open
addressing with linear probing, where zero means that there is no value.  `Run s m` says that some
operations have made `s` of a new table, and that `m` gives the last value set for each key.  Sizes
and counters are unbounded here, and `malloc` succeeds.

* `exists_rehash`: rehashing restores the invariant.
* `Run.inv`: the invariant of every run.
* `weakTable_correct`: weak tables are maps. -/

namespace DartVm.WeakTables

open ListUpdate OpenAddressing Postcondition List Option Function

/-! ## Model -/

/-- The word of an object pointer. -/
abbrev ObjectPtr := BitVec 64

/-- `kNoEntry`, the key of a slot that was never used. -/
def kNoEntry : ObjectPtr := 1

/-- `kDeletedEntry`, the key of a slot whose entry was deleted. -/
def kDeletedEntry : ObjectPtr := 3

/-- `kNoValue`. -/
def kNoValue : ℤ := 0

/-- `kMinSize`. -/
def kMinSize : ℕ := 8

/-- `kMaxSize`: `(1 << 62) / (kEntrySize * kWordSize)`. -/
def kMaxSize : ℕ := 2 ^ 58

/-- The key is the address of an object. -/
def IsObject (key : ObjectPtr) : Prop := key ≠ kNoEntry ∧ key ≠ kDeletedEntry

/-- A key and its value in `data_`. -/
structure Entry where
  key : ObjectPtr
  value : ℤ
deriving DecidableEq

/-- `IsValidEntryAtExclusive`. -/
def Entry.isValid (e : Entry) : Bool := e.value != 0

/-- **Weak table.** `size_` is the length of `data`. -/
structure WeakTable where
  data : List Entry
  used : ℤ
  count : ℤ
deriving DecidableEq

/-- New data without entries. -/
def noEntries (size : ℕ) : List Entry := List.replicate size ⟨kNoEntry, kNoValue⟩

/-- `WeakTable::WeakTable`. -/
def new (size : ℕ) : WeakTable :=
  let size := if size < kMinSize then kMinSize else size
  let size := if size > kMaxSize then kMaxSize else size
  ⟨noEntries size, 0, 0⟩

/-- `WeakTable::Reset`. -/
def reset : WeakTable := ⟨noEntries kMinSize, 0, 0⟩

/-- `SizeFor`: halves a table that is a quarter full and doubles any other. -/
def sizeFor (count : ℤ) (size : ℕ) : ℕ :=
  let result := if count ≤ (size / 4 : ℕ) then size / 2 else size * 2
  if result < kMinSize then kMinSize else result

/-- `LimitFor`: three quarters of the size. -/
def limitFor (size : ℕ) : ℕ := 3 * (size / 4)

/-- `Hash`. -/
def hash (key : ObjectPtr) : BitVec 64 := key * 92821

/-- The first slot that is probed for the key. -/
def firstIndex (size : ℕ) (key : ObjectPtr) : ℕ := (hash key).toNat &&& (size - 1)

/-- The slot that is probed after `idx`. -/
def nextIndex (size idx : ℕ) : ℕ := (idx + 1) &&& (size - 1)

/-- Probing for `key` ends at the slot. -/
def endsAt (data : List Entry) (key : ObjectPtr) (idx : ℕ) : Bool :=
  data[idx]?.any fun e => e.key == kNoEntry || e.key == key

/-- The slot where the loops of `GetValueExclusive` and `RemoveValueExclusive` end. -/
def findIndex (data : List Entry) (key : ObjectPtr) : Option ℕ :=
  loop (nextIndex data.length) (fun idx => if endsAt data key idx then some idx else none)
    data.length (firstIndex data.length key)

/-- The slot where the loop of `SetValueExclusive` ends, with `empty_idx`. -/
def findIndexOrEmpty (data : List Entry) (key : ObjectPtr) : Option (ℕ × Option ℕ) :=
  loop
    (remember (nextIndex data.length) fun idx =>
      if data[idx]?.any (·.key == kDeletedEntry) then some idx else none)
    (fun s => if endsAt data key s.1 then some s else none) data.length
    (firstIndex data.length key, none)

/-- `GetValueExclusive`. -/
def getValueExclusive (s : WeakTable) (key : ObjectPtr) : Option ℤ := do
  let idx ← findIndex s.data key
  let e ← s.data[idx]?
  some (if e.key = kNoEntry then kNoValue else e.value)

/-- `SetObjectAt`. -/
def setObjectAt (s : WeakTable) (i : ℕ) (key : ObjectPtr) : WeakTable :=
  { s with data := s.data.modify i fun e => { e with key := key } }

/-- `SetValueAt`: the value zero deletes the entry. -/
def setValueAt (s : WeakTable) (i : ℕ) (val : ℤ) : WeakTable :=
  if val = 0 then
    { s with data := s.data.modify i fun _ => ⟨kDeletedEntry, val⟩, count := s.count - 1 }
  else { s with data := s.data.modify i fun e => { e with value := val } }

/-- One iteration of the loop of `Rehash`, with `used_`. -/
def rehashEntry (s : List Entry × ℤ) (e : Entry) : Option (List Entry × ℤ) := do
  let idx ← loop (nextIndex s.1.length)
    (fun idx => if s.1[idx]?.any (·.key == kNoEntry) then some idx else none) s.1.length
    (firstIndex s.1.length e.key)
  some (s.1.set idx e, s.2 + 1)

/-- `Rehash`: valid entries go into a new array. -/
def rehash (s : WeakTable) : Option WeakTable := do
  let newSize := sizeFor s.count s.data.length
  let (data, used) ← (s.data.filter (·.isValid)).foldlM rehashEntry (noEntries newSize, 0)
  some ⟨data, used, s.count⟩

/-- `SetValueExclusive`: a deleted entry on the path is used again. -/
def setValueExclusive (s : WeakTable) (key : ObjectPtr) (val : ℤ) : Option WeakTable := do
  let (idx, emptyIdx) ← findIndexOrEmpty s.data key
  let e ← s.data[idx]?
  if e.key ≠ kNoEntry then some (setValueAt s idx val)
  else if val = 0 then some s
  else
    let used := if emptyIdx.isSome then s.used - 1 else s.used
    let idx := emptyIdx.getD idx
    let s := setValueAt (setObjectAt { s with used := used } idx key) idx val
    let s := { s with used := s.used + 1, count := s.count + 1 }
    if (limitFor s.data.length : ℤ) ≤ s.used then rehash s else some s

/-- `RemoveValueExclusive`: its result and the table. -/
def removeValueExclusive (s : WeakTable) (key : ObjectPtr) : Option (ℤ × WeakTable) := do
  let idx ← findIndex s.data key
  let e ← s.data[idx]?
  some (if e.key = kNoEntry then (kNoValue, s) else (e.value, setValueAt s idx 0))

/-- `WeakTable::Forward`, where the visitor replaces an address `key` by `visit key`. -/
def forward (s : WeakTable) (visit : ObjectPtr → ObjectPtr) : Option WeakTable :=
  if s.used = 0 then some s
  else rehash { s with
    data := s.data.map fun e => if e.isValid then { e with key := visit e.key } else e }

/-- Moving the keys of `m` by `visit` gives `m'`. -/
def Moves (visit : ObjectPtr → ObjectPtr) (m m' : ObjectPtr → ℤ) : Prop :=
  (∀ key, m key ≠ 0 → m' (visit key) = m key) ∧
    ∀ key', m' key' ≠ 0 → ∃ key, m key ≠ 0 ∧ visit key = key'

/-- **Reachable tables**, with the last value set for each key. -/
inductive Run : WeakTable → (ObjectPtr → ℤ) → Prop
  | new (k : ℕ) : Run (new (2 ^ k)) fun _ => 0
  | set {s s' : WeakTable} {m : ObjectPtr → ℤ} {key : ObjectPtr} {val : ℤ} (hrun : Run s m)
      (hkey : IsObject key) (h : setValueExclusive s key val = some s') :
      Run s' (Function.update m key val)
  | remove {s s' : WeakTable} {m : ObjectPtr → ℤ} {key : ObjectPtr} {result : ℤ} (hrun : Run s m)
      (hkey : IsObject key) (h : removeValueExclusive s key = some (result, s')) :
      Run s' (Function.update m key 0)
  /-- A visitor that moves the objects of the table to different addresses. -/
  | forward {s s' : WeakTable} {m m' : ObjectPtr → ℤ} {visit : ObjectPtr → ObjectPtr}
      (hrun : Run s m) (hobject : ∀ key, m key ≠ 0 → IsObject (visit key))
      (hinj : Set.InjOn visit {key | m key ≠ 0}) (hm : Moves visit m m')
      (h : forward s visit = some s') : Run s' m'
  | reset {s : WeakTable} {m : ObjectPtr → ℤ} (hrun : Run s m) : Run reset fun _ => 0

/-! ## Probing -/

/-- The marks in the data. -/
def marks : Marks Entry ObjectPtr := ⟨Entry.key, kNoEntry, kDeletedEntry, by decide⟩

/-- The slots that are probed for the key. -/
def path (size : ℕ) (key : ObjectPtr) : ℕ → ℕ := linear size (hash key).toNat

variable {data : List Entry} {e : Entry} {key : ObjectPtr} {idx k j : ℕ}

/-- The probes of a key, step by step. -/
theorem nextIndex_iterate (k : ℕ) (key : ObjectPtr) (j : ℕ) :
    (nextIndex (2 ^ k))^[j] (firstIndex (2 ^ k) key) = path (2 ^ k) key j := by
  have hnext : nextIndex (2 ^ k) = fun idx => (idx + 1) % 2 ^ k := by
    funext idx
    exact Nat.and_two_pow_sub_one_eq_mod ..
  rw [hnext, firstIndex, Nat.and_two_pow_sub_one_eq_mod]
  exact linear_iterate ..

section

variable (hsize : data.length = 2 ^ k)
  (h : First data (path (2 ^ k) key) (fun e => e.key == kNoEntry || e.key == key) j e)
include hsize h

/-- A lookup returns where its path ends. -/
theorem findIndex_eq : findIndex data key = some (path (2 ^ k) key j) := by
  have hloop := h.loop_eq (fun i => i) (nextIndex_iterate k key) id
  rw [nextIndex_iterate, hsize] at hloop
  rw [findIndex, hsize]
  exact hloop

/-- The loop of `SetValueExclusive` ends where the others do; `empty_idx` is a deleted slot it has
passed. -/
theorem exists_findIndexOrEmpty :
    ∃ emptyIdx, findIndexOrEmpty data key = some (path (2 ^ k) key j, emptyIdx) ∧
      ∀ i ∈ emptyIdx, ∃ l < j, i = path (2 ^ k) key l ∧
        ∃ e, data[i]? = some e ∧ e.key = kDeletedEntry := by
  obtain ⟨emptyIdx, hloop, hempty⟩ := h.loop_remember (fun i => i) (nextIndex_iterate k key)
    (·.key == kDeletedEntry)
  rw [nextIndex_iterate, hsize] at hloop
  refine ⟨emptyIdx, ?_, fun i hi => by simpa using hempty i hi⟩
  rw [findIndexOrEmpty, hsize]
  exact hloop

end

/-- A value is zero exactly where the key is a mark. -/
def Marked (data : List Entry) : Prop := ∀ e ∈ data, e.value = 0 ↔ ¬IsObject e.key

/-- The valid entries are the live ones. -/
theorem filter_isValid (h : Marked data) :
    data.filter (·.isValid) = data.filter (marks.IsLive ·) := by
  refine filter_congr fun e he => ?_
  rw [Bool.eq_iff_iff, decide_eq_true_iff, Entry.isValid, bne_iff_ne, ne_eq, h e he, not_not]
  rfl

/-! ## Invariant -/

/-- The entries are those of the map, once each. -/
structure Lists (entries : List Entry) (m : ObjectPtr → ℤ) : Prop where
  keys : (entries.map Entry.key).Nodup
  isObject : ∀ e ∈ entries, IsObject e.key
  valid : ∀ e ∈ entries, m e.key = e.value ∧ e.value ≠ 0
  complete : ∀ key, m key ≠ 0 → ∃ e ∈ entries, e.key = key

variable {entries entries' : List Entry} {m : ObjectPtr → ℤ} {s s' : WeakTable} {val : ℤ} {d : ℕ}
  {used : ℤ} {i : ℕ}

theorem Lists.perm (h : Lists entries m) (hperm : entries'.Perm entries) : Lists entries' m where
  keys := (hperm.map _).nodup_iff.mpr h.keys
  isObject e he := h.isObject e (hperm.mem_iff.mp he)
  valid e he := h.valid e (hperm.mem_iff.mp he)
  complete key hkey := by
    obtain ⟨e, he, hekey⟩ := h.complete key hkey
    exact ⟨e, hperm.mem_iff.mpr he, hekey⟩

/-- There are as many keys with a value as entries. -/
theorem Lists.ncard_eq (h : Lists entries m) : {key | m key ≠ 0}.ncard = entries.length := by
  have hset : {key | m key ≠ 0} = ((entries.map Entry.key).toFinset : Set ObjectPtr) := by
    ext key
    simp only [Set.mem_ofPred_eq, coe_toFinset, List.mem_map]
    refine ⟨h.complete key, ?_⟩
    rintro ⟨e, he, rfl⟩
    rw [(h.valid e he).1]
    exact (h.valid e he).2
  rw [hset, Set.ncard_coe_finset, toFinset_card_of_nodup h.keys, length_map]

/-- A new key extends the map. -/
theorem Lists.cons (h : Lists entries m) (hkey : IsObject key) (hnone : m key = 0)
    (hval : val ≠ 0) : Lists (⟨key, val⟩ :: entries) (update m key val) := by
  have hfresh : ∀ e ∈ entries, e.key ≠ key := by
    rintro e he rfl
    exact (h.valid e he).2 ((h.valid e he).1 ▸ hnone)
  constructor
  · rw [map_cons, nodup_cons]
    refine ⟨fun hmem => ?_, h.keys⟩
    obtain ⟨e, he, hekey⟩ := mem_map.mp hmem
    exact hfresh e he hekey
  · rw [forall_mem_cons]
    exact ⟨hkey, h.isObject⟩
  · rw [forall_mem_cons]
    refine ⟨⟨update_self .., hval⟩, fun e he => ?_⟩
    rw [update_of_ne (hfresh e he)]
    exact h.valid e he
  · intro key' hkey'
    by_cases heq : key' = key
    · exact ⟨_, mem_cons_self .., heq.symm⟩
    · rw [update_of_ne heq] at hkey'
      obtain ⟨e, he, hekey⟩ := h.complete key' hkey'
      exact ⟨e, mem_cons_of_mem _ he, hekey⟩

/-- Without its entry, a key has no value. -/
theorem Lists.of_cons (h : Lists (e :: entries) m) : Lists entries (update m e.key 0) := by
  have hfresh : ∀ x ∈ entries, x.key ≠ e.key := by
    intro x hx heq
    have hnodup := h.keys
    rw [map_cons, nodup_cons] at hnodup
    exact hnodup.1 (heq ▸ mem_map_of_mem hx)
  refine ⟨h.keys.of_cons, fun x hx => h.isObject x (mem_cons_of_mem _ hx), fun x hx => ?_,
    fun key hkey => ?_⟩
  · rw [update_of_ne (hfresh x hx)]
    exact h.valid x (mem_cons_of_mem _ hx)
  have hne : key ≠ e.key := fun heq => hkey (by rw [heq, update_self])
  rw [update_of_ne hne] at hkey
  obtain ⟨x, hx, hxkey⟩ := h.complete key hkey
  rcases mem_cons.mp hx with rfl | hx
  · exact absurd hxkey.symm hne
  · exact ⟨x, hx, hxkey⟩

/-- **Invariant of the data**, which operations keep before they rehash. -/
structure Core (k : ℕ) (s : WeakTable) (m : ObjectPtr → ℤ) (entries : List Entry)
    (d : ℕ) : Prop where
  table : marks.Table (fun e => path (2 ^ (k + 3)) e.key) (2 ^ (k + 3)) s.data entries d
  marked : Marked s.data
  lists : Lists entries m
  used : s.used = entries.length + d
  count : s.count = entries.length

/-- **Invariant of weak tables.** Less than three quarters of the slots are used. -/
structure Holds (k : ℕ) (s : WeakTable) (m : ObjectPtr → ℤ) (entries : List Entry) (d : ℕ) : Prop
    extends Core k s m entries d where
  load : s.used < limitFor (2 ^ (k + 3))

/-- Some entries make the table one of the map. -/
def Inv (s : WeakTable) (m : ObjectPtr → ℤ) : Prop := ∃ k entries d, Holds k s m entries d

/-- There is always an entry that was never used. -/
theorem Holds.room (h : Holds k s m entries d) : entries.length + d < 2 ^ (k + 3) := by
  have hused := h.used
  have hload := h.load
  unfold limitFor at hload
  omega

/-- **Probing** for a key ends at its entry or, if there is none, at a slot without entry. -/
theorem Holds.exists_end (h : Holds k s m entries d) (hkey : IsObject key) :
    ∃ j e, First s.data (path (2 ^ (k + 3)) key) (fun e => e.key == kNoEntry || e.key == key) j e ∧
      (e.key = kNoEntry ∧ m key = 0 ∨ e.key = key ∧ e ∈ entries) := by
  have hcomplete : Complete s.data.length (path (2 ^ (k + 3)) key) := by
    rw [h.table.length_eq]
    exact linear_complete _ _
  obtain ⟨x, hx, hno⟩ := h.table.exists_free h.room
  let halt (e : Entry) := e.key == kNoEntry || e.key == key
  have hhalt : halt x := Bool.or_eq_true_iff.mpr (.inl (beq_iff_eq.mpr hno))
  obtain ⟨j, e, hfirst⟩ := exists_first hcomplete hx hhalt
  have hcases := h.table.search hfirst (fun a => a.key = key) (fun a => ?_) fun a _ ha => by rw [ha]
  · refine ⟨j, e, hfirst, ?_⟩
    rcases hcases with ⟨hno, hnone⟩ | ⟨-, hmem, hekey⟩
    · refine .inl ⟨hno, by_contra fun hne => ?_⟩
      obtain ⟨e', he', hekey'⟩ := h.lists.complete key hne
      exact hnone e' he' hekey'
    · exact .inr ⟨hekey, hmem⟩
  · rw [Bool.or_eq_true_iff, beq_iff_eq, beq_iff_eq]
    refine or_congr Iff.rfl ⟨?_, fun ha => ha.2⟩
    rintro rfl
    exact ⟨hkey, rfl⟩

/-- The path of a lookup reaches every entry up to its end. -/
theorem reaches_of_endsAt (hi : i ≤ j)
    (h : First data (path (2 ^ k) key) (fun e => e.key == kNoEntry || e.key == key) j e) :
    Reaches (marks.slotsOf data) (path (2 ^ k) key) (path (2 ^ k) key i) :=
  Marks.reaches_of_first h (fun _ ha => Bool.or_eq_true_iff.mpr (.inl (beq_iff_eq.mpr ha))) hi

/-! ## Writing one entry -/

/-- Writing an entry that is marked consistently. -/
theorem Marked.set (h : Marked data) (he : e.value = 0 ↔ ¬IsObject e.key) :
    Marked (data.set idx e) := by
  intro x hx
  rcases mem_or_eq_of_mem_set hx with hx | rfl
  · exact h x hx
  · exact he

/-- The mark of deleted entries is not an object. -/
theorem not_isObject_kDeletedEntry : ¬IsObject kDeletedEntry := fun h => h.2 rfl

section

variable (h : Holds k s m entries d) (he : s.data[idx]? = some e) (hmem : e ∈ entries)
include h he hmem

omit he hmem in
/-- Any entry may be taken as the first one. -/
theorem Holds.exists_rest (he : e ∈ entries) : ∃ rest, Holds k s m (e :: rest) d := by
  obtain ⟨pre, post, rfl⟩ := append_of_mem he
  have hperm : (pre ++ e :: post).Perm (e :: (pre ++ post)) := perm_middle
  exact ⟨pre ++ post, ⟨h.table.of_perm hperm, h.marked, h.lists.perm hperm.symm,
    hperm.length_eq ▸ h.used, hperm.length_eq ▸ h.count⟩, h.load⟩

/-- Storing zero removes the key. -/
theorem Holds.setValueAt_zero : Inv (setValueAt s idx 0) (update m e.key 0) := by
  obtain ⟨rest, h⟩ := h.exists_rest hmem
  have hused := h.used
  have hcount := h.count
  rw [length_cons] at hused hcount
  rw [setValueAt, if_pos rfl, modify_eq_set he]
  refine ⟨k, rest, d + 1, ⟨?_, h.marked.set (by simp [not_isObject_kDeletedEntry]), h.lists.of_cons,
    ?_, ?_⟩, h.load⟩
  · exact h.table.delete he (h.lists.isObject e (mem_cons_self ..)) rfl
  · dsimp only
    omega
  · dsimp only
    omega

/-- Storing another value replaces that of the key. -/
theorem Holds.setValueAt (hval : val ≠ 0) :
    Inv (setValueAt s idx val) (update m e.key val) := by
  obtain ⟨rest, h⟩ := h.exists_rest hmem
  have hobject := h.lists.isObject e (mem_cons_self ..)
  -- The entry is taken out and comes back with its new value.
  have hlists := h.lists.of_cons.cons hobject (update_self ..) hval
  rw [update_idem] at hlists
  rw [WeakTables.setValueAt, if_neg hval, modify_eq_set he]
  exact ⟨k, ⟨e.key, val⟩ :: rest, d, ⟨h.table.replace he hobject hobject rfl,
    h.marked.set (by simp [hval, hobject]), hlists, h.used, h.count⟩, h.load⟩

end

/-- Entering a new key at a slot without entry that its probe reaches. -/
theorem Core.enter (h : Core k s m entries d) (hkey : IsObject key) (hnone : m key = 0)
    (hval : val ≠ 0) (he : s.data[idx]? = some e) (hmark : ¬IsObject e.key)
    (hreach : Reaches (marks.slotsOf s.data) (path (2 ^ (k + 3)) key) idx) :
    ∃ d', Core k ⟨s.data.set idx ⟨key, val⟩, s.used + if e.key = kNoEntry then 1 else 0,
      s.count + 1⟩
      (update m key val) (⟨key, val⟩ :: entries) d' := by
  obtain ⟨d', htable, hd'⟩ :=
    h.table.insert he hmark (show marks.IsLive ⟨key, val⟩ from hkey) hreach
  change d' + (if e.key = kDeletedEntry then 1 else 0) = d at hd'
  have hused := h.used
  refine ⟨d', htable, h.marked.set (by simp [hval, hkey]), h.lists.cons hkey hnone hval, ?_, ?_⟩
  · dsimp only
    rw [length_cons]
    by_cases hno : e.key = kNoEntry
    · rw [if_pos hno]
      rw [hno, if_neg (by decide)] at hd'
      omega
    · rw [if_pos (by_contra fun hdeleted => hmark ⟨hno, hdeleted⟩)] at hd'
      rw [if_neg hno]
      omega
  · rw [h.count, length_cons]
    rfl

/-! ## Rehashing -/

/-- What the new data hold while `Rehash` fills them. -/
def Filled (k : ℕ) (entries : List Entry) (x : List Entry × ℤ) : Prop :=
  marks.Table (fun e => path (2 ^ k) e.key) (2 ^ k) x.1 entries 0 ∧ Marked x.1 ∧
    x.2 = entries.length

/-- One iteration of the loop of `Rehash` puts the entry into the first free slot of its path. -/
theorem rehashEntry_filled {x : List Entry × ℤ} (h : Filled k entries x)
    (hroom : entries.length < 2 ^ k) (hobject : IsObject e.key) (hvalue : e.value ≠ 0) :
    Returns False (rehashEntry x e) (Filled k (e :: entries)) := by
  obtain ⟨htable, hmarked, hused⟩ := h
  have hcomplete : Complete x.1.length (path (2 ^ k) e.key) := by
    rw [htable.length_eq]
    exact linear_complete _ _
  obtain ⟨free, hmem, hfree⟩ := htable.exists_free hroom
  let halt (e : Entry) := e.key == kNoEntry
  have hhalt : halt free := beq_iff_eq.mpr hfree
  obtain ⟨j, y, hfirst⟩ := exists_first hcomplete hmem hhalt
  have hloop := hfirst.loop_eq (fun i => i) (nextIndex_iterate k e.key) id
  have hno : y.key = kNoEntry := beq_iff_eq.mp hfirst.stops
  obtain ⟨d', htable', hd'⟩ := htable.insert hfirst.get (fun hlive => hlive.1 hno)
    (show marks.IsLive e from hobject)
    (Marks.reaches_of_first hfirst (fun a ha => beq_iff_eq.mpr ha) le_rfl)
  obtain rfl : d' = 0 := by omega
  rw [nextIndex_iterate, htable.length_eq] at hloop
  rw [rehashEntry, htable.length_eq]
  refine returns_bind_of_eq hloop ⟨htable', hmarked.set (by simp [hvalue, hobject]), ?_⟩
  rw [hused, length_cons]
  rfl

/-- A new array has nothing filled in. -/
theorem filled_noEntries (k : ℕ) : Filled k [] (noEntries (2 ^ k), 0) := by
  refine ⟨Marks.Table.replicate _ _ _ rfl, fun e he => ?_, rfl⟩
  obtain ⟨-, rfl⟩ := mem_replicate.mp he
  simp [kNoValue, IsObject]

/-- The new size is a power of two, and less than three quarters of it are needed. -/
theorem exists_sizeFor {count n : ℕ} (hsize : n = 2 ^ (k + 3)) (hcount : count ≤ limitFor n) :
    ∃ k', sizeFor count n = 2 ^ (k' + 3) ∧ count < limitFor (sizeFor count n) := by
  subst hsize
  have hpow : 2 ^ (k + 3) = 8 * 2 ^ k := by rw [pow_add]; ring
  unfold sizeFor limitFor kMinSize at *
  simp only [Nat.cast_le]
  by_cases hfew : count ≤ 2 ^ (k + 3) / 4
  · cases k with
    | zero =>
      rw [if_pos hfew, if_pos (by omega)]
      exact ⟨0, rfl, by omega⟩
    | succ k =>
      have hpos := Nat.two_pow_pos k
      have hresult : 2 ^ (k + 1 + 3) / 2 = 2 ^ (k + 3) := by rw [pow_succ 2 (k + 3)]; omega
      rw [if_pos hfew, hresult, if_neg (by omega)]
      exact ⟨k, rfl, by omega⟩
  · have hresult : 2 ^ (k + 3) * 2 = 2 ^ (k + 1 + 3) := by rw [← pow_succ]
    rw [if_neg hfew, if_neg (by omega)]
    exact ⟨k + 1, hresult, by omega⟩

/-- **Rehashing** any data whose valid entries are those of a map restores the invariant. -/
theorem exists_rehash (hsize : s.data.length = 2 ^ (k + 3))
    (hlists : Lists (s.data.filter (·.isValid)) m)
    (hcount : s.count = (s.data.filter (·.isValid)).length)
    (hlimit : s.count ≤ limitFor (2 ^ (k + 3))) : ∃ s', rehash s = some s' ∧ Inv s' m := by
  rw [hcount, Nat.cast_le, ← hsize] at hlimit
  obtain ⟨k', hk', hload⟩ := exists_sizeFor hsize hlimit
  rw [← hcount] at hk' hload
  rw [hk'] at hload
  have hfold : Returns False
      ((s.data.filter (·.isValid)).foldlM rehashEntry (noEntries (2 ^ (k' + 3)), 0))
      (Filled (k' + 3) (s.data.filter (·.isValid)).reverse) := by
    refine returns_foldlM_done (Filled (k' + 3)) (filled_noEntries _) ?_
    intro done e rest x hsplit hfilled
    rw [hsplit] at hlists hload
    have hmem : e ∈ done.reverse ++ e :: rest := by simp
    refine rehashEntry_filled hfilled ?_ (hlists.isObject e hmem) (hlists.valid e hmem).2
    rw [length_append, length_reverse, length_cons, limitFor] at hload
    omega
  obtain ⟨⟨data, used⟩, hdata, htable, hmarked, hused⟩ := hfold.exists_eq_some
  rw [length_reverse] at hused
  refine ⟨⟨data, used, s.count⟩, ?_, k', _, 0,
    ⟨htable, hmarked, hlists.perm (reverse_perm _), ?_, ?_⟩, ?_⟩
  · simp only [rehash, hk', hdata]
    rfl
  · rw [length_reverse]
    exact hused
  · rw [length_reverse]
    exact hcount
  · change used < _
    omega

/-- **`Rehash` succeeds and keeps the map.** -/
theorem Core.exists_rehash (h : Core k s m entries d) (hlimit : s.count ≤ limitFor (2 ^ (k + 3))) :
    ∃ s', rehash s = some s' ∧ Inv s' m := by
  have hperm := h.table.perm_filter
  rw [← filter_isValid h.marked] at hperm
  exact WeakTables.exists_rehash h.table.length_eq (h.lists.perm hperm)
    (by rw [h.count, hperm.length_eq]) hlimit

/-! ## Operations -/

/-- `GetValueExclusive` returns the value of the map. -/
theorem Inv.getValueExclusive (h : Inv s m) (hkey : IsObject key) :
    getValueExclusive s key = some (m key) := by
  obtain ⟨k, entries, d, h⟩ := h
  obtain ⟨j, e, hfirst, hcases⟩ := h.exists_end hkey
  rw [WeakTables.getValueExclusive, findIndex_eq h.table.length_eq hfirst]
  simp only [bind_eq_bind, bind_some, hfirst.get]
  rcases hcases with ⟨hno, hnone⟩ | ⟨rfl, hmem⟩
  · rw [if_pos hno, hnone]
    rfl
  · rw [if_neg hkey.1, (h.lists.valid e hmem).1]

/-- Writing a key and its value fills an entry. -/
theorem setValueAt_setObjectAt (he : s.data[idx]? = some e) (hval : val ≠ 0) :
    setValueAt (setObjectAt s idx key) idx val = { s with data := s.data.set idx ⟨key, val⟩ } := by
  have hidx := (List.getElem?_eq_some_iff.mp he).1
  have hget : (s.data.set idx { e with key := key })[idx]? = some { e with key := key } := by
    rw [getElem?_set_self hidx]
  simp only [setObjectAt, setValueAt, if_neg hval, modify_eq_set he, modify_eq_set hget, set_set]

/-- `SetValueExclusive` for a key that is not in the table. -/
theorem setValueExclusive_new {emptyIdx : Option ℕ} {e' : Entry}
    (hfind : findIndexOrEmpty s.data key = some (idx, emptyIdx)) (he : s.data[idx]? = some e)
    (hno : e.key = kNoEntry) (hval : val ≠ 0) (hi : emptyIdx.getD idx = i)
    (he' : s.data[i]? = some e')
    (hused : (if emptyIdx.isSome then s.used - 1 else s.used) = used) :
    setValueExclusive s key val =
      if (limitFor (s.data.set i ⟨key, val⟩).length : ℤ) ≤ used + 1 then
        rehash ⟨s.data.set i ⟨key, val⟩, used + 1, s.count + 1⟩
      else some ⟨s.data.set i ⟨key, val⟩, used + 1, s.count + 1⟩ := by
  rw [setValueExclusive, hfind]
  simp only [bind_eq_bind, bind_some, he]
  rw [if_neg (not_not_intro hno), if_neg hval, hused, hi,
    setValueAt_setObjectAt (s := { s with used := used }) he' hval]

/-- Entering a new key, with the rehash that may follow. -/
theorem Holds.enter (h : Holds k s m entries d) (hkey : IsObject key) (hnone : m key = 0)
    (hval : val ≠ 0) (he : s.data[idx]? = some e) (hmark : ¬IsObject e.key)
    (hreach : Reaches (marks.slotsOf s.data) (path (2 ^ (k + 3)) key) idx)
    (hused : used = s.used + if e.key = kNoEntry then 1 else 0) :
    ∃ s', (if (limitFor (s.data.set idx ⟨key, val⟩).length : ℤ) ≤ used then
        rehash ⟨s.data.set idx ⟨key, val⟩, used, s.count + 1⟩
      else some ⟨s.data.set idx ⟨key, val⟩, used, s.count + 1⟩) = some s' ∧
      Inv s' (update m key val) := by
  obtain ⟨d', hcore⟩ := h.toCore.enter hkey hnone hval he hmark hreach
  rw [← hused] at hcore
  rw [length_set, h.table.length_eq]
  split_ifs with hfull
  · apply hcore.exists_rehash
    have hused := h.used
    have hcount := h.count
    have hload := h.load
    dsimp only
    omega
  · exact ⟨_, rfl, k, _, d', hcore, not_le.mp hfull⟩

/-- **`SetValueExclusive` stores the value.** -/
theorem Inv.setValueExclusive (h : Inv s m) (hkey : IsObject key) (val : ℤ) :
    ∃ s', setValueExclusive s key val = some s' ∧ Inv s' (update m key val) := by
  obtain ⟨k, entries, d, h⟩ := h
  obtain ⟨j, e, hfirst, hcases⟩ := h.exists_end hkey
  have he := hfirst.get
  obtain ⟨emptyIdx, hfind, hempty⟩ := exists_findIndexOrEmpty h.table.length_eq hfirst
  rcases hcases with ⟨hno, hnone⟩ | ⟨rfl, hmem⟩
  · by_cases hval : val = 0
    · refine ⟨s, ?_, k, entries, d, by rwa [hval, ← hnone, update_eq_self]⟩
      rw [WeakTables.setValueExclusive, hfind]
      simp [he, hno, hval]
    cases emptyIdx with
    | none =>
      rw [setValueExclusive_new hfind he hno hval getD_none he (if_neg (by simp))]
      exact h.enter hkey hnone hval he (fun hobject => hobject.1 hno)
        (reaches_of_endsAt le_rfl hfirst) (by simp [hno])
    | some i =>
      -- A deleted slot that the probe has passed is used again.
      obtain ⟨l, hl, hi, e', he', hdeleted⟩ := hempty i rfl
      rw [setValueExclusive_new hfind he hno hval getD_some he' (if_pos rfl)]
      apply h.enter hkey hnone hval he' (fun hobject => hobject.2 hdeleted)
        (hi ▸ reaches_of_endsAt (le_of_lt hl) hfirst)
      have hne : e'.key ≠ kNoEntry := by rw [hdeleted]; decide
      simp [hne]
  · have hset : WeakTables.setValueExclusive s e.key val =
        some (WeakTables.setValueAt s (path (2 ^ (k + 3)) e.key j) val) := by
      rw [WeakTables.setValueExclusive, hfind]
      simp [he, hkey.1]
    refine ⟨_, hset, ?_⟩
    by_cases hval : val = 0
    · rw [hval]
      exact h.setValueAt_zero he hmem
    · exact h.setValueAt he hmem hval

/-- **`RemoveValueExclusive` removes the key** and returns its value. -/
theorem Inv.removeValueExclusive (h : Inv s m) (hkey : IsObject key) :
    ∃ s', removeValueExclusive s key = some (m key, s') ∧ Inv s' (update m key 0) := by
  obtain ⟨k, entries, d, h⟩ := h
  obtain ⟨j, e, hfirst, hcases⟩ := h.exists_end hkey
  rw [WeakTables.removeValueExclusive, findIndex_eq h.table.length_eq hfirst]
  simp only [bind_eq_bind, bind_some, hfirst.get]
  rcases hcases with ⟨hno, hnone⟩ | ⟨rfl, hmem⟩
  · refine ⟨s, by rw [if_pos hno, hnone]; rfl, k, entries, d, ?_⟩
    rwa [← hnone, update_eq_self]
  · exact ⟨_, by rw [if_neg hkey.1, (h.lists.valid e hmem).1], h.setValueAt_zero hfirst.get hmem⟩

/-- Moving the keys keeps which entries are valid. -/
theorem filter_isValid_map (data : List Entry) (visit : ObjectPtr → ObjectPtr) :
    (data.map fun e => if e.isValid then { e with key := visit e.key } else e).filter (·.isValid) =
      (data.filter (·.isValid)).map fun e => { e with key := visit e.key } := by
  induction data with
  | nil => rfl
  | cons e data ih =>
    rw [map_cons]
    by_cases hvalid : e.isValid
    · rw [if_pos hvalid, filter_cons_of_pos (by exact hvalid), ih,
        filter_cons_of_pos hvalid, map_cons]
    · rw [if_neg hvalid, filter_cons_of_neg hvalid, ih, filter_cons_of_neg hvalid]

variable {visit : ObjectPtr → ObjectPtr} {m' : ObjectPtr → ℤ}

/-- Moving the keys, if no two of them meet, moves the map. -/
theorem Lists.moves (h : Lists entries m) (hobject : ∀ key, m key ≠ 0 → IsObject (visit key))
    (hinj : Set.InjOn visit {key | m key ≠ 0}) (hm : Moves visit m m') :
    Lists (entries.map fun e => { e with key := visit e.key }) m' := by
  have hne : ∀ e ∈ entries, m e.key ≠ 0 := fun e he => (h.valid e he).1 ▸ (h.valid e he).2
  constructor
  · rw [List.map_map]
    have hkeys : (entries.map fun e => visit e.key) = (entries.map Entry.key).map visit := by
      rw [List.map_map]
      rfl
    refine hkeys ▸ Nodup.map_on (fun x hx y hy hxy => ?_) h.keys
    obtain ⟨e, he, rfl⟩ := mem_map.mp hx
    obtain ⟨e', he', rfl⟩ := mem_map.mp hy
    exact hinj (hne e he) (hne e' he') hxy
  · simp only [List.forall_mem_map]
    exact fun e he => hobject e.key (hne e he)
  · simp only [List.forall_mem_map]
    exact fun e he => ⟨by rw [hm.1 e.key (hne e he), (h.valid e he).1], (h.valid e he).2⟩
  · intro key' hkey'
    obtain ⟨key, hkey, rfl⟩ := hm.2 key' hkey'
    obtain ⟨e, he, rfl⟩ := h.complete key hkey
    exact ⟨_, mem_map_of_mem he, rfl⟩

/-- `Forward` ends, and the values are then found at the new addresses. -/
theorem Inv.forward (h : Inv s m) (hobject : ∀ key, m key ≠ 0 → IsObject (visit key))
    (hinj : Set.InjOn visit {key | m key ≠ 0}) (hm : Moves visit m m') :
    ∃ s', forward s visit = some s' ∧ Inv s' m' := by
  obtain ⟨k, entries, d, h⟩ := h
  have hused := h.used
  have hcount := h.count
  unfold WeakTables.forward
  by_cases hzero : s.used = 0
  · -- Nothing is used, so there are no keys to move.
    have hnil : entries = [] := length_eq_zero_iff.mp (by omega)
    have hlists := h.lists.moves hobject hinj hm
    rw [hnil, map_nil, ← hnil] at hlists
    exact ⟨s, if_pos hzero, k, entries, d, { h with lists := hlists }⟩
  · have hperm := h.table.perm_filter
    rw [← filter_isValid h.marked] at hperm
    rw [if_neg hzero]
    refine exists_rehash (k := k) ?_ ?_ ?_ ?_
    · rw [length_map, h.table.length_eq]
    · rw [filter_isValid_map]
      exact (h.lists.perm hperm).moves hobject hinj hm
    · rw [filter_isValid_map, length_map, hperm.length_eq]
      exact hcount
    · have hload := h.load
      dsimp only
      omega

/-- An array without entries represents the empty map. -/
theorem inv_noEntries (k : ℕ) : Inv ⟨noEntries (2 ^ (k + 3)), 0, 0⟩ fun _ => 0 := by
  obtain ⟨htable, hmarked, -⟩ := filled_noEntries (k + 3)
  refine ⟨k, [], 0, ⟨htable, hmarked, ⟨nodup_nil, by simp, by simp, by simp⟩, rfl, rfl⟩, ?_⟩
  have hpow : 2 ^ (k + 3) = 8 * 2 ^ k := by rw [pow_add]; ring
  have hpos := Nat.two_pow_pos k
  simp only [limitFor]
  omega

/-- A new table is empty. -/
theorem inv_new (k : ℕ) : Inv (new (2 ^ k)) fun _ => 0 := by
  rcases lt_or_ge k 3 with hsmall | hk
  · have hmin : 2 ^ k < kMinSize := Nat.pow_lt_pow_right (by omega) hsmall
    rw [new, if_pos hmin]
    exact inv_noEntries 0
  have hpow : 2 ^ 3 ≤ 2 ^ k := Nat.pow_le_pow_right (by decide) hk
  have hmin : ¬2 ^ k < kMinSize := not_lt.mpr hpow
  rw [new]
  split_ifs with hmax
  · exact inv_noEntries 55
  · obtain ⟨k, rfl⟩ := Nat.exists_eq_add_of_le' hk
    exact inv_noEntries k

/-- **Run lemma.** The invariant holds in every reachable table. -/
theorem Run.inv (h : Run s m) : Inv s m := by
  induction h with
  | new k => exact inv_new k
  | set _ hkey hs ih =>
    obtain ⟨s'', hs'', hinv⟩ := ih.setValueExclusive hkey _
    rwa [some.inj (hs.symm.trans hs'')]
  | remove _ hkey hs ih =>
    obtain ⟨s'', hs'', hinv⟩ := ih.removeValueExclusive hkey
    have heq := some.inj (hs.symm.trans hs'')
    rwa [(Prod.mk.inj heq).2]
  | forward _ hobject hinj hm hs ih =>
    obtain ⟨s'', hs'', hinv⟩ := ih.forward hobject hinj hm
    rwa [some.inj (hs.symm.trans hs'')]
  | reset _ _ => exact inv_noEntries 0

/-- **Weak tables are correct.** In every run, lookups return the last value set and not removed,
`count` is the number of keys with a value, `used` that of the slots that are not `kNoEntry`, and
one slot is, so that the operations end. -/
theorem weakTable_correct (h : Run s m) :
    (∀ key, IsObject key → getValueExclusive s key = some (m key)) ∧
    s.count = {key | m key ≠ 0}.ncard ∧ s.used = s.data.countP (·.key != kNoEntry) ∧
    (∃ e ∈ s.data, e.key = kNoEntry) ∧
    (∀ key val, IsObject key → ∃ s', setValueExclusive s key val = some s' ∧
      Run s' (update m key val)) ∧
    (∀ key, IsObject key → ∃ s', removeValueExclusive s key = some (m key, s') ∧
      Run s' (update m key 0)) ∧
    ∀ visit m', (∀ key, m key ≠ 0 → IsObject (visit key)) →
      Set.InjOn visit {key | m key ≠ 0} → Moves visit m m' →
      ∃ s', forward s visit = some s' ∧ Run s' m' := by
  have hinv := h.inv
  obtain ⟨k, entries, d, hholds⟩ := h.inv
  have hused := hholds.used
  refine ⟨fun key => hinv.getValueExclusive, ?_, ?_,
    hholds.table.exists_free hholds.room, ?_, ?_, ?_⟩
  · rw [hholds.count, hholds.lists.ncard_eq]
  · have hcount := hholds.table.countP_free
    have hsplit := s.data.length_eq_countP_add_countP (·.key == kNoEntry)
    have hnot : s.data.countP (fun e => !decide (e.key = kNoEntry)) =
        s.data.countP (·.key != kNoEntry) := countP_congr fun e _ => by simp
    simp only [beq_iff_eq, decide_not, hnot, hholds.table.length_eq] at hsplit
    change s.data.countP (·.key == kNoEntry) + _ + _ = _ at hcount
    omega
  · intro key val hkey
    obtain ⟨s', hs', -⟩ := hinv.setValueExclusive hkey val
    exact ⟨s', hs', h.set hkey hs'⟩
  · intro key hkey
    obtain ⟨s', hs', -⟩ := hinv.removeValueExclusive hkey
    exact ⟨s', hs', h.remove hkey hs'⟩
  · intro visit m' hobject hinj hm
    obtain ⟨s', hs', -⟩ := hinv.forward hobject hinj hm
    exact ⟨s', hs', h.forward hobject hinj hm hs'⟩

/-- Two values are set and one is removed. -/
theorem weakTable_correct_set_remove :
    ∃ s m, Run s m ∧ getValueExclusive s 17 = some 0 ∧ getValueExclusive s 33 = some 9 := by
  have hseventeen : IsObject 17 := ⟨by decide, by decide⟩
  have hthirtyThree : IsObject 33 := ⟨by decide, by decide⟩
  obtain ⟨s₁, -, h1⟩ := (weakTable_correct (Run.new 3)).2.2.2.2.1 17 7 hseventeen
  obtain ⟨s₂, -, h2⟩ := (weakTable_correct h1).2.2.2.2.1 33 9 hthirtyThree
  obtain ⟨s₃, -, h3⟩ := (weakTable_correct h2).2.2.2.2.2.1 17 hseventeen
  refine ⟨s₃, _, h3, ?_, ?_⟩
  · rw [(weakTable_correct h3).1 17 hseventeen]
    simp
  · rw [(weakTable_correct h3).1 33 hthirtyThree]
    simp

end DartVm.WeakTables
