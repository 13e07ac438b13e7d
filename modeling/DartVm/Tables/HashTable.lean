import DartVm.Library.OpenAddressing
import DartVm.Tables.LoadFactor

/-! # Hash tables of the VM

A model of `hash_table.h`: a map by open addressing with triangular probing, in an array of keys and
payloads, where two sentinels mark unused and deleted entries.  A probe that does not end is `none`,
or an `Abort` where the array may also not be allocated.  `probe_distance` is unbounded here, and
the statistics' counters are left out.

* `KeyTraits`, `HashTable`: the parameters and the state.
* `ensureLoadFactor`, `updateOrInsert`, `remove`: the operations.
* `Run`: the reachable tables, with their maps. -/

namespace DartVm.HashTables

open OpenAddressing LoadFactor

/-! ## Objects and traits -/

/-- **Objects** of the heap. -/
inductive Object (α : Type) where
  | null
  | transitionSentinel
  | sentinel
  | other (a : α)
deriving DecidableEq

/-- `UnusedMarker`. -/
def unusedMarker {α : Type} : Object α := .transitionSentinel

/-- `DeletedMarker`. -/
def deletedMarker {α : Type} : Object α := .sentinel

variable {α : Type}

/-- The object may be stored as a key. -/
def IsKey (o : Object α) : Prop := o ≠ unusedMarker ∧ o ≠ deletedMarker

/-- **Key traits**: matching is an equivalence, and keys that match have one hash. Objects are
lookup keys, too. -/
structure KeyTraits (α K : Type) where
  /-- An object as a lookup key. -/
  ofObject : Object α → K
  hash : K → BitVec 64
  isMatch : K → Object α → Bool
  newKey : K → Object α
  isMatch_self : ∀ o, IsKey o → isMatch (ofObject o) o
  isMatch_iff : ∀ k o o', IsKey o → IsKey o' → isMatch k o →
    (isMatch k o' ↔ isMatch (ofObject o) o')
  hash_eq : ∀ k o, IsKey o → isMatch k o → hash k = hash (ofObject o)
  isKey_newKey : ∀ k, IsKey (newKey k)
  isMatch_newKey : ∀ k, isMatch k (newKey k)

/-! ## The table -/

/-- Why a function does not return. -/
inductive Abort where
  | outOfMemory
  /-- A probe does not end. -/
  | endless
deriving DecidableEq

/-- The result of a probe, if it ends. -/
def orEndless {β : Type} : Option β → Except Abort β
  | none => .error .endless
  | some b => .ok b

/-- A key and its payload in the array. -/
structure Entry (α : Type) where
  key : Object α
  payload : Object α
deriving DecidableEq

/-- **Hash table**: the array from `kFirstKeyIndex` on, and two numbers of its header. -/
structure HashTable (α : Type) where
  /-- The entries; `NumEntries` is their number. -/
  entries : List (Entry α)
  numOccupied : ℤ
  numDeleted : ℤ
deriving DecidableEq

/-- `kFirstKeyIndex` of a table without metadata. -/
def kFirstKeyIndex : ℕ := 7

/-- `kEntrySize` of a table with one payload component. -/
def kEntrySize : ℕ := 2

/-- `Array::kMaxElements`: `kSmiMax / kBytesPerElement`. -/
def kMaxElements : ℕ := (2 ^ 62 - 1) / 8

/-- The number of entries in `ArrayLengthForNumOccupied`. -/
def numEntriesForNumOccupied (numOccupied : ℤ) : ℕ :=
  (roundUpToPowerOfTwo (BitVec.ofInt 64 (numOccupied + 1))).toNat

/-- `ArrayLengthForNumOccupied`. -/
def arrayLengthForNumOccupied (numOccupied : ℤ) : ℕ :=
  kFirstKeyIndex + kEntrySize * numEntriesForNumOccupied numOccupied

/-- `Initialize`. -/
def initializeTable (t : HashTable α) : HashTable α :=
  ⟨t.entries.map fun _ => ⟨unusedMarker, unusedMarker⟩, 0, 0⟩

/-- `HashTables::New`; the new array is filled with null. -/
def new (initialCapacity : ℤ) : Except Abort (HashTable α) :=
  if arrayLengthForNumOccupied initialCapacity ≤ kMaxElements then
    .ok (initializeTable
      ⟨List.replicate (numEntriesForNumOccupied initialCapacity) ⟨.null, .null⟩, 0, 0⟩)
  else .error .outOfMemory

/-- `IsUnused`. -/
def isUnused [DecidableEq α] (t : HashTable α) (entry : ℕ) : Bool :=
  t.entries[entry]?.any (·.key == unusedMarker)

/-- `IsDeleted`. -/
def isDeleted [DecidableEq α] (t : HashTable α) (entry : ℕ) : Bool :=
  t.entries[entry]?.any (·.key == deletedMarker)

/-- The key at the entry matches. -/
def isMatchAt {K : Type} (traits : KeyTraits α K) (t : HashTable α) (key : K) (entry : ℕ) : Bool :=
  t.entries[entry]?.any fun e => traits.isMatch key e.key

section Operations

variable {K : Type} [DecidableEq α] (traits : KeyTraits α K) (t : HashTable α)

/-- The first probe and its distance. -/
def firstProbe (numEntries : ℕ) (key : K) : ℕ × ℕ :=
  ((traits.hash key).toNat &&& (numEntries - 1), 1)

omit [DecidableEq α] in
/-- The probe after `s`, and its distance. -/
def nextProbe (numEntries : ℕ) (s : ℕ × ℕ) : ℕ × ℕ :=
  ((s.1 + s.2) &&& (numEntries - 1), s.2 + 1)

/-- Probing for the key ends at the entry. -/
def endsAt (key : K) (entry : ℕ) : Bool :=
  isUnused t entry || !isDeleted t entry && isMatchAt traits t key entry

/-- `FindKey`; the result is `none` for -1. -/
def findKey (key : K) : Option (Option ℕ) := do
  let probe ← loop (nextProbe t.entries.length)
    (fun s => if endsAt traits t key s.1 then some s.1 else none) t.entries.length
    (firstProbe traits t.entries.length key)
  some (if isUnused t probe then none else some probe)

/-- `FindKeyOrDeletedOrUnused`: whether the key is present, and the entry. -/
def findKeyOrDeletedOrUnused (key : K) : Option (Bool × ℕ) := do
  let ((probe, _), deleted) ← loop
    (remember (nextProbe t.entries.length) fun s => if isDeleted t s.1 then some s.1 else none)
    (fun x => if endsAt traits t key x.1.1 then some x else none) t.entries.length
    (firstProbe traits t.entries.length key, none)
  some (if isUnused t probe then (false, deleted.getD probe) else (true, probe))

/-- `InsertKey`: an entry that was deleted is no longer counted as such. -/
def insertKey (entry : ℕ) (key : Object α) : HashTable α :=
  ⟨t.entries.modify entry fun e => { e with key := key }, t.numOccupied + 1,
    if isDeleted t entry then t.numDeleted - 1 else t.numDeleted⟩

omit [DecidableEq α] in
/-- `UpdatePayload`. -/
def updatePayload (entry : ℕ) (value : Object α) : HashTable α :=
  { t with entries := t.entries.modify entry fun e => { e with payload := value } }

omit [DecidableEq α] in
/-- `DeleteEntry`: both the payload and the key are marked. -/
def deleteEntry (entry : ℕ) : HashTable α :=
  let t := updatePayload t entry deletedMarker
  ⟨t.entries.modify entry fun e => { e with key := deletedMarker }, t.numOccupied - 1,
    t.numDeleted + 1⟩

omit [DecidableEq α] in
/-- `GetPayload`. -/
def getPayload (entry : ℕ) : Object α := (t.entries[entry]?.map Entry.payload).getD .null

/-- `IsOccupied`, of an entry. -/
def Entry.isOccupied (e : Entry α) : Bool := e.key != unusedMarker && e.key != deletedMarker

/-- One iteration of the loop of `HashTables::Copy`. -/
def copyEntry (toTable : HashTable α) (e : Entry α) : Option (HashTable α) := do
  let (_, entry) ← findKeyOrDeletedOrUnused traits toTable (traits.ofObject e.key)
  return updatePayload (insertKey toTable entry e.key) entry e.payload

/-- `HashTables::Copy`: the occupied entries go into a table that is initialized first. -/
def copy (toTable : HashTable α) : Option (HashTable α) :=
  (t.entries.filter (·.isOccupied)).foldlM (copyEntry traits) (initializeTable toTable)

/-- `HashTables::EnsureLoadFactor`: rehashes when the table is too full or has too many deleted
entries. -/
def ensureLoadFactor : Except Abort (HashTable α) :=
  let tooManyDeleted := t.numOccupied ≤ t.numDeleted
  if isBelow (1 + t.numOccupied + t.numDeleted).toNat t.entries.length ∧ ¬tooManyDeleted then .ok t
  else do
    let newTable ← new (t.numOccupied * 2 + 1)
    orEndless (copy traits t newTable)

/-! ## The map -/

/-- `HashMap::GetOrNull`: the value, and whether there is one. -/
def getOrNull (key : K) : Option (Object α × Bool) := do
  match ← findKey traits t key with
  | none => return (.null, false)
  | some entry => return (getPayload t entry, true)

/-- `UpdateOrInsert`. -/
def updateOrInsert (key value : Object α) : Except Abort (Bool × HashTable α) := do
  let t ← ensureLoadFactor traits t
  let (present, entry) ← orEndless (findKeyOrDeletedOrUnused traits t (traits.ofObject key))
  let t := if present then t else insertKey t entry key
  return (present, updatePayload t entry value)

/-- `InsertNewOrGetValue`. -/
def insertNewOrGetValue (key : K) (valueIfAbsent : Object α) :
    Except Abort (Object α × HashTable α) := do
  let t ← ensureLoadFactor traits t
  let (present, entry) ← orEndless (findKeyOrDeletedOrUnused traits t key)
  if present then return (getPayload t entry, t)
  else return (valueIfAbsent,
    updatePayload (insertKey t entry (traits.newKey key)) entry valueIfAbsent)

/-- `Remove`. -/
def remove (key : K) : Option (Bool × HashTable α) := do
  match ← findKey traits t key with
  | none => return (false, t)
  | some entry => return (true, deleteEntry t entry)

omit [DecidableEq α] in
/-- `Clear`. -/
def clear : HashTable α := initializeTable t

end Operations

/-- The map `m` with `value` for the keys that match `o`. -/
def store {K : Type} (traits : KeyTraits α K) (m : K → Option (Object α)) (o : Object α)
    (value : Option (Object α)) : K → Option (Object α) :=
  fun k => if traits.isMatch k o then value else m k

/-- **Reachable tables**, with the last value stored for each key. -/
inductive Run {K : Type} [DecidableEq α] (traits : KeyTraits α K) :
    HashTable α → (K → Option (Object α)) → Prop
  | new {t : HashTable α} {initialCapacity : ℕ} (hcapacity : initialCapacity < 2 ^ 63)
      (h : new initialCapacity = .ok t) : Run traits t fun _ => none
  | updateOrInsert {t t' : HashTable α} {m : K → Option (Object α)} {key value : Object α}
      {present : Bool} (hrun : Run traits t m) (hkey : IsKey key)
      (h : updateOrInsert traits t key value = .ok (present, t')) :
      Run traits t' (store traits m key (some value))
  | insertNewOrGetValue {t t' : HashTable α} {m : K → Option (Object α)} {key : K}
      {valueIfAbsent value : Object α} (hrun : Run traits t m)
      (h : insertNewOrGetValue traits t key valueIfAbsent = .ok (value, t')) :
      Run traits t' (store traits m (traits.newKey key) (some ((m key).getD valueIfAbsent)))
  | remove {t t' : HashTable α} {m : K → Option (Object α)} {key : K} {present : Bool}
      (hrun : Run traits t m) (h : remove traits t key = some (present, t')) :
      Run traits t' (store traits m (traits.newKey key) none)
  | clear {t : HashTable α} {m : K → Option (Object α)} (hrun : Run traits t m) :
      Run traits (clear t) fun _ => none

end DartVm.HashTables
