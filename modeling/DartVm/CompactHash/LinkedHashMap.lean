import DartVm.Library.OpenAddressing

/-! # The linked hash map

A model of `_HashBase` and `_LinkedHashMapMixin` of `sdk/lib/_internal/vm/lib/compact_hash.dart`:
keys and values lie in `_data` in the order of insertion, and an element of `_index` packs a hash
pattern and the number of an entry into 32 bits.

`putIfAbsent` calls back into the program, which may use the map meanwhile.  So a program is a
sequence of calls where `putIfAbsent` and the end of its callback are two calls.

* `KeyEquality`: the equality and the hash codes of the keys, with their laws.
* `LinkedHashMap`: the fields of a map.
* `set`, `remove`, `putIfAbsent`, `clear`: the operations of the source. -/

namespace DartVm.CompactHash

open OpenAddressing

/-! ## State -/

/-- What an element of `_data` can be. -/
inductive Datum (K V : Type) where
  | null
  /-- The list itself, which marks what was deleted. -/
  | deleted
  | key (k : K)
  | value (v : V)
deriving DecidableEq, Repr

/-- The fields of `_HashVMBase`. -/
structure LinkedHashMap (K V : Type) where
  /-- `_index`, a list of unsigned numbers of 32 bits. -/
  index : List ℕ
  hashMask : ℕ
  data : List (Datum K V)
  /-- The number of lists that were allocated before `data`, which tells it from them. -/
  dataId : ℕ
  usedData : ℕ
  deletedKeys : ℕ
deriving DecidableEq, Repr

/-- What the map uses of its keys, and the size of small integers. -/
structure KeyEquality (K : Type) where
  hashCode : K → BitVec 64
  equals : K → K → Bool
  has63BitSmis : Bool

/-- **Equality is an equivalence**, and hash codes are compatible with it. -/
structure KeyEquality.Lawful {K : Type} (keys : KeyEquality K) : Prop where
  refl : ∀ a, keys.equals a a
  symm : ∀ a b, keys.equals a b → keys.equals b a
  trans : ∀ a b c, keys.equals a b → keys.equals b c → keys.equals a c
  hash : ∀ a b, keys.equals a b → keys.hashCode a = keys.hashCode b

/-! ## `_HashBase` -/

/-- `_INITIAL_INDEX_SIZE`. -/
def initialIndexSize : ℕ := 8

/-- `_UNUSED_PAIR`. -/
def unusedPair : ℕ := 0

/-- `_DELETED_PAIR`. -/
def deletedPair : ℕ := 1

/-- `_indexSizeToHashMask`; the bit length of a positive number is its logarithm and one. -/
def indexSizeToHashMask (has63BitSmis : Bool) (indexSize : ℕ) : ℕ :=
  let indexBits := Nat.log2 indexSize + 1 - 2
  if has63BitSmis then 2 ^ (32 - indexBits) - 1 else 2 ^ (30 - indexBits) - 1

/-- `_hashPattern`: the part of the hash that is stored in the index, above the entry number. -/
def hashPattern (fullHash : BitVec 64) (hashMask size : ℕ) : ℕ :=
  let maskedHash := fullHash.toNat &&& hashMask
  if maskedHash = 0 then size >>> 1 else maskedHash * (size >>> 1)

/-- `_firstProbe`. -/
def firstProbe (fullHash : BitVec 64) (sizeMask : ℕ) : ℕ :=
  let i := fullHash.toNat &&& sizeMask
  ((i <<< 1) + i) &&& sizeMask

/-- `_nextProbe`. -/
def nextProbe (sizeMask i : ℕ) : ℕ := (i + 1) &&& sizeMask

namespace Datum

variable {K V : Type}

/-- `_isDeleted`: the mark for deleted keys, which is the data array itself in the source. -/
def isDeleted : Datum K V → Bool
  | .deleted => true
  | _ => false

/-- `_equals(key, datum)`; only a key can be equal to a key. -/
def equalsKey (keys : KeyEquality K) (key : K) : Datum K V → Bool
  | .key k => keys.equals key k
  | _ => false

end Datum

/-! ## `_LinkedHashMapMixin` -/

namespace LinkedHashMap

variable {K V : Type}

/-- A new map. -/
def initial : LinkedHashMap K V := ⟨[0], 0, [], 0, 0, 0⟩

variable (keys : KeyEquality K) (m : LinkedHashMap K V)

/-- `_checkSum`: changes with every insertion and removal. -/
def checkSum : ℕ := m.usedData + m.deletedKeys

/-- `length`. -/
def length : ℕ := (m.usedData >>> 1) - m.deletedKeys

/-- The entry of `_data` that a pair stands for, if it is one for `key`. -/
def matchEntry (key : K) (hashPattern size pair : ℕ) : Option ℕ :=
  let entry := hashPattern ^^^ pair
  if entry < size >>> 1 ∧ m.data[entry <<< 1]?.any (·.equalsKey keys key) then some (entry <<< 1)
  else none

/-- Where `_findValueOrInsertPoint` returns: at an unused pair or at one for the key. -/
def findResult (key : K) (hashPattern size : ℕ) (s : ℕ × Option ℕ) : Option ℤ :=
  match m.index[s.1]? with
  | none => none
  | some pair =>
    if pair = unusedPair then some (-(s.2.getD s.1 : ℤ))
    else if pair = deletedPair then none
    else (m.matchEntry keys key hashPattern size pair).map fun d : ℕ => (d : ℤ) + 1

/-- `_findValueOrInsertPoint`. The first deleted pair is remembered; going around the index has no
end. -/
def findValueOrInsertPoint (key : K) (fullHash : BitVec 64) (hashPattern size : ℕ) : Option ℤ :=
  loop (remember (nextProbe (size - 1)) fun i =>
    if m.index[i]? = some deletedPair then some i else none)
    (m.findResult keys key hashPattern size) size (firstProbe fullHash (size - 1), none)

/-- The body of the loop of `_init`, where `set` is `operator []=`. -/
def copyEntry (set : LinkedHashMap K V → K → V → Option (LinkedHashMap K V))
    (oldData : List (Datum K V)) (this : LinkedHashMap K V) (i : ℕ) : Option (LinkedHashMap K V) :=
  match oldData[2 * i]?, oldData[2 * i + 1]? with
  | some .deleted, _ => some this
  | some (.key key), some (.value value) => set this key value
  | _, _ => none

/-- `_init`: a new index of the given size, into which the old entries are inserted with `set`. -/
def init (set : LinkedHashMap K V → K → V → Option (LinkedHashMap K V)) (size hashMask : ℕ)
    (oldData : List (Datum K V)) (oldUsed : ℕ) : Option (LinkedHashMap K V) :=
  let initialSize := size < initialIndexSize
  let hashMask :=
    if initialSize then indexSizeToHashMask keys.has63BitSmis initialIndexSize else hashMask
  let size := if initialSize then initialIndexSize else size
  let new : LinkedHashMap K V :=
    ⟨List.replicate size unusedPair, hashMask, List.replicate size .null, m.dataId + 1, 0, 0⟩
  (List.range ((oldUsed + 1) / 2)).foldlM (copyEntry set oldData) new

/-- `_rehash`: in place if many keys are deleted, and else to twice the size. -/
def rehash (set : LinkedHashMap K V → K → V → Option (LinkedHashMap K V)) :
    Option (LinkedHashMap K V) :=
  if m.deletedKeys <<< 2 > m.usedData then
    m.init keys set m.index.length m.hashMask m.data m.usedData
  else m.init keys set (m.index.length <<< 1) (m.hashMask >>> 1) m.data m.usedData

/-- `_insert`: writes the entry to the found slot, after rehashing if the data is full. -/
def insert (set : LinkedHashMap K V → K → V → Option (LinkedHashMap K V)) (key : K) (value : V)
    (hashPattern i : ℕ) : Option (LinkedHashMap K V) :=
  if m.usedData = m.data.length then do
    let m ← m.rehash keys set
    set m key value
  else
    some { m with
      index := m.index.set i ((hashPattern ||| m.usedData >>> 1) % 2 ^ 32)
      data := (m.data.set m.usedData (.key key)).set (m.usedData + 1) (.value value)
      usedData := m.usedData + 2 }

/-- `operator []=`, with a bound on how deep it calls itself. -/
def setWithin (keys : KeyEquality K) :
    ℕ → LinkedHashMap K V → K → V → Option (LinkedHashMap K V)
  | 0, _, _, _ => none
  | depth + 1, m, key, value => do
    let size := m.index.length
    let fullHash := keys.hashCode key
    let pattern := hashPattern fullHash m.hashMask size
    let d ← m.findValueOrInsertPoint keys key fullHash pattern size
    if d > 0 then some { m with data := m.data.set d.toNat (.value value) }
    else m.insert keys (setWithin keys depth) key value pattern (-d).toNat

/-- `operator []=`: the calls after a rehash do not rehash again. -/
def set (key : K) (value : V) : Option (LinkedHashMap K V) := setWithin keys 2 m key value

/-- `clear`. -/
def clear : Option (LinkedHashMap K V) :=
  if m.length = 0 then some m
  else m.init keys (setWithin keys 1) initialIndexSize m.hashMask [] 0

/-- Where the loop of `remove` and `_getValueOrData` ends: at an unused pair or at one
for the key. -/
def findPlace (key : K) (hashPattern size i : ℕ) : Option (Option (ℕ × ℕ)) :=
  match m.index[i]? with
  | none => none
  | some pair =>
    if pair = unusedPair then some none
    else if pair = deletedPair then none
    else (m.matchEntry keys key hashPattern size pair).map fun d => some (i, d)

/-- The loop of `remove` and `_getValueOrData`: the places of the key in `_index` and `_data`. -/
def find (key : K) : Option (Option (ℕ × ℕ)) :=
  let size := m.index.length
  let fullHash := keys.hashCode key
  let pattern := hashPattern fullHash m.hashMask size
  loop (nextProbe (size - 1)) (m.findPlace keys key pattern size) size
    (firstProbe fullHash (size - 1))

/-- `remove`. -/
def remove (key : K) : Option (Option (Datum K V) × LinkedHashMap K V) := do
  match ← m.find keys key with
  | some (i, d) =>
    let value ← m.data[d + 1]?
    some (some value, { m with
      index := m.index.set i deletedPair
      data := (m.data.set d .deleted).set (d + 1) .deleted
      deletedKeys := m.deletedKeys + 1 })
  | none => some (none, m)

/-- `operator []`. -/
def get (key : K) : Option (Option (Datum K V)) := do
  match ← m.find keys key with
  | some (_, d) =>
    let value ← m.data[d + 1]?
    some (some value)
  | none => some none

/-- What an iterator over `_data` yields from an offset on. -/
def iterate (data : List (Datum K V)) (len offset : ℕ) : List (Datum K V) :=
  if offset < len then
    match data[offset]? with
    | none => []
    | some datum =>
      if datum.isDeleted then iterate data len (offset + 2)
      else datum :: iterate data len (offset + 2)
  else []
termination_by len - offset

end LinkedHashMap

/-! ## Programs -/

/-- A call of `putIfAbsent` that waits for its callback. -/
structure Pending (K : Type) where
  key : K
  hashPattern : ℕ
  /-- The insertion point. -/
  i : ℕ
  oldDataId : ℕ
  oldCheckSum : ℕ

/-- A map, with the calls of `putIfAbsent` that are not finished, the last one first. -/
structure Machine (K V : Type) where
  map : LinkedHashMap K V
  pending : List (Pending K)

/-- What a program does next. -/
inductive Call (K V : Type) where
  | get (key : K)
  | containsKey (key : K)
  | length
  /-- Iterating over `keys`. -/
  | keys
  /-- Iterating over `values`. -/
  | values
  | set (key : K) (value : V)
  | putIfAbsent (key : K)
  /-- The callback of the last `putIfAbsent` that is not finished returns. -/
  | ifAbsentReturns (value : V)
  | ifAbsentThrows
  | remove (key : K)
  | clear

/-- What a call returns. -/
inductive Outcome (K V : Type) where
  | done
  | value (datum : Option (Datum K V))
  | bool (b : Bool)
  | number (n : ℕ)
  | list (l : List (Datum K V))
  | callsIfAbsent
deriving DecidableEq, Repr

namespace Machine

variable {K V : Type}

/-- A machine with a new map. -/
def initial : Machine K V := ⟨.initial, []⟩

variable (keys : KeyEquality K) (s : Machine K V)

/-- The first part of `putIfAbsent`. -/
def putIfAbsent (key : K) : Option (Machine K V × Outcome K V) := do
  let m := s.map
  let size := m.index.length
  let fullHash := keys.hashCode key
  let pattern := hashPattern fullHash m.hashMask size
  let d ← m.findValueOrInsertPoint keys key fullHash pattern size
  if d > 0 then
    let value ← m.data[d.toNat]?
    some (s, .value (some value))
  else some ({ s with pending := ⟨key, pattern, (-d).toNat, m.dataId, m.checkSum⟩ :: s.pending },
    .callsIfAbsent)

/-- How `putIfAbsent` inserts the value that its callback has returned. -/
def insertAbsent (m : LinkedHashMap K V) (p : Pending K) (value : V) : Option (LinkedHashMap K V) :=
  if m.dataId ≠ p.oldDataId ∨ m.checkSum ≠ p.oldCheckSum then m.set keys p.key value
  else m.insert keys (LinkedHashMap.setWithin keys 1) p.key value p.hashPattern p.i

/-- The second part of `putIfAbsent`, after the callback has returned. -/
def ifAbsentReturns (value : V) : Option (Machine K V × Outcome K V) :=
  match s.pending with
  -- No callback is running.
  | [] => some (s, .done)
  | p :: pending => do
    let m ← insertAbsent keys s.map p value
    some (⟨m, pending⟩, .value (some (.value value)))

/-- One call. -/
def call : Call K V → Option (Machine K V × Outcome K V)
  | .get key => do
    let value ← s.map.get keys key
    some (s, .value value)
  | .containsKey key => do
    let value ← s.map.get keys key
    some (s, .bool value.isSome)
  | .length => some (s, .number s.map.length)
  | .keys => some (s, .list (LinkedHashMap.iterate s.map.data s.map.usedData 0))
  | .values => some (s, .list (LinkedHashMap.iterate s.map.data s.map.usedData 1))
  | .set key value => do
    let m ← s.map.set keys key value
    some ({ s with map := m }, .done)
  | .putIfAbsent key => s.putIfAbsent keys key
  | .ifAbsentReturns value => s.ifAbsentReturns keys value
  | .ifAbsentThrows => some ({ s with pending := s.pending.tail }, .done)
  | .remove key => do
    let (value, m) ← s.map.remove keys key
    some ({ s with map := m }, .value value)
  | .clear => do
    let m ← s.map.clear keys
    some ({ s with map := m }, .done)

/-- A sequence of calls. -/
def run (keys : KeyEquality K) :
    Machine K V → List (Call K V) → Option (Machine K V × List (Outcome K V))
  | s, [] => some (s, [])
  | s, c :: calls => do
    let (s, outcome) ← s.call keys c
    let (s, outcomes) ← run keys s calls
    some (s, outcome :: outcomes)

end Machine

end DartVm.CompactHash
