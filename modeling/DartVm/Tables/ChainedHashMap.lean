import DartVm.Library.LinkedCells

/-! # Chained hash maps

A model of `hash_map.h`.  The first pair of each bucket lies in `array`, the others in cells of
`lists`, one chain for each bucket; the cells that no chain uses are the free list.  A dereference
outside the arrays, a chain without end, and an `Insert` that resizes from within `Resize` are
`none`; `chainedHashMap_correct` says that they do not occur.  Sizes are unbounded here.

* `KeyValueTrait`, `ChainedHashMap`: the parameters and the state.
* `insert`, `update`, `remove`, `lookup`, `clear`: the operations. -/

namespace DartVm.ChainedHashMaps

open LinkedCells

/-! ## Traits and maps -/

/-- **Key-value traits.** Any hash function that agrees on equal keys. -/
structure KeyValueTrait (P K V : Type) where
  pair : P
  keyOf : P → K
  valueOf : P → V
  hashcode : K → BitVec 64
  keyEqual : K → K → Bool
  keyEqual_refl : ∀ k, keyEqual k k
  keyEqual_symm : ∀ k k', keyEqual k k' → keyEqual k' k
  keyEqual_trans : ∀ k k' k'', keyEqual k k' → keyEqual k' k'' → keyEqual k k''
  hashcode_eq : ∀ k k', keyEqual k k' → hashcode k = hashcode k'

variable {P K V : Type} (trait : KeyValueTrait P K V)

/-- `IsKeyEqual` of the key-value trait. -/
def KeyValueTrait.isKeyEqual (kv : P) (key : K) : Bool := trait.keyEqual (trait.keyOf kv) key

/-- `HashMapListElement()`. -/
def KeyValueTrait.element : Cell P := ⟨trait.pair, none⟩

/-- **Chained hash map.** `array_size_` and `lists_size_` are the lengths of the lists. -/
structure ChainedHashMap (P : Type) where
  array : List (Cell P)
  lists : List (Cell P)
  freeListHead : Option ℕ
  count : ℤ
deriving DecidableEq

/-- `kInitialSize`. -/
def kInitialSize : ℕ := 16

/-- The position of a hash in the array, whose size is a power of two. -/
def bound (arraySize : ℕ) (hash : BitVec 64) : ℕ := hash.toNat &&& (arraySize - 1)

/-- One iteration of the last loop of `ResizeLists`: the cell `i` is put on the free list. -/
def freeCell (s : ChainedHashMap P) (i : ℕ) : ChainedHashMap P :=
  { s with
    lists := s.lists.modify i fun c => { c with next := s.freeListHead }
    freeListHead := some i }

/-- `ResizeLists`: the new cells are given to the free list. -/
def resizeLists (s : ChainedHashMap P) (newSize : ℕ) : ChainedHashMap P :=
  let oldSize := s.lists.length
  (List.range' oldSize (newSize - oldSize)).foldl freeCell
    { s with lists := s.lists ++ List.replicate (newSize - oldSize) trait.element }

/-- `ResizeLists` if the free list is empty. -/
def ensureFreeCell (s : ChainedHashMap P) : ChainedHashMap P :=
  if s.freeListHead = none then resizeLists trait s (s.lists.length * 2) else s

section Operations

variable [DecidableEq V]

/-- The value of the pair is `kNoValue`. -/
def hasNoValue (kv : P) : Bool := trait.valueOf kv = trait.valueOf trait.pair

/-- `Insert` after it has resized the map. -/
def insertBounded (s : ChainedHashMap P) (kv : P) : Option (ChainedHashMap P) := do
  let s := { s with count := s.count + 1 }
  let pos := bound s.array.length (trait.hashcode (trait.keyOf kv))
  let first ← s.array[pos]?
  if hasNoValue trait first.item then some { s with array := s.array.set pos ⟨kv, none⟩ }
  else
    let s := ensureFreeCell trait s
    let newElementPos ← s.freeListHead
    let element ← s.lists[newElementPos]?
    some { s with
      freeListHead := element.next
      lists := s.lists.set newElementPos ⟨kv, first.next⟩
      array := s.array.set pos { first with next := some newElementPos } }

section Resize

variable (insert : ChainedHashMap P → P → Option (ChainedHashMap P))

omit [DecidableEq V] in
/-- The inner loop of `Resize`: the pairs of a chain are inserted again, and its cells freed. -/
def moveChain : ℕ → ChainedHashMap P → Option ℕ → Option (ChainedHashMap P)
  | _, s, none => some s
  | 0, _, some _ => none
  | fuel + 1, s, some current => do
    let element ← s.lists[current]?
    let s ← insert s element.item
    let element ← s.lists[current]?
    let s := { s with
      lists := s.lists.set current { element with next := s.freeListHead }
      freeListHead := some current }
    moveChain fuel s element.next

/-- One iteration of the outer loop of `Resize`. -/
def moveBucket (s : ChainedHashMap P) (first : Cell P) : Option (ChainedHashMap P) :=
  if hasNoValue trait first.item then some s
  else do
    let s ← moveChain insert s.lists.length s first.next
    insert s first.item

/-- `Resize`. -/
def resizeWith (s : ChainedHashMap P) (newSize : ℕ) : Option (ChainedHashMap P) :=
  let s := ensureFreeCell trait s
  s.array.foldlM (moveBucket trait insert)
    { s with array := List.replicate newSize trait.element, count := 0 }

end Resize

/-- `Insert` with a bound on how deep `Insert` and `Resize` call each other. -/
def insertDepth : ℕ → ChainedHashMap P → P → Option (ChainedHashMap P)
  | 0, _, _ => none
  | depth + 1, s, kv => do
    let s ←
      if s.count ≥ s.array.length / 2 then
        resizeWith trait (insertDepth depth) s (s.array.length * 2)
      else some s
    insertBounded trait s kv

/-- `Insert`. -/
def insert (s : ChainedHashMap P) (kv : P) : Option (ChainedHashMap P) := insertDepth trait 2 s kv

/-- The constructor. -/
def new : Option (ChainedHashMap P) :=
  resizeWith trait (insertDepth trait 1) (resizeLists trait ⟨[], [], none, 0⟩ kInitialSize)
    kInitialSize

/-- Where a pair is. -/
inductive Place where
  | array (pos : ℕ)
  | lists (i : ℕ)
deriving DecidableEq

/-- `Lookup`: the place that the pointer refers to. -/
def lookupPlace (s : ChainedHashMap P) (key : K) : Option (Option Place) := do
  let pos := bound s.array.length (trait.hashcode key)
  let first ← s.array[pos]?
  if hasNoValue trait first.item then some none
  else if trait.isKeyEqual first.item key then some (some (.array pos))
  else do
    let found ← find s.lists (trait.isKeyEqual · key) s.lists.length first.next
    some (found.map .lists)

omit [DecidableEq V] in
/-- The pair at a place. -/
def pairAt (s : ChainedHashMap P) : Place → Option P
  | .array pos => s.array[pos]?.map Cell.item
  | .lists i => s.lists[i]?.map Cell.item

/-- `Lookup`: the pair, if there is one. -/
def lookup (s : ChainedHashMap P) (key : K) : Option (Option P) := do
  match ← lookupPlace trait s key with
  | none => some none
  | some place => return some (← pairAt s place)

omit [DecidableEq V] in
/-- Writing the pair at a place. -/
def setPair (s : ChainedHashMap P) (kv : P) : Place → ChainedHashMap P
  | .array pos => { s with array := s.array.modify pos fun c => { c with item := kv } }
  | .lists i => { s with lists := s.lists.modify i fun c => { c with item := kv } }

/-- `Update`: replaces the pair of a key, or inserts it. -/
def update (s : ChainedHashMap P) (kv : P) : Option (ChainedHashMap P) := do
  match ← lookupPlace trait s (trait.keyOf kv) with
  | some place => some (setPair s kv place)
  | none => insert trait s kv

/-- The cell `i` is cleared and put on the free list. -/
def releaseCell (s : ChainedHashMap P) (i : ℕ) : ChainedHashMap P :=
  { s with
    lists := s.lists.set i { trait.element with next := s.freeListHead }
    freeListHead := some i }

omit [DecidableEq V] in
/-- The last loop of `Remove`: the cell with the key and the one before it. -/
def findWithPrevious (lists : List (Cell P)) (key : K) :
    ℕ → ℕ → ℕ → Option (Option (ℕ × ℕ))
  | 0, _, _ => none
  | fuel + 1, previous, current => do
    let element ← lists[current]?
    if trait.isKeyEqual element.item key then some (some (previous, current))
    else
      match element.next with
      | none => some none
      | some next => findWithPrevious lists key fuel current next

/-- `Remove`: whether the key was there, and the map. -/
def remove (s : ChainedHashMap P) (key : K) : Option (Bool × ChainedHashMap P) := do
  let pos := bound s.array.length (trait.hashcode key)
  let first ← s.array[pos]?
  if hasNoValue trait first.item then some (false, s)
  else if trait.isKeyEqual first.item key then
    match first.next with
    | none =>
      some (true, { s with array := s.array.set pos trait.element, count := s.count - 1 })
    | some next => do
      let second ← s.lists[next]?
      let s := { s with array := s.array.set pos second, count := s.count - 1 }
      some (true, releaseCell trait s next)
  else
    match first.next with
    | none => some (false, s)
    | some current => do
      let second ← s.lists[current]?
      if trait.isKeyEqual second.item key then
        let s := { s with
          array := s.array.set pos { first with next := second.next }, count := s.count - 1 }
        some (true, releaseCell trait s current)
      else
        match second.next with
        | none => some (false, s)
        | some next =>
          match ← findWithPrevious trait s.lists key s.lists.length current next with
          | none => some (false, s)
          | some (previous, current) => do
            let element ← s.lists[current]?
            let s := { s with
              lists := s.lists.modify previous fun c => { c with next := element.next }
              count := s.count - 1 }
            some (true, releaseCell trait s current)

omit [DecidableEq V] in
/-- `Clear`. -/
def clear (s : ChainedHashMap P) : ChainedHashMap P :=
  if s.count = 0 then s
  else
    { array := List.replicate s.array.length trait.element
      lists := (List.range s.lists.length).map fun i =>
        { trait.element with next := if i = 0 then none else some (i - 1) }
      freeListHead := some (s.lists.length - 1)
      count := 0 }

/-! ## Iterators -/

/-- The position of an iterator: in the array, or in a chain. -/
structure Iterator where
  arrayIndex : ℕ
  listIndex : Option ℕ
deriving DecidableEq

/-- The first index from `i` on, where `rest` begins, of a bucket that is not empty. -/
def skipEmpty : List (Cell P) → ℕ → ℕ
  | [], i => i
  | first :: rest, i => if hasNoValue trait first.item then skipEmpty rest (i + 1) else i

/-- `Iterator::Next`. -/
def next (s : ChainedHashMap P) (it : Iterator) : Option (Option P × Iterator) :=
  match it.listIndex with
  | some current => do
    let element ← s.lists[current]?
    some (some element.item, { it with listIndex := element.next })
  | none =>
    let i := skipEmpty trait (s.array.drop it.arrayIndex) it.arrayIndex
    match s.array[i]? with
    | some first => some (some first.item, ⟨i + 1, first.next⟩)
    | none => some (none, ⟨i, none⟩)

/-- The pairs that `Next` returns before it returns null, in at most `fuel` calls. -/
def iterateFrom (s : ChainedHashMap P) : ℕ → Iterator → Option (List P)
  | 0, _ => none
  | fuel + 1, it => do
    match ← next trait s it with
    | (none, _) => some []
    | (some kv, it) => return kv :: (← iterateFrom s fuel it)

/-- The pairs of an iteration over the whole map. -/
def iterate (s : ChainedHashMap P) : Option (List P) :=
  iterateFrom trait s (s.array.length + s.lists.length + 1) ⟨0, none⟩

end Operations

end DartVm.ChainedHashMaps
