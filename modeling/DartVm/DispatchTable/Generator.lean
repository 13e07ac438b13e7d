import Mathlib.Algebra.Order.Ring.Nat
import DartVm.Library.Interval
import DartVm.Library.Sorter
import Mathlib.Data.List.FinRange
import Mathlib.Data.List.GetD

/-! # The dispatch table generator

A model of `compiler/aot/dispatch_table_generator.cc`: which class ids inherit which implementation
of a selector, how the rows are packed into one table, and how it is filled.  `none` stands for
reading behind the end of an array, an overflow of an `int32_t`, or a loop that does not end.

* `Program`, `Table`: input and output of the generator.
* `cidSubclassRanges`: which class ids inherit from a class. -/

namespace DartVm.DispatchTable

/-- `kIllegalCid`: there is no superclass. -/
def kIllegalCid : ℕ := 0

/-- `INT_MAX`, also `INT32_MAX`. -/
def intMax : ℕ := 2147483647

/-- An `int32_t` that is not negative. -/
def int32 (n : ℕ) : Option ℕ := if n ≤ intMax then some n else none

/-! ## Classes and selectors -/

/-- What the generator reads from a `Function` of a class. -/
structure FunctionInfo (Fn : Type) where
  function : Fn
  /-- `IsDynamicFunction(allow_abstract = false)`. -/
  isDynamic : Bool
  /-- `SelectorMap::SelectorId`, `none` for `kInvalidSelectorId`. -/
  selectorId : Option ℕ
  /-- `GetMethodExtractor` for the getter name of the function. -/
  extractor : Fn
  /-- `SelectorMap::SelectorId` of the method extractor. -/
  extractorSelectorId : Option ℕ

/-- What the generator reads from a `Class`. -/
structure ClassInfo (Fn : Type) where
  isAbstract : Bool
  /-- The id of `SuperClass`, `none` if that is null. -/
  superClass : Option ℕ
  functions : List (FunctionInfo Fn)

/-- `TableSelector` without its offset, which the rows hold here. -/
structure TableSelector where
  callCount : ℕ
  /-- Some call site may have `null` as its receiver. -/
  calledOnNull : Bool
  /-- The selector is in the interface of `null`. -/
  onNullInterface : Bool
  /-- Some tear-off uses the selector. -/
  tornOff : Bool
deriving DecidableEq

/-- `TableSelector::IsUsed`. -/
def TableSelector.isUsed (s : TableSelector) : Bool := 0 < s.callCount

/-- **Input of the generator**: the class table and the selectors. -/
structure Program (Fn : Type) where
  numClasses : ℕ
  /-- The class table, `none` where a class id is not in use. -/
  classes : ℕ → Option (ClassInfo Fn)
  selectors : List TableSelector
  nullCid : ℕ

/-- `DispatchTable::OriginElement` and `DispatchTable::LargestSmallOffset` of a target. -/
structure Target where
  /-- The offset that is cheapest to encode. -/
  originElement : ℕ
  /-- The largest offset with a short encoding. -/
  largestSmallOffset : ℕ
deriving DecidableEq

/-- `TARGET_ARCH_X64`. -/
def Target.x64 : Target := ⟨16, 31⟩

/-- `TARGET_ARCH_ARM`. -/
def Target.arm : Target := ⟨1023, 2046⟩

/-- `TARGET_ARCH_ARM64`. -/
def Target.arm64 : Target := ⟨4096, 8192⟩

/-- `CidInterval`: class ids that have an implementation of a selector from the same class. -/
structure CidInterval (Fn : Type) where
  cid : ℕ
  /-- Its depth in the class hierarchy, an `int16_t`. -/
  depth : Int16
  /-- The class ids. -/
  range : Interval
  /-- The implementation, none for the interval of `null`. -/
  function : Option Fn

/-- `SelectorRow`, with the parts of its `TableSelector` that packing uses. -/
structure SelectorRow (Fn : Type) where
  sid : ℕ
  callCount : ℕ
  classRanges : List (CidInterval Fn)
  ranges : List Interval
  totalSize : ℕ
  /-- The offset of the selector, `none` for `kInvalidSelectorOffset`. -/
  offset : Option ℕ

/-- The sorting routines the generator is compiled with: the `qsort` behind `GrowableArray::Sort`,
at three element types. -/
structure Sorters (Fn : Type) where
  /-- For `SelectorRow::Finalize`. -/
  intervals : Sorter Interval
  /-- For `ComputeSelectorOffsets`. -/
  rows : Sorter (SelectorRow Fn)
  /-- For `SelectorRow::FillTable`. -/
  classRanges : Sorter (CidInterval Fn)

section

variable {Fn α : Type} (P : Program Fn)

namespace Program

/-! ## `SetupSelectorRows` -/

/-- `parent_cids`. -/
def parentCid (cid : ℕ) : ℕ :=
  match P.classes cid with
  | some klass => klass.superClass.getD kIllegalCid
  | none => kIllegalCid

/-- The class exists and is not abstract. -/
def isConcreteClass (cid : ℕ) : Bool :=
  match P.classes cid with
  | some klass => !klass.isAbstract
  | none => false

/-- The class ids that a loop `while (pcid != kIllegalCid) pcid = parent_cids[pcid]` visits. -/
def superChain : ℕ → ℕ → List ℕ
  | 0, _ => []
  | fuel + 1, pcid =>
    if pcid = kIllegalCid then [] else pcid :: superChain fuel (P.parentCid pcid)

/-- The class and its superclasses, from the class upwards. -/
def supers (cid : ℕ) : List ℕ := P.superChain P.numClasses cid

/-- `cid_depth`: the number of iterations of the loop, counted in an `int16_t`. -/
def cidDepth (cid : ℕ) : Int16 := Int16.ofNat (P.supers cid).length

/-- `is_subclass`: going up from `subCid`, the loop stops at `cid`. -/
def isSubclass (cid subCid : ℕ) : Bool := cid ∈ P.supers subCid

/-- What the subclass ranges of a class hold: its concrete subclasses. -/
def inRange (cid subCid : ℕ) : Bool := P.isSubclass cid subCid && P.isConcreteClass subCid

/-- The loop over `sub_cid`, below `subCid`: the ranges found, and the start of the open one, if
any. -/
def subclassRangesLoop (cid : ℕ) : (subCid : ℕ) → List Interval × Option {start // start < subCid}
  | 0 => ([], none)
  | subCid + 1 =>
    match subclassRangesLoop cid subCid with
    | (ranges, none) =>
      if P.inRange cid subCid then (ranges, some ⟨subCid, Nat.lt_succ_self subCid⟩)
      else (ranges, none)
    | (ranges, some ⟨start, h⟩) =>
      if P.inRange cid subCid then (ranges, some ⟨start, Nat.lt_succ_of_lt h⟩)
      else (ranges ++ [⟨start, subCid, h⟩], none)

/-- `cid_subclass_ranges`: the subclasses of each class as runs of class ids. -/
def cidSubclassRanges (cid : ℕ) : List Interval :=
  match P.subclassRangesLoop cid P.numClasses with
  | (ranges, none) => ranges
  | (ranges, some ⟨start, h⟩) => ranges ++ [⟨start, P.numClasses, h⟩]

/-- The implementations that one function gives its class: itself, and its method extractor if the
selector is torn off. -/
def functionImplementations (f : FunctionInfo Fn) : List (ℕ × Fn) :=
  if f.isDynamic then
    match f.selectorId with
    | none => []
    | some sid =>
      (sid, f.function) ::
        if P.selectors[sid]?.any (·.tornOff) then
          match f.extractorSelectorId with
          | none => []
          | some tearoffSid => [(tearoffSid, f.extractor)]
        else []
  else []

/-- The implementations of selectors in a class, in the order the generator meets them. -/
def implementations (cid : ℕ) : List (ℕ × Fn) :=
  match P.classes cid with
  | some klass => klass.functions.flatMap P.functionImplementations
  | none => []

/-- `MakeIntervals` for one implementation of a class: the selector row and what is added to it. -/
def makeIntervals (cid : ℕ) (sid : ℕ) (function : Fn) : List (ℕ × CidInterval Fn) :=
  (P.cidSubclassRanges cid).map fun range => (sid, ⟨cid, P.cidDepth cid, range, some function⟩)

/-- All calls of `DefineSelectorImplementationForInterval` for classes, in order. -/
def classIntervals : List (ℕ × CidInterval Fn) :=
  (List.range' (kIllegalCid + 1) (P.numClasses - 1)).flatMap fun cid =>
    (P.implementations cid).flatMap fun impl => P.makeIntervals cid impl.1 impl.2

/-- The interval of `null` in the row of a selector that may be called on `null` but is not in its
interface. -/
def nullIntervals (selector : TableSelector) : List (CidInterval Fn) :=
  if selector.calledOnNull && !selector.onNullInterface then
    [⟨P.nullCid, 0, ⟨P.nullCid, P.nullCid + 1, Nat.lt_succ_self _⟩, none⟩]
  else []

/-- `class_ranges_` of a selector row when all implementations have been added. -/
def classRanges (sid : ℕ) (selector : TableSelector) : List (CidInterval Fn) :=
  P.nullIntervals selector ++ (P.classIntervals.filter (·.1 == sid)).map (·.2)

end Program

/-! ## `SelectorRow::Finalize` -/

/-- `Interval::Contains`. -/
def contains (a b : Interval) : Bool :=
  (a.begin_ ≤ b.begin_ && b.begin_ ≤ a.end_) && (a.begin_ ≤ b.end_ && b.end_ ≤ a.end_)

/-- `Interval::ExtendToIncludeInterval`. -/
def extendToIncludeInterval (a b : Interval) : Interval :=
  ⟨min a.begin_ b.begin_, max a.end_ b.end_, by have := a.lt; omega⟩

/-- `IntervalSorter::Compare` of `Finalize`. -/
def compareIntervals (a b : Interval) : ℤ :=
  if a.begin_ ≠ b.begin_ then (a.begin_ : ℤ) - b.begin_ else (b.length : ℤ) - a.length

/-- The loop that drops and extends entries. `current` is `ranges_[current_index]`; what lies before
it is final. -/
def mergeRanges (current : Interval) : List Interval → List Interval
  | [] => [current]
  | next :: rest =>
    if contains current next then mergeRanges current rest
    else if current.end_ = next.begin_ then
      mergeRanges (extendToIncludeInterval current next) rest
    else current :: mergeRanges next rest

/-- The ranges that `Finalize` computes from the class ranges. -/
def mergedRanges (S : Sorters Fn) (classRanges : List (CidInterval Fn)) : List Interval :=
  match S.intervals.sort compareIntervals (classRanges.map (·.range)) with
  | [] => []
  | first :: rest => mergeRanges first rest

/-- `SelectorRow::Finalize`: no row without class ranges. -/
def finalize (S : Sorters Fn) (sid : ℕ) (selector : TableSelector)
    (classRanges : List (CidInterval Fn)) : Option (SelectorRow Fn) :=
  if classRanges.isEmpty then none
  else
    let ranges := mergedRanges S classRanges
    some ⟨sid, selector.callCount, classRanges, ranges, (ranges.map (·.length)).sum, none⟩

/-- `table_rows_` after `SetupSelectorRows`. -/
def setupSelectorRows (S : Sorters Fn) : List (SelectorRow Fn) :=
  P.selectors.zipIdx.filterMap fun (selector, sid) =>
    if selector.isUsed then finalize S sid selector (P.classRanges sid selector) else none

/-! ## `RowFitter` -/

/-- `RowFitter`: the free slots and where the last search started. -/
structure RowFitter where
  freeSlots : List Interval
  firstSlotIndex : ℕ

/-- The slots before any row is allocated. -/
def RowFitter.initial : RowFitter := ⟨[⟨0, intMax, by decide⟩], 0⟩

/-- `RowFitter::MoveForwardToCover`, on the slots from `slotIndex` on. -/
def moveForwardFrom (range : Interval) : List Interval → ℕ → Option ℕ
  | [], _ => none
  | slot :: rest, slotIndex =>
    if slot.end_ < range.end_ then moveForwardFrom range rest (slotIndex + 1) else some slotIndex

/-- `MoveForwardToCover`: the index of a slot that may cover the range. -/
def moveForwardToCover (slots : List Interval) (range : Interval) (slotIndex : ℕ) : Option ℕ :=
  moveForwardFrom range (slots.drop slotIndex) slotIndex

/-- `RowFitter::FitInFreeSlot`: the slots and the slot index afterwards. -/
def fitInFreeSlot (slots : List Interval) (range : Interval) (slotIndex : ℕ) :
    Option (List Interval × ℕ) := do
  let slot ← slots[slotIndex]?
  if hb : slot.begin_ < range.begin_ then
    let freeBefore : Interval := ⟨slot.begin_, range.begin_, hb⟩
    if he : range.end_ < slot.end_ then
      let freeAfter : Interval := ⟨range.end_, slot.end_, he⟩
      some ((slots.set slotIndex freeBefore).insertIdx (slotIndex + 1) freeAfter, slotIndex)
    else some (slots.set slotIndex freeBefore, slotIndex + 1)
  else if he : range.end_ < slot.end_ then
    let freeAfter : Interval := ⟨range.end_, slot.end_, he⟩
    some (slots.set slotIndex freeAfter, slotIndex)
  else some (slots.eraseIdx slotIndex, slotIndex)

/-- `UpdateFreeSlots`: takes the ranges of a placed row out of the free slots. -/
def updateFreeSlots (offset : ℕ) : List Interval → ℕ → List Interval → Option (List Interval)
  | [], _, slots => some slots
  | r :: ranges, slotIndex, slots => do
    let range := r.shift offset
    let slotIndex ← moveForwardToCover slots range slotIndex
    let (slots, slotIndex) ← fitInFreeSlot slots range slotIndex
    updateFreeSlots offset ranges slotIndex slots

/-- The loop of `RowFitter::TryFit`: `some none` if every range is in a free slot, else the next
offset. -/
def tryFitRanges (slots : List Interval) (offset : ℕ) : List Interval → ℕ → Option (Option ℕ)
  | [], _ => some none
  | r :: ranges, slotIndex => do
    let range := r.shift offset
    let slotIndex ← moveForwardToCover slots range slotIndex
    let slot ← slots[slotIndex]?
    if range.begin_ < slot.begin_ then
      let sum ← int32 (offset + slot.begin_)
      some (some (sum - range.begin_))
    else tryFitRanges slots offset ranges slotIndex

/-- Where `RowFitter::TryFit` starts: at the cached index, unless the offset is lower than last
time. -/
def RowFitter.startIndex (fitter : RowFitter) (firstRange : Interval) : Option ℕ :=
  if 0 < fitter.firstSlotIndex then do
    let slot ← fitter.freeSlots[fitter.firstSlotIndex - 1]?
    some (if firstRange.end_ ≤ slot.end_ then 0 else fitter.firstSlotIndex)
  else some fitter.firstSlotIndex

/-- `RowFitter::TryFit`: the fitter afterwards, and the next offset unless the row fits. -/
def RowFitter.tryFit (fitter : RowFitter) (row : SelectorRow Fn) (offset : ℕ) :
    Option (RowFitter × Option ℕ) := do
  let first ← row.ranges.head?
  let firstRange := first.shift offset
  let start ← fitter.startIndex firstRange
  let firstSlotIndex ← moveForwardToCover fitter.freeSlots firstRange start
  match ← tryFitRanges fitter.freeSlots offset row.ranges firstSlotIndex with
  | some nextOffset => some (⟨fitter.freeSlots, firstSlotIndex⟩, some nextOffset)
  | none => do
    let freeSlots ← updateFreeSlots offset row.ranges firstSlotIndex fitter.freeSlots
    some (⟨freeSlots, firstSlotIndex⟩, none)

/-- The loop of `RowFitter::FitAndAllocate`: the offset of the row, if it is at most `maxOffset`. -/
def fitLoop (row : SelectorRow Fn) (maxOffset : ℕ) :
    ℕ → RowFitter → ℕ → Option (RowFitter × Option ℕ)
  | 0, _, _ => none
  | fuel + 1, fitter, offset =>
    if offset ≤ maxOffset then do
      let (fitter, next) ← fitter.tryFit row offset
      match next with
      | some nextOffset => fitLoop row maxOffset fuel fitter nextOffset
      | none => some (fitter, some offset)
    else some (fitter, none)

/-- `RowFitter::FitAndAllocate`. As the offset grows, there are not more iterations than offsets. -/
def RowFitter.fitAndAllocate (fitter : RowFitter) (minOffset maxOffset : ℕ) (row : SelectorRow Fn) :
    Option (RowFitter × SelectorRow Fn) :=
  match row.offset with
  | some _ => some (fitter, row)
  | none => do
    let (fitter, offset) ← fitLoop row maxOffset (intMax + 1) fitter minOffset
    some (fitter, { row with offset := offset })

/-! ## `ComputeSelectorOffsets` -/

/-- One of the rounds: all rows, in order. -/
def allocateRows (minOffset maxOffset : ℕ) :
    List (SelectorRow Fn) → RowFitter → Option (List (SelectorRow Fn) × RowFitter)
  | [], fitter => some ([], fitter)
  | row :: rows, fitter => do
    let (fitter, row) ← fitter.fitAndAllocate minOffset maxOffset row
    let (rows, fitter) ← allocateRows minOffset maxOffset rows fitter
    some (row :: rows, fitter)

/-- `PopularitySorter::Compare`. -/
def comparePopularity (a b : SelectorRow Fn) : ℤ := (b.callCount : ℤ) - a.callCount

/-- `PopularitySizeRatioSorter::Compare`, in an `int32_t` that wraps around. -/
def comparePopularitySizeRatio (a b : SelectorRow Fn) : ℤ :=
  ((b.callCount : ℤ) * a.totalSize - a.callCount * b.totalSize).bmod (2 ^ 32)

/-- `SizeSorter::Compare`. -/
def compareSize (a b : SelectorRow Fn) : ℤ := (b.totalSize : ℤ) - a.totalSize

/-- `ComputeSelectorOffsets`: the rows, all allocated, and `table_size_`. -/
def computeSelectorOffsets (target : Target) (S : Sorters Fn) (rows : List (SelectorRow Fn)) :
    Option (List (SelectorRow Fn) × ℕ) := do
  let optimal := target.originElement
  let (rows, fitter) ←
    allocateRows optimal optimal (S.rows.sort comparePopularity rows) RowFitter.initial
  let (rows, fitter) ←
    allocateRows 0 target.largestSmallOffset (S.rows.sort comparePopularitySizeRatio rows) fitter
  let (rows, fitter) ←
    allocateRows (target.largestSmallOffset + 1) intMax (S.rows.sort compareSize rows) fitter
  let last ← fitter.freeSlots.getLast?
  some (rows, last.begin_)

/-! ## `BuildCodeArray` -/

/-- Writes an entry of the table; `none` is a write out of bounds. -/
def setAt (entries : List (Option α)) (index : ℕ) (code : α) : Option (List (Option α)) :=
  if index < entries.length then some (entries.set index (some code)) else none

/-- `IntervalSorter::Compare` of `FillTable`. -/
def compareDepth (a b : CidInterval Fn) : ℤ := a.depth.toInt - b.depth.toInt

/-- What `FillTable` does for one class range.  `code` is `CurrentCode`, for functions with code. -/
def fillRange (code : Fn → Option α) (offset : ℕ) (entries : List (Option α))
    (cidRange : CidInterval Fn) : Option (List (Option α)) :=
  match cidRange.function.bind code with
  | some c =>
    (List.range' cidRange.range.begin_ cidRange.range.length).foldlM
      (fun entries cid => setAt entries (offset + cid) c) entries
  | none => some entries

/-- `SelectorRow::FillTable`: deeper classes overwrite the entries of their superclasses. -/
def fillTable (S : Sorters Fn) (code : Fn → Option α) (entries : List (Option α))
    (row : SelectorRow Fn) : Option (List (Option α)) := do
  let offset ← row.offset
  (S.classRanges.sort compareDepth row.classRanges).foldlM (fillRange code offset) entries

/-- **Dispatch table**, with the rows it was built from. -/
structure Table (Fn α : Type) where
  rows : List (SelectorRow Fn)
  /-- The code array. -/
  entries : List (Option α)

/-- `SetupSelectorRows`, `ComputeSelectorOffsets` and `BuildCodeArray`. -/
def build (target : Target) (S : Sorters Fn) (code : Fn → Option α) : Option (Table Fn α) := do
  let (rows, tableSize) ← computeSelectorOffsets target S (setupSelectorRows P S)
  let entries ← rows.foldlM (fillTable S code) (List.replicate tableSize none)
  some ⟨rows, entries⟩

end

end DartVm.DispatchTable
