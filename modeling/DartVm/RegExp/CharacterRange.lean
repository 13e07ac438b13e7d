import DartVm.Unicode.Utf8

/-! # Character ranges

`CharacterRange` of `regexp.cc`: lists of ranges of code points, and the functions that bring such a
list into canonical form, in the array it is in, and that negate it.

* `canonicalize`: sorts and merges the ranges.
* `negate`: the gaps between them. -/

namespace DartVm.RegExp

open Unicode (kMaxCodePoint)

/-- `CharacterRange`, with both ends included. -/
structure CharacterRange where
  from_ : ℤ
  to_ : ℤ
deriving DecidableEq, Repr

/-- The default constructor. -/
instance : Inhabited CharacterRange := ⟨⟨0, 0⟩⟩

/-- The range at an index of a list. -/
def at_ (list : List CharacterRange) (i : ℕ) : CharacterRange := list.getD i default

/-! ## Canonicalize -/

/-- The loop of `MoveRanges` from the last element to the first. -/
def moveRangesUp (from_ to_ : ℕ) : ℕ → List CharacterRange → List CharacterRange
  | 0, list => list
  | i + 1, list => moveRangesUp from_ to_ i (list.set (to_ + i) (at_ list (from_ + i)))

/-- The loop of `MoveRanges` from the first element to the last. -/
def moveRangesDown : ℕ → ℕ → ℕ → List CharacterRange → List CharacterRange
  | _, _, 0, list => list
  | from_, to_, count + 1, list =>
    moveRangesDown (from_ + 1) (to_ + 1) count (list.set to_ (at_ list from_))

/-- `MoveRanges`: the direction depends on where the ranges go. -/
def moveRanges (list : List CharacterRange) (from_ to_ count : ℕ) : List CharacterRange :=
  if from_ < to_ then moveRangesUp from_ to_ count list else moveRangesDown from_ to_ count list

/-- The loop of `InsertRangeInCanonicalList`, for the ranges below index `i`: `start_pos` and
`end_pos`. -/
def insertPositions (list : List CharacterRange) (insert : CharacterRange) : ℕ → ℕ → ℕ × ℕ
  | 0, endPos => (0, endPos)
  | i + 1, endPos =>
    let current := at_ list i
    if current.from_ > insert.to_ + 1 then insertPositions list insert i i
    else if current.to_ + 1 < insert.from_ then (i + 1, endPos)
    else insertPositions list insert i endPos

/-- `InsertRangeInCanonicalList`: the array and the number of canonical ranges at its start. -/
def insertRangeInCanonicalList (list : List CharacterRange) (count : ℕ) (insert : CharacterRange) :
    List CharacterRange × ℕ :=
  let (startPos, endPos) := insertPositions list insert count count
  if startPos = endPos then
    -- Insert between existing ranges.
    let list :=
      if startPos < count then moveRanges list startPos (startPos + 1) (count - startPos) else list
    (list.set startPos insert, count + 1)
  else if startPos + 1 = endPos then
    -- Replace a single existing range.
    let toReplace := at_ list startPos
    (list.set startPos ⟨min toReplace.from_ insert.from_, max toReplace.to_ insert.to_⟩, count)
  else
    -- Replace a number of existing ranges, and move the remaining ones down.
    let newFrom := min (at_ list startPos).from_ insert.from_
    let newTo := max (at_ list (endPos - 1)).to_ insert.to_
    let list :=
      if endPos < count then moveRanges list endPos (startPos + 1) (count - endPos) else list
    (list.set startPos ⟨newFrom, newTo⟩, count - (endPos - startPos) + 1)

/-- The first loop of `Canonicalize`: how many ranges follow the first one in canonical form. -/
def canonicalUntil (max : ℤ) : List CharacterRange → ℕ
  | [] => 0
  | current :: rest =>
    if current.from_ ≤ max + 1 then 0 else canonicalUntil current.to_ rest + 1

/-- The second loop of `Canonicalize`, for `left` ranges from index `read` on. -/
def insertAll : ℕ → ℕ → List CharacterRange × ℕ → List CharacterRange × ℕ
  | 0, _, st => st
  | left + 1, read, (list, numCanonical) =>
    insertAll left (read + 1) (insertRangeInCanonicalList list numCanonical (at_ list read))

/-- `CharacterRange::Canonicalize`. -/
def canonicalize (characterRanges : List CharacterRange) : List CharacterRange :=
  match characterRanges with
  | [] => []
  | first :: rest =>
    let n := characterRanges.length
    let i := 1 + canonicalUntil first.to_ rest
    if i = n then characterRanges
    else
      let (list, numCanonical) := insertAll (n - i) i (characterRanges, i)
      list.take numCanonical

/-! ## Negate -/

/-- The loop of `Negate`, and the range after it. -/
def negateFrom (from_ : ℤ) : List CharacterRange → List CharacterRange
  | [] => if from_ < kMaxCodePoint then [⟨from_ + 1, kMaxCodePoint⟩] else []
  | range :: rest => ⟨from_ + 1, range.from_ - 1⟩ :: negateFrom range.to_ rest

/-- `CharacterRange::Negate`. -/
def negate (ranges : List CharacterRange) : List CharacterRange :=
  match ranges with
  | [] => negateFrom 0 []
  | range :: rest =>
    if range.from_ = 0 then negateFrom range.to_ rest else negateFrom 0 (range :: rest)

end DartVm.RegExp
