import DartVm.Library.ForwardCode
import DartVm.RegExp.CharacterRange

/-! # Code for a character class

`EmitCharClass` of `regexp.cc` and the code generator below it.  The boundaries of the class are in
an array that `CutOutRange` edits in place.  What the macro assembler emits is code with forward
jumps; its checks are tests of the current character.  A failed `ASSERT` is `none`.

* `generateBranches`: the recursive code generator.
* `emitCharClass`: the code of a whole class. -/

namespace DartVm.RegExp

open ForwardCode

/-- A check of the macro assembler. -/
inductive CharacterCheck where
  | character (c : ℕ)
  | notCharacter (c : ℕ)
  | lt (limit : ℕ)
  | gt (limit : ℕ)
  | inRange (from_ to_ : ℕ)
  | notInRange (from_ to_ : ℕ)
  | bitInTable (table : List Bool)
  /-- `LoadCurrentCharacter` and `CheckPosition`: the subject ends before the character. -/
  | position
deriving DecidableEq, Repr

/-- `RegExpMacroAssembler::kTableSize`. -/
def kTableSize : ℕ := 128

/-- What a check finds where the subject has the character `c`. -/
def CharacterCheck.holds (c : ℕ) : CharacterCheck → Bool
  | .character c' => c = c'
  | .notCharacter c' => c ≠ c'
  | .lt limit => c < limit
  | .gt limit => c > limit
  | .inRange from_ to_ => from_ ≤ c ∧ c ≤ to_
  | .notInRange from_ to_ => ¬(from_ ≤ c ∧ c ≤ to_)
  | .bitInTable table => table.getD (c % kTableSize) false
  | .position => false

/-- Emitted code, where each `BlockLabel` has a number. -/
abbrev Code := List (Instr ℕ CharacterCheck)

/-! ## The boundary array -/

/-- `At`. -/
def edge (ranges : List ℕ) (i : ℕ) : ℕ := ranges.getD i 0

/-- The value of a `uint16_t`. -/
def toUint16 (x : ℤ) : ℕ := (x % 65536).toNat

/-! ## Tests -/

/-- `EmitBoundaryTest`. -/
def emitBoundaryTest (border : ℕ) (fallThrough aboveOrEqual below : ℕ) : Code :=
  if below ≠ fallThrough then
    .branch (.lt border) below ::
      if aboveOrEqual ≠ fallThrough then [.goTo aboveOrEqual] else []
  else [.branch (.gt (border - 1)) aboveOrEqual]

/-- `EmitDoubleBoundaryTest`: a range of one character is tested by equality. -/
def emitDoubleBoundaryTest (first last : ℕ) (fallThrough inRange outOfRange : ℕ) : Code :=
  if inRange = fallThrough then
    if first = last then [.branch (.notCharacter first) outOfRange]
    else [.branch (.notInRange first last) outOfRange]
  else
    (if first = last then .branch (.character first) inRange
      else .branch (.inRange first last) inRange) ::
      if outOfRange ≠ fallThrough then [.goTo outOfRange] else []

/-! ## Lookup tables -/

/-- A loop that writes `bit` at `left` places of the template, from `j` on. -/
def fill (bit : Bool) : ℕ → ℕ → List Bool → List Bool
  | 0, _, templ => templ
  | left + 1, j, templ => fill bit left (j + 1) (templ.set j bit)

/-- The second loop of `EmitUseLookupTable`, for `left` boundaries from `i` on: `templ`, `bit` and
`j`. -/
def fillSegments (ranges : List ℕ) : ℕ → ℕ → List Bool × Bool × ℕ → List Bool × Bool × ℕ
  | 0, _, st => st
  | left + 1, i, (templ, bit, _) =>
    let from_ := edge ranges i % kTableSize
    let to_ := edge ranges (i + 1) % kTableSize
    fillSegments ranges left (i + 1) (fill bit (to_ - from_) from_ templ, !bit, max from_ to_)

/-- The template of `EmitUseLookupTable`. -/
def lookupTable (ranges : List ℕ) (startIndex endIndex : ℕ) (bit : Bool) : List Bool :=
  let templ := List.replicate kTableSize false
  let templ := fill bit (min (edge ranges startIndex % kTableSize) kTableSize) 0 templ
  let (templ, bit, j) :=
    fillSegments ranges (endIndex - startIndex) startIndex (templ, !bit, 0)
  fill bit (kTableSize - j) j templ

/-- The start of the page of a character: `& ~kMask`. -/
def page (c : ℕ) : ℕ := c / kTableSize * kTableSize

/-- `EmitUseLookupTable`, with its assertions on the pages of the boundaries. -/
def emitUseLookupTable (ranges : List ℕ) (startIndex endIndex minChar : ℕ)
    (fallThrough even odd : ℕ) : Option Code :=
  let base := page minChar
  if (∀ i ∈ List.range' startIndex (endIndex + 1 - startIndex), page (edge ranges i) = base) ∧
      (startIndex = 0 ∨ page (edge ranges (startIndex - 1)) ≤ base) then
    let (onBitSet, onBitClear, bit) :=
      if even = fallThrough then (odd, even, true) else (even, odd, false)
    some (.branch (.bitInTable (lookupTable ranges startIndex endIndex bit)) onBitSet ::
      if onBitClear ≠ fallThrough then [.goTo onBitClear] else [])
  else none

/-! ## Cutting out a range -/

/-- The first loop of `CutOutRange`, for `left` indices down from `j`. -/
def shiftUp : ℕ → ℕ → List ℕ → List ℕ
  | 0, _, ranges => ranges
  | left + 1, j, ranges => shiftUp left (j - 1) (ranges.set j (edge ranges (j - 1)))

/-- The second loop of `CutOutRange`, for `left` indices up from `j`. -/
def shiftDown : ℕ → ℕ → List ℕ → List ℕ
  | 0, _, ranges => ranges
  | left + 1, j, ranges => shiftDown left (j + 1) (ranges.set j (edge ranges (j + 1)))

/-- `CutOutRange`: the array and the code. -/
def cutOutRange (ranges : List ℕ) (startIndex endIndex cutIndex : ℕ) (dummy even odd : ℕ) :
    Option (List ℕ × Code) :=
  let inRange := if (cutIndex - startIndex) % 2 = 1 then odd else even
  let code := emitDoubleBoundaryTest (edge ranges cutIndex) (edge ranges (cutIndex + 1) - 1)
    dummy inRange dummy
  if isLinked code dummy then none
  else
    let ranges := shiftUp (cutIndex - startIndex) cutIndex ranges
    some (shiftDown (endIndex - (cutIndex + 1)) (cutIndex + 1) ranges, code)

/-- The loop of `GenerateBranches` that looks for a single character, at `left` boundaries from `i`
on. -/
def findCut (ranges : List ℕ) : ℕ → ℕ → Option ℕ
  | 0, _ => none
  | left + 1, i =>
    if edge ranges i + 1 = edge ranges (i + 1) then some i else findCut ranges left (i + 1)

/-! ## Splitting the search space -/

/-- The first loop of `SplitSearchSpace`, for `left` boundaries from `i` on. -/
def skipUpTo (ranges : List ℕ) (border : ℕ) : ℕ → ℕ → ℕ
  | 0, i => i
  | left + 1, i => if edge ranges i > border then i else skipUpTo ranges border left (i + 1)

/-- The second loop of `SplitSearchSpace`, for `left` boundaries from `i` on. -/
def scanForward (ranges : List ℕ) (border : ℕ) : ℕ → ℕ → Option ℕ
  | 0, _ => none
  | left + 1, i =>
    if edge ranges i > border then some i else scanForward ranges border left (i + 1)

/-- `Symbols::kMaxOneCharCodeSymbol`. -/
def kMaxOneCharCodeSymbol : ℕ := 0xFF

/-- `SplitSearchSpace`: `new_start_index`, `new_end_index` and `border`. -/
def splitSearchSpace (ranges : List ℕ) (startIndex endIndex : ℕ) : Option (ℕ × ℕ × ℕ) :=
  let first := edge ranges startIndex
  let last := toUint16 ((edge ranges endIndex : ℤ) - 1)
  let border := toUint16 (page first + kTableSize : ℕ)
  let newStart := skipUpTo ranges border (endIndex - startIndex) startIndex
  let binaryChop := (endIndex + startIndex) / 2
  let (newStart, border) :=
    -- Very large search spaces are halved.
    if border > kMaxOneCharCodeSymbol + 1 ∧ endIndex - startIndex > (newStart - startIndex) * 2 ∧
        last > first + kTableSize * 2 ∧ binaryChop > newStart ∧
        edge ranges binaryChop ≥ first + 2 * kTableSize then
      let newBorder := page (edge ranges binaryChop) + kTableSize
      match scanForward ranges newBorder (endIndex - binaryChop) binaryChop with
      | some i => (i, toUint16 newBorder)
      | none => (newStart, border)
    else (newStart, border)
  if newStart > startIndex then
    let newEnd := if edge ranges (newStart - 1) = border then newStart - 2 else newStart - 1
    if border ≥ edge ranges endIndex then
      some (endIndex, endIndex - 1, edge ranges endIndex)
    else some (newStart, newEnd, border)
  else none

/-! ## GenerateBranches -/

/-- The part of the array and the characters that a call of `GenerateBranches` is about. -/
structure Call where
  startIndex : ℕ
  endIndex : ℕ
  minChar : ℕ
  maxChar : ℕ
deriving DecidableEq, Repr

/-- How many boundaries a call is about. -/
def Call.boundaries (call : Call) : ℕ := call.endIndex + 1 - call.startIndex

/-- What `GenerateBranches` leaves: the array, the next label, the code, and the recursive calls,
each with the call that made it. -/
structure Emitted where
  ranges : List ℕ
  next : ℕ
  code : Code
  calls : List (Call × Call)
deriving DecidableEq, Repr

/-- The `ASSERT`s of `GenerateBranches` on the result of `SplitSearchSpace`. -/
def SplitAsserts (ranges : List ℕ) (call : Call) (last newStart newEnd border : ℕ) : Prop :=
  (border = last + 1 → newEnd = call.endIndex - 1) ∧
  call.startIndex ≤ newEnd ∧ newStart ≤ call.endIndex ∧ call.startIndex < newStart ∧
  newEnd < call.endIndex ∧
  (newEnd + 1 = newStart ∨ (newEnd + 2 = newStart ∧ border = edge ranges (newEnd + 1))) ∧
  call.minChar + 1 < border ∧ border < call.maxChar ∧ edge ranges newEnd < border ∧
  (border < edge ranges newStart ∨ (border = edge ranges newStart ∧ newStart = call.endIndex ∧
    newEnd = call.endIndex - 1 ∧ border = last + 1)) ∧
  (newStart = 0 ∨ border ≥ edge ranges (newStart - 1))

instance (ranges : List ℕ) (call : Call) (last newStart newEnd border : ℕ) :
    Decidable (SplitAsserts ranges call last newStart newEnd border) := by
  unfold SplitAsserts
  infer_instance

/-- `GenerateBranches`.  Labels from `next` on have not been allocated. -/
def generateBranches (ranges : List ℕ) (call : Call) (fallThrough even odd next : ℕ) :
    Option Emitted :=
  let first := edge ranges call.startIndex
  let last := toUint16 ((edge ranges call.endIndex : ℤ) - 1)
  if ¬call.minChar < first then none
  else if call.startIndex = call.endIndex then
    some ⟨ranges, next, emitBoundaryTest first fallThrough even odd, []⟩
  else if call.startIndex + 1 = call.endIndex then
    some ⟨ranges, next, emitDoubleBoundaryTest first last fallThrough even odd, []⟩
  else if call.endIndex - call.startIndex ≤ 6 then
    -- Single characters are tested first, then arbitrary ranges.
    let cut := (findCut ranges (call.endIndex - call.startIndex) call.startIndex).getD
      call.startIndex
    let dummy := next
    match cutOutRange ranges call.startIndex call.endIndex cut dummy even odd with
    | none => none
    | some (ranges, test) =>
      if 2 ≤ call.endIndex - call.startIndex then
        let call' : Call := { call with
          startIndex := call.startIndex + 1, endIndex := call.endIndex - 1 }
        match generateBranches ranges call' fallThrough even odd (next + 1) with
        | none => none
        | some rest => some { rest with
            code := test ++ rest.code, calls := (call, call') :: rest.calls }
      else none
  else if call.maxChar / kTableSize = call.minChar / kTableSize then
    match emitUseLookupTable ranges call.startIndex call.endIndex call.minChar fallThrough even odd
      with
    | none => none
    | some code => some ⟨ranges, next, code, []⟩
  else if call.minChar / kTableSize ≠ first / kTableSize then
    let call' : Call := { call with startIndex := call.startIndex + 1, minChar := first }
    match generateBranches ranges call' fallThrough odd even next with
    | none => none
    | some rest => some { rest with
        code := .branch (.lt first) odd :: rest.code, calls := (call, call') :: rest.calls }
  else
    match splitSearchSpace ranges call.startIndex call.endIndex with
    | none => none
    | some (newStart, newEnd, border) =>
      if SplitAsserts ranges call last newStart newEnd border then
        let handleRest := next
        let dummy := next + 1
        let above :=
          if border = last + 1 then
            if call.endIndex % 2 ≠ call.startIndex % 2 then odd else even
          else handleRest
        let low : Call := { call with endIndex := newEnd, maxChar := border - 1 }
        match generateBranches ranges low dummy even odd (next + 2) with
        | none => none
        | some below =>
          let code := .branch (.gt (border - 1)) above :: below.code
          let calls := (call, low) :: below.calls
          if isLinked code handleRest then
            let flip : Bool := newStart % 2 ≠ call.startIndex % 2
            let high : Call := { call with startIndex := newStart, minChar := border }
            match generateBranches below.ranges high dummy (if flip then odd else even)
              (if flip then even else odd) below.next with
            | none => none
            | some rest => some { rest with
                code := code ++ .bind handleRest :: rest.code
                calls := calls ++ (call, high) :: rest.calls }
          else some { below with code := code, calls := calls }
      else none
termination_by call.boundaries
decreasing_by
  all_goals simp only [Call.boundaries]
  all_goals first
    | omega
    | (obtain ⟨_, _, _, _, _, _⟩ := ‹SplitAsserts _ _ _ _ _ _›; omega)

/-! ## EmitCharClass -/

/-- The loop of `CharacterRange::IsCanonical`. -/
def isCanonicalAfter (max : ℤ) : List CharacterRange → Bool
  | [] => true
  | nextRange :: rest =>
    if nextRange.from_ ≤ max + 1 then false else isCanonicalAfter nextRange.to_ rest

/-- `CharacterRange::IsCanonical`. -/
def isCanonical : List CharacterRange → Bool
  | [] => true
  | first :: rest => isCanonicalAfter first.to_ rest

/-- `CharacterRange::IsEverything`. -/
def CharacterRange.isEverything (r : CharacterRange) (max : ℕ) : Bool := r.from_ = 0 ∧ r.to_ ≥ max

/-- A `RegExpCharacterClass` that is not a standard one. -/
structure CharacterClass where
  ranges : List CharacterRange
  isNegated : Bool
deriving DecidableEq, Repr

/-- The loop that finds `last_valid_range`, for the first ranges: the number of ranges up to it. -/
def validRanges (ranges : List CharacterRange) (maxChar : ℕ) : ℕ → ℕ
  | 0 => 0
  | i + 1 => if (at_ ranges i).from_ ≤ maxChar then i + 1 else validRanges ranges maxChar i

/-- The loop that collects the boundaries, from index `i` on, with `zeroth_entry_is_failure`. -/
def rangeBoundaries (maxChar : ℕ) :
    ℕ → List CharacterRange → Bool × List ℕ → Option (Bool × List ℕ)
  | _, [], st => some st
  | i, range :: rest, (zerothEntryIsFailure, boundaries) =>
    if range.from_ = 0 ∧ i ≠ 0 then none
    else
      let (zerothEntryIsFailure, boundaries) :=
        if range.from_ = 0 then (!zerothEntryIsFailure, boundaries)
        else (zerothEntryIsFailure, boundaries ++ [toUint16 range.from_])
      let boundaries :=
        if range.to_ + 1 ≤ maxChar then boundaries ++ [toUint16 (range.to_ + 1)] else boundaries
      rangeBoundaries maxChar (i + 1) rest (zerothEntryIsFailure, boundaries)

/-- The largest character of a subject: `kMaxOneCharCodeSymbol` or `Utf16::kMaxCodeUnit`. -/
def maxCharOf (oneByte : Bool) : ℕ := if oneByte then kMaxOneCharCodeSymbol else 0xFFFF

/-- `EmitCharClass`: the code and the recursive calls of `GenerateBranches`. -/
def emitCharClass (cc : CharacterClass) (oneByte : Bool) (onFailure : ℕ)
    (checkOffset preloaded : Bool) : Option (Code × List (Call × Call)) :=
  let ranges := if isCanonical cc.ranges then cc.ranges else canonicalize cc.ranges
  let maxChar := maxCharOf oneByte
  let count := validRanges ranges maxChar ranges.length
  let checkPosition : Code := if checkOffset then [.branch .position onFailure] else []
  if count = 0 then
    some ((if cc.isNegated then [] else [.goTo onFailure]) ++ checkPosition, [])
  else if count = 1 ∧ (at_ ranges 0).isEverything maxChar then
    some (if cc.isNegated then [.goTo onFailure] else checkPosition, [])
  else
    let load := if preloaded then [] else checkPosition
    match rangeBoundaries maxChar 0 (ranges.take count) (!cc.isNegated, []) with
    | none => none
    | some (zerothEntryIsFailure, boundaries) =>
      let fallThrough := onFailure + 1
      match generateBranches boundaries ⟨0, boundaries.length - 1, 0, maxChar⟩ fallThrough
        (if zerothEntryIsFailure then fallThrough else onFailure)
        (if zerothEntryIsFailure then onFailure else fallThrough) (onFailure + 2) with
      | none => none
      | some emitted =>
        some (load ++ emitted.code ++ [.bind fallThrough], emitted.calls)

end DartVm.RegExp
