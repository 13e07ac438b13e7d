import Mathlib.Data.Nat.Bitwise

/-! # Digit arrays of big integers

The loops of `_BigIntImpl` over arrays of 32-bit digits.  A `Uint32List` is the list of its
elements; an access outside of it and a failed assertion are `none`.  A result array that may also
be an operand is an `Operand`, so that a loop reads what it has already written.

* `Operand`: an array that is read while it is written, or another one.
* `absAdd`, `absSub`, `mulAdd`, `lsh`, `rsh`: the loops over digits. -/

namespace DartVm.BigInt

/-- Bits per digit. -/
def digitBits : ℕ := 32

/-- `_digitBase`. -/
def digitBase : ℕ := 1 <<< digitBits

/-- `_digitMask`. -/
def digitMask : ℕ := 1 <<< digitBits - 1

/-- Bits per half digit. -/
def halfDigitBits : ℕ := digitBits >>> 1

/-- `_halfDigitMask`. -/
def halfDigitMask : ℕ := 1 <<< halfDigitBits - 1

/-- The elements of a `Uint32List`. -/
abbrev Digits := List ℕ

/-- `digits[i]`. -/
def load (digits : Digits) (i : ℕ) : Option ℕ := digits[i]?

/-- `digits[i] = v`, which keeps the low 32 bits of `v`. -/
def store (digits : Digits) (i v : ℕ) : Option Digits :=
  if i < digits.length then some (digits.set i (v % digitBase)) else none

/-- A 64-bit variable gets the value `v` of sums, products and shifts of non-negative numbers: if
`v` is representable, so are the intermediate results. -/
def int64 (v : ℕ) : Option ℕ := if v < 2 ^ 63 then some v else none

/-- `v & _digitMask` of a 64-bit integer that may be negative. -/
def lowDigit (v : ℤ) : ℕ := (v % digitBase).toNat

/-- An array argument: the result array itself, or another array. -/
inductive Operand
  | result
  | array (digits : Digits)

/-- The elements of an argument while the result array is `resultDigits`. -/
def Operand.get (x : Operand) (resultDigits : Digits) : Digits :=
  match x with
  | .result => resultDigits
  | .array digits => digits

instance : Coe Digits Operand := ⟨.array⟩

/-- Allocate a new digits list of even length. -/
def newDigits (length : ℕ) : Digits := List.replicate (length + (length &&& 1)) 0

/-- The amount of significant digits. -/
def normalize : ℕ → Digits → Option ℕ
  | 0, _ => some 0
  | used + 1, digits => do
      if (← load digits used) = 0 then normalize used digits else return used + 1

/-- Writes `source (i)` to index `i` of the result for each `i` from `lo` up to `hi - 1`. -/
def fillDigits (lo hi : ℕ) (source : ℕ → Option ℕ) (resultDigits : Digits) : Option Digits :=
  (List.range' lo (hi - lo)).foldlM (fun r i => do store r i (← source i)) resultDigits

/-- `_cloneDigits`: a copy of the digits from `lo` to `hi`. -/
def cloneDigits (digits : Digits) (lo hi length : ℕ) : Option Digits :=
  fillDigits 0 (hi - lo) (fun i => load digits (lo + i)) (newDigits length)

/-- `for (int i = n - 1; i >= 0; i--) resultDigits[i] = 0`. -/
def clearDigits (n : ℕ) (resultDigits : Digits) : Option Digits :=
  (List.range n).reverse.foldlM (fun r i => store r i 0) resultDigits

/-- `for (int i = xUsed - 1; i >= 0; i--) resultDigits[i + n] = xDigits[i]`. -/
def moveUp (xDigits : Operand) (xUsed n : ℕ) (resultDigits : Digits) : Option Digits :=
  (List.range xUsed).reverse.foldlM
    (fun r i => do store r (i + n) (← load (xDigits.get r) i)) resultDigits

/-- The leading zero after an odd number of digits, for 64-bit processing. -/
def storeLeadingZero (resultUsed : ℕ) (resultDigits : Digits) : Option Digits :=
  if resultUsed % 2 = 1 then store resultDigits resultUsed 0 else some resultDigits

/-- `resultDigits[0..resultUsed-1] = xDigits[0..xUsed-1] << n*_digitBits`. -/
def dlShiftDigits (xDigits : Operand) (xUsed n : ℕ) (resultDigits : Digits) :
    Option (ℕ × Digits) := do
  if xUsed = 0 then return (0, resultDigits)
  match n, xDigits with
  | 0, .result => return (xUsed, resultDigits)
  | _, _ =>
    let resultUsed := xUsed + n
    guard (resultUsed + (resultUsed &&& 1) ≤ resultDigits.length)
    let r ← moveUp xDigits xUsed n resultDigits
    let r ← clearDigits n r
    let r ← storeLeadingZero resultUsed r
    return (resultUsed, r)

/-- An iteration of the loop of `lsh`. -/
def lshStep (xDigits : Operand) (digitShift bitShift : ℕ) (s : ℕ × Digits) (i : ℕ) :
    Option (ℕ × Digits) := do
  let carryBitShift := digitBits - bitShift
  let bitMask := 1 <<< carryBitShift - 1
  let digit ← load (xDigits.get s.2) i
  let r ← store s.2 (i + digitShift + 1) (digit >>> carryBitShift ||| s.1)
  return ((digit &&& bitMask) <<< bitShift, r)

/-- `resultDigits[ds..xUsed+ds] = xDigits[0..xUsed-1] << (n % _digitBits)` where
`ds = n ~/ _digitBits`.  Does *not* clear digits below `ds`. -/
def lsh (xDigits : Operand) (xUsed n : ℕ) (resultDigits : Digits) : Option Digits := do
  guard (0 < xUsed)
  let digitShift := n / digitBits
  let bitShift := n % digitBits
  let (carry, r) ← (List.range xUsed).reverse.foldlM (lshStep xDigits digitShift bitShift)
    (0, resultDigits)
  store r digitShift carry

/-- The end of `lShiftDigits` and of `rShiftDigits`: clamp the result, or add the leading zero. -/
def clampResult (resultUsed : ℕ) (resultDigits : Digits) : Option (ℕ × Digits) := do
  if (← load resultDigits (resultUsed - 1)) = 0 then return (resultUsed - 1, resultDigits)
  else return (resultUsed, ← storeLeadingZero resultUsed resultDigits)

/-- `resultDigits[0..resultUsed-1] = xDigits[0..xUsed-1] << n`. -/
def lShiftDigits (xDigits : Operand) (xUsed n : ℕ) (resultDigits : Digits) :
    Option (ℕ × Digits) := do
  let digitsShift := n / digitBits
  let bitShift := n % digitBits
  if bitShift = 0 then dlShiftDigits xDigits xUsed digitsShift resultDigits
  else
    -- Need one extra digit to hold bits shifted by bitShift.
    let resultUsed := xUsed + digitsShift + 1
    guard (resultUsed + 2 - (resultUsed &&& 1) ≤ resultDigits.length)
    let r ← lsh xDigits xUsed n resultDigits
    let r ← clearDigits digitsShift r
    clampResult resultUsed r

/-- An iteration of the loop of `rsh`. -/
def rshStep (xDigits : Operand) (digitsShift bitShift : ℕ) (s : ℕ × Digits) (i : ℕ) :
    Option (ℕ × Digits) := do
  let carryBitShift := digitBits - bitShift
  let bitMask := 1 <<< bitShift - 1
  let digit ← load (xDigits.get s.2) (i + digitsShift + 1)
  let r ← store s.2 i ((digit &&& bitMask) <<< carryBitShift ||| s.1)
  return (digit >>> bitShift, r)

/-- `resultDigits[0..resultUsed-1] = xDigits[0..xUsed-1] >> n`. -/
def rsh (xDigits : Operand) (xUsed n : ℕ) (resultDigits : Digits) : Option Digits := do
  guard (0 < xUsed)
  let digitsShift := n / digitBits
  let bitShift := n % digitBits
  let carry := (← load (xDigits.get resultDigits) digitsShift) >>> bitShift
  let last := xUsed - digitsShift - 1
  let (carry, r) ← (List.range' 0 last).foldlM (rshStep xDigits digitsShift bitShift)
    (carry, resultDigits)
  store r last carry

/-- The loop of `compareDigits` over the digits below an index. -/
def compareDigitsBelow (digits otherDigits : Digits) : ℕ → Option ℤ
  | 0 => some 0
  | i + 1 => do
      let result := (((← load digits i) : ℕ) : ℤ) - ((← load otherDigits i) : ℕ)
      if result ≠ 0 then return result else compareDigitsBelow digits otherDigits i

/-- Compares `digits[0..used-1]` with `otherDigits[0..otherUsed-1]`. -/
def compareDigits (digits : Digits) (used : ℕ) (otherDigits : Digits) (otherUsed : ℕ) :
    Option ℤ :=
  let result := (used : ℤ) - otherUsed
  if result = 0 then compareDigitsBelow digits otherDigits used else some result

/-- `resultDigits[i] = carry & _digitMask; carry >>= _digitBits`. -/
def storeCarry (carry : ℤ) (resultDigits : Digits) (i : ℕ) : Option (ℤ × Digits) := do
  let r ← store resultDigits i (lowDigit carry)
  return (carry >>> digitBits, r)

/-- An iteration of the second loop of `absAdd` and of `absSub`. -/
def carryStep (digits : Operand) (s : ℤ × Digits) (i : ℕ) : Option (ℤ × Digits) := do
  storeCarry (s.1 + ((← load (digits.get s.2) i) : ℕ)) s.2 i

/-- An iteration of the first loop of `absAdd`. -/
def addStep (digits otherDigits : Operand) (s : ℤ × Digits) (i : ℕ) : Option (ℤ × Digits) := do
  let digit ← load (digits.get s.2) i
  let otherDigit ← load (otherDigits.get s.2) i
  storeCarry (s.1 + (digit + otherDigit)) s.2 i

/-- `resultDigits[0..used] = digits[0..used-1] + otherDigits[0..otherUsed-1]`. -/
def absAdd (digits : Operand) (used : ℕ) (otherDigits : Operand) (otherUsed : ℕ)
    (resultDigits : Digits) : Option Digits := do
  guard (otherUsed ≤ used ∧ 0 < otherUsed)
  let s ← (List.range' 0 otherUsed).foldlM (addStep digits otherDigits) (0, resultDigits)
  let (carry, r) ← (List.range' otherUsed (used - otherUsed)).foldlM (carryStep digits) s
  store r used (lowDigit carry)

/-- An iteration of the first loop of `absSub`. -/
def subStep (digits otherDigits : Operand) (s : ℤ × Digits) (i : ℕ) : Option (ℤ × Digits) := do
  let digit ← load (digits.get s.2) i
  let otherDigit ← load (otherDigits.get s.2) i
  storeCarry (s.1 + ((digit : ℤ) - otherDigit)) s.2 i

/-- `resultDigits[0..used-1] = digits[0..used-1] - otherDigits[0..otherUsed-1]`. -/
def absSub (digits : Operand) (used : ℕ) (otherDigits : Operand) (otherUsed : ℕ)
    (resultDigits : Digits) : Option Digits := do
  guard (otherUsed ≤ used ∧ 0 < otherUsed)
  let s ← (List.range' 0 otherUsed).foldlM (subStep digits otherDigits) (0, resultDigits)
  let (_, r) ← (List.range' otherUsed (used - otherUsed)).foldlM (carryStep digits) s
  return r

/-- An iteration of the first loop of `mulAdd`, on half digits, as the product of two digits
overflows. -/
def mulAddStep (x : ℕ) (multiplicandDigits : Digits) (i j : ℕ) (s : ℕ × Digits) (k : ℕ) :
    Option (ℕ × Digits) := do
  let xl := x &&& halfDigitMask
  let xh := x >>> halfDigitBits
  let digit ← load multiplicandDigits (i + k)
  let ml := digit &&& halfDigitMask
  let mh := digit >>> halfDigitBits
  let ph ← int64 (xh * ml + mh * xl)
  let accumulatorDigit ← load s.2 (j + k)
  let pl ← int64 (xl * ml + (ph &&& halfDigitMask) <<< halfDigitBits + accumulatorDigit + s.1)
  let carry ← int64 (pl >>> digitBits + ph >>> halfDigitBits + xh * mh)
  let acc ← store s.2 (j + k) (pl &&& digitMask)
  return (carry, acc)

/-- `while (carry != 0)` of `mulAdd` from index `j` on; at the end of the array
the access throws. -/
def propagateCarry : ℕ → ℕ → ℕ → Digits → Option Digits
  | 0, _, carry, acc => if carry = 0 then some acc else none
  | count + 1, j, carry, acc =>
    if carry = 0 then some acc
    else do
      let l ← int64 ((← load acc j) + carry)
      let acc ← store acc j (l &&& digitMask)
      propagateCarry count (j + 1) (l >>> digitBits) acc

/-- `accumulatorDigits[j..j+n] += xDigits[xIndex] * multiplicandDigits[i..i+n-1]`. -/
def mulAdd (xDigits : Digits) (xIndex : ℕ) (multiplicandDigits : Digits) (i : ℕ)
    (accumulatorDigits : Digits) (j n : ℕ) : Option Digits := do
  let x ← load xDigits xIndex
  if x = 0 then return accumulatorDigits
  let (carry, acc) ← (List.range' 0 n).foldlM (mulAddStep x multiplicandDigits i j)
    (0, accumulatorDigits)
  propagateCarry (accumulatorDigits.length - (j + n)) (j + n) carry acc

end DartVm.BigInt
