import DartVm.BigInt.Digits

/-! # The operators of big integers

`_BigIntImpl` is a sign, an array of digits and the count of those that are used.  No operator
writes to the array of a big integer, so shared arrays are as good as copies.

* `add`, `sub`, `mul`: by the signs, on absolute values.
* `shiftLeft`, `shiftRight`: by digits and bits.
* `bitAnd`, `bitOr`, `bitXor`, `bitNot`: in two's complement. -/

namespace DartVm.BigInt

/-- The fields of a big integer. -/
structure BigIntImpl where
  isNegative : Bool
  used : ℕ
  digits : Digits
  deriving DecidableEq, Repr

namespace BigIntImpl

/-- The constructor `_BigIntImpl._normalized` with its assertions. -/
def normalized (isNegative : Bool) (used : ℕ) (digits : Digits) : Option BigIntImpl := do
  guard (digits.length % 2 = 0)
  if used % 2 = 1 then guard ((← load digits used) = 0) -- Leading zero for 64-bit.
  return ⟨if used = 0 then false else isNegative, used, digits⟩

/-- The constructor `_BigIntImpl._`, which leaves leading zeros out. -/
def make (isNegative : Bool) (used : ℕ) (digits : Digits) : Option BigIntImpl := do
  normalized isNegative (← normalize used digits) digits

/-- `_isZero`. -/
def isZero (x : BigIntImpl) : Bool := x.used == 0

/-- `_BigIntImpl.zero`. -/
def zero : BigIntImpl := ⟨false, 0, [0, 0]⟩

/-- `_BigIntImpl.one`. -/
def one : BigIntImpl := ⟨false, 1, [1, 0]⟩

/-- `_minusOne`. -/
def minusOne : BigIntImpl := ⟨true, 1, [1, 0]⟩

/-- `operator -()`. -/
def neg (x : BigIntImpl) : Option BigIntImpl :=
  if x.used = 0 then some x else make (!x.isNegative) x.used x.digits

example : neg one = some minusOne := rfl

/-! ## Comparison, addition and subtraction -/

/-- Compares this to `other` taking the absolute value of both operands. -/
def absCompare (x other : BigIntImpl) : Option ℤ :=
  compareDigits x.digits x.used other.digits other.used

/-- `compareTo`: by sign, then by magnitude. -/
def compareTo (x other : BigIntImpl) : Option ℤ := do
  if x.isNegative = other.isNegative then
    let result ← absCompare x other
    return if x.isNegative then 0 - result else result
  return if x.isNegative then -1 else 1

/-- `_absAddSetSign` for an operand with at least as many digits as the other one. -/
def absAddShorter (x other : BigIntImpl) (isNegative : Bool) : Option BigIntImpl := do
  if x.used = 0 then
    guard (¬isNegative)
    return zero
  if other.used = 0 then if x.isNegative = isNegative then return x else neg x
  else
    let resultUsed := x.used + 1
    let resultDigits ← absAdd x.digits x.used other.digits other.used (newDigits resultUsed)
    make isNegative resultUsed resultDigits

/-- Returns `abs(this) + abs(other)` with sign set according to `isNegative`. -/
def absAddSetSign (x other : BigIntImpl) (isNegative : Bool) : Option BigIntImpl :=
  if x.used < other.used then absAddShorter other x isNegative else absAddShorter x other isNegative

/-- Returns `abs(this) - abs(other)` with sign set according to `isNegative`.
Requirement: `abs(this) >= abs(other)`. -/
def absSubSetSign (x other : BigIntImpl) (isNegative : Bool) : Option BigIntImpl := do
  guard (0 ≤ (← absCompare x other))
  if x.used = 0 then
    guard (¬isNegative)
    return zero
  if other.used = 0 then if x.isNegative = isNegative then return x else neg x
  else
    let resultDigits ← absSub x.digits x.used other.digits other.used (newDigits x.used)
    make isNegative x.used resultDigits

/-- `operator +`. -/
def add (x other : BigIntImpl) : Option BigIntImpl := do
  if x.isZero then return other
  if other.isZero then return x
  let isNegative := x.isNegative
  if isNegative = other.isNegative then
    -- this + other == this + other
    -- (-this) + (-other) == -(this + other)
    absAddSetSign x other isNegative
  else
    -- this + (-other) == this - other == -(this - other)
    -- (-this) + other == other - this == -(this - other)
    if 0 ≤ (← absCompare x other) then absSubSetSign x other isNegative
    else absSubSetSign other x (!isNegative)

/-- `operator -`. -/
def sub (x other : BigIntImpl) : Option BigIntImpl := do
  if x.isZero then neg other
  else if other.isZero then return x
  else
    let isNegative := x.isNegative
    if isNegative ≠ other.isNegative then
      -- this - (-other) == this + other
      -- (-this) - other == -(this + other)
      absAddSetSign x other isNegative
    else
      -- this - other == this - a == -(this - other)
      -- (-this) - (-other) == other - this == -(this - other)
      if 0 ≤ (← absCompare x other) then absSubSetSign x other isNegative
      else absSubSetSign other x (!isNegative)

/-! ## Bitwise operators -/

/-- Returns `abs(this) & abs(other)` with sign set according to `isNegative`. -/
def absAndSetSign (x other : BigIntImpl) (isNegative : Bool) : Option BigIntImpl := do
  let resultUsed := min x.used other.used
  let resultDigits ← fillDigits 0 resultUsed
    (fun i => do return (← load x.digits i) &&& (← load other.digits i)) (newDigits resultUsed)
  make isNegative resultUsed resultDigits

/-- Returns `abs(this) &~ abs(other)` with sign set according to `isNegative`. -/
def absAndNotSetSign (x other : BigIntImpl) (isNegative : Bool) : Option BigIntImpl := do
  let resultUsed := x.used
  let m := min resultUsed other.used
  let resultDigits ← fillDigits 0 m
    (fun i => do return Nat.ldiff (← load x.digits i) (← load other.digits i))
      (newDigits resultUsed)
  let resultDigits ← fillDigits m resultUsed (load x.digits) resultDigits
  make isNegative resultUsed resultDigits

/-- The body of `_absOrSetSign` and of `_absXorSetSign`, with the operation on digits. -/
def absBitwiseSetSign (op : ℕ → ℕ → ℕ) (x other : BigIntImpl) (isNegative : Bool) :
    Option BigIntImpl := do
  let resultUsed := max x.used other.used
  let (l, m) := if x.used < other.used then (other, x.used) else (x, other.used)
  let resultDigits ← fillDigits 0 m
    (fun i => do return op (← load x.digits i) (← load other.digits i)) (newDigits resultUsed)
  let resultDigits ← fillDigits m resultUsed (load l.digits) resultDigits
  make isNegative resultUsed resultDigits

/-- Returns `abs(this) | abs(other)` with sign set according to `isNegative`. -/
def absOrSetSign : BigIntImpl → BigIntImpl → Bool → Option BigIntImpl :=
  absBitwiseSetSign (· ||| ·)

/-- Returns `abs(this) ^ abs(other)` with sign set according to `isNegative`. -/
def absXorSetSign : BigIntImpl → BigIntImpl → Bool → Option BigIntImpl :=
  absBitwiseSetSign (· ^^^ ·)

/-- `operator &`. -/
def bitAnd (x other : BigIntImpl) : Option BigIntImpl := do
  if x.isZero || other.isZero then return zero
  if x.isNegative = other.isNegative then
    if x.isNegative then
      -- (-this) & (-other) == -(((this-1) | (other-1)) + 1)
      let this1 ← absSubSetSign x one true
      let other1 ← absSubSetSign other one true
      -- Result cannot be zero if this and other are negative.
      absAddSetSign (← absOrSetSign this1 other1 true) one true
    else absAndSetSign x other false
  else
    let (p, n) := if x.isNegative then (other, x) else (x, other)
    -- p & (-n) == p & ~(n-1) == p &~ (n-1)
    let n1 ← absSubSetSign n one false
    absAndNotSetSign p n1 false

/-- `operator |`. -/
def bitOr (x other : BigIntImpl) : Option BigIntImpl := do
  if x.isZero then return other
  if other.isZero then return x
  if x.isNegative = other.isNegative then
    if x.isNegative then
      -- (-this) | (-other) == -(((this-1) & (other-1)) + 1)
      let this1 ← absSubSetSign x one true
      let other1 ← absSubSetSign other one true
      -- Result cannot be zero if this and a are negative.
      absAddSetSign (← absAndSetSign this1 other1 true) one true
    else absOrSetSign x other false
  else
    let (p, n) := if x.isNegative then (other, x) else (x, other)
    -- p | (-n) == p | ~(n-1) == ~((n-1) &~ p) == -(~((n-1) &~ p) + 1)
    let n1 ← absSubSetSign n one true
    -- Result cannot be zero if only one of this or a is negative.
    absAddSetSign (← absAndNotSetSign n1 p true) one true

/-- `operator ^`. -/
def bitXor (x other : BigIntImpl) : Option BigIntImpl := do
  if x.isZero then return other
  if other.isZero then return x
  if x.isNegative = other.isNegative then
    if x.isNegative then
      -- (-this) ^ (-other) == ~(this-1) ^ ~(other-1) == (this-1) ^ (other-1)
      let this1 ← absSubSetSign x one true
      let other1 ← absSubSetSign other one true
      absXorSetSign this1 other1 false
    else absXorSetSign x other false
  else
    let (p, n) := if x.isNegative then (other, x) else (x, other)
    -- p ^ (-n) == p ^ ~(n-1) == ~(p ^ (n-1)) == -((p ^ (n-1)) + 1)
    let n1 ← absSubSetSign n one true
    -- Result cannot be zero if only one of this or a is negative.
    absAddSetSign (← absXorSetSign p n1 true) one true

/-- `operator ~()`. -/
def bitNot (x : BigIntImpl) : Option BigIntImpl :=
  if x.isZero then some minusOne
  else if x.isNegative then absSubSetSign x one false -- ~(-this) == ~(~(this-1)) == this-1
  else absAddSetSign x one true -- ~this == -this-1 == -(this+1)

/-! ## Shifts -/

/-- Returns `this << n*_digitBits`. -/
def dlShift (x : BigIntImpl) (n : ℕ) : Option BigIntImpl := do
  if x.used = 0 then return zero
  let resultUsed := x.used + n
  let resultDigits ← moveUp x.digits x.used n (newDigits resultUsed)
  make x.isNegative resultUsed resultDigits

/-- Whether one of `count` digits from index `i` on is not zero. -/
def anyNonZero (digits : Digits) : ℕ → ℕ → Option Bool
  | 0, _ => some false
  | count + 1, i => do
      if (← load digits i) ≠ 0 then return true else anyNonZero digits count (i + 1)

/-- Returns `this >> n*_digitBits`. -/
def drShift (x : BigIntImpl) (n : ℕ) : Option BigIntImpl := do
  if x.used = 0 then return zero
  if x.used ≤ n then return if x.isNegative then minusOne else zero
  let resultUsed := x.used - n
  let resultDigits ← fillDigits 0 resultUsed (fun i => load x.digits (i + n)) (newDigits resultUsed)
  let result ← make x.isNegative resultUsed resultDigits
  if x.isNegative then
    -- Round down if any bit was shifted out.
    if ← anyNonZero x.digits n 0 then sub result one else return result
  else return result

/-- `operator <<`. -/
def shiftLeft (x : BigIntImpl) (shiftAmount : ℤ) : Option BigIntImpl := do
  guard (0 ≤ shiftAmount)
  if x.isZero then return x
  let n := shiftAmount.toNat
  let digitShift := n / digitBits
  let bitShift := n % digitBits
  if bitShift = 0 then dlShift x digitShift
  else
    -- Need one extra digit to hold bits shifted by bitShift.
    let resultUsed := x.used + digitShift + 1
    -- The 64-bit intrinsic requires one extra pair to work with.
    let resultDigits ← lsh x.digits x.used n (newDigits (resultUsed + 1))
    make x.isNegative resultUsed resultDigits

/-- `operator >>`. -/
def shiftRight (x : BigIntImpl) (shiftAmount : ℤ) : Option BigIntImpl := do
  guard (0 ≤ shiftAmount)
  if x.isZero then return x
  let n := shiftAmount.toNat
  let digitShift := n / digitBits
  let bitShift := n % digitBits
  if bitShift = 0 then drShift x digitShift
  else if x.used ≤ digitShift then return if x.isNegative then minusOne else zero
  else
    let resultUsed := x.used - digitShift
    let resultDigits ← rsh x.digits x.used n (newDigits resultUsed)
    let result ← make x.isNegative resultUsed resultDigits
    if x.isNegative then
      -- Round down if any bit was shifted out.
      if (← load x.digits digitShift) &&& (1 <<< bitShift - 1) ≠ 0 then sub result one
      else if ← anyNonZero x.digits digitShift 0 then sub result one
      else return result
    else return result

/-! ## Multiplication -/

/-- `operator *`, with one digit of the multiplier at a time. -/
def mul (x other : BigIntImpl) : Option BigIntImpl := do
  if x.used = 0 || other.used = 0 then return zero
  let resultUsed := x.used + other.used
  let resultDigits ← (List.range' 0 other.used).foldlM
    (fun r i => mulAdd other.digits i x.digits 0 r i x.used) (newDigits resultUsed)
  make (x.isNegative != other.isNegative) resultUsed resultDigits

end BigIntImpl

end DartVm.BigInt
