import DartVm.BigInt.DigitPairs
import DartVm.BigInt.Operators

/-! # Division

`_divRem` divides digit by digit, or pair by pair.  It leaves the quotient above the remainder in
one array and keeps it, with the identities of the arrays of its operands, for the next call.

* `estimateQuotientDigit`: the estimate of a digit of the quotient.
* `divideStep`: one step of the loop, with its correction.
* `divRem`: the whole of `_divRem`. -/

namespace DartVm.BigInt

open BigIntImpl

/-- Low digit of top pair of divisor. -/
def divisorLowTopDigit : ℕ := 0

/-- Top digit of divisor. -/
def divisorTopDigit : ℕ := 1

/-- Estimated quotient. -/
def quotientDigit : ℕ := 2

/-- High digit of estimated quotient. -/
def quotientHighDigit : ℕ := 3

/-- Estimate `args[_quotientDigit] = digits[i-1..i] ~/ args[_divisorTopDigit]`. -/
def estimateQuotientDigit (args digits : Digits) (i : ℕ) : Option Digits := do
  guard (4 ≤ digits.length)
  let digit ← load digits i
  let divisorTop ← load args divisorTopDigit
  if digit = divisorTop then store args quotientDigit digitMask
  else
    -- Chop off one bit, since a Mint cannot hold 2 digits.
    let dividend ← int64 (digit <<< (digitBits - 1) ||| (← load digits (i - 1)) >>> 1)
    guard (divisorTop >>> 1 ≠ 0)
    let quotient := dividend / (divisorTop >>> 1)
    store args quotientDigit (if digitMask < quotient then digitMask else quotient)

/-- The intrinsic for `_estimateQuotientDigit`: estimate
`args[_quotientDigit.._quotientHighDigit] = digits[i-3..i] ~/
args[_divisorLowTopDigit.._divisorTopDigit]`. The instruction traps if it does not fit. -/
def estimateQuotientPair (args digits : Digits) (i : ℕ) : Option Digits := do
  let yt ← loadPair args divisorLowTopDigit
  let dh ← loadPair digits (i - 1)
  if dh = yt then storePair args quotientDigit (digitBase ^ 2 - 1)
  else
    let dl ← loadPair digits (i - 3)
    guard (dh < yt)
    storePair args quotientDigit ((dl + dh * digitBase ^ 2) / yt)

namespace Mode

/-- `_estimateQuotientDigit` or its intrinsic for pairs of digits. -/
def estimateQuotientDigit : Mode → Digits → Digits → ℕ → Option Digits
  | .digit => BigInt.estimateQuotientDigit
  | .digitPair => estimateQuotientPair

/-- The condition of the correction loops: the quotient's digits are below the estimate. The loop
for pairs asserts that the high digit is not above. -/
def isBelowEstimate (mode : Mode) (args resultDigits : Digits) (i : ℕ) : Option Bool := do
  match mode with
  | .digit => return decide ((← load resultDigits i) < (← load args quotientDigit))
  | .digitPair =>
    let high ← load resultDigits i
    let estimateHigh ← load args quotientHighDigit
    guard (high ≤ estimateHigh)
    if high < estimateHigh then return true
    else return decide ((← load resultDigits (i - 1)) < (← load args quotientDigit))

/-- The estimate that `_estimateQuotientDigit` has left in `args`. -/
def loadEstimate : Mode → Digits → Option ℕ
  | .digit, args => load args quotientDigit
  | .digitPair, args => loadPair args quotientDigit

/-- `--args[index]`, modulo the base. -/
def decrementAt (args : Digits) (index : ℕ) : Option Digits := do
  store args index ((← load args index) + digitMask)

/-- `if (args[_quotientDigit] == 0) --args[_quotientHighDigit]`. -/
def borrow (args : Digits) : Option Digits := do
  if (← load args quotientDigit) = 0 then decrementAt args quotientHighDigit else return args

/-- Decrements the estimate. -/
def decrement : Mode → Digits → Option Digits
  | .digit, args => decrementAt args quotientDigit
  | .digitPair, args => do decrementAt (← borrow args) quotientDigit

/-- The correction loop, for at most `count` evaluations of its condition: enough above the
estimate. -/
def correct (mode : Mode) (tmpDigits : Digits) (tmpUsed resultUsed i : ℕ) :
    ℕ → Digits → Digits → Option (Digits × Digits)
  | 0, _, _ => none
  | count + 1, args, resultDigits => do
      if ← mode.isBelowEstimate args resultDigits i then
        let r ← absSub .result resultUsed tmpDigits tmpUsed resultDigits
        correct mode tmpDigits tmpUsed resultUsed i count (← mode.decrement args) r
      else return (args, resultDigits)

end Mode

/-- The arrays that the division loop writes to. -/
structure DivArrays where
  args : Digits
  tmpDigits : Digits
  resultDigits : Digits

/-- One iteration of the division loop: `j` is the index after the subtraction of the digits per
step, and `i`, as far above it as at first, that of the quotient's top digit. -/
def Mode.divideStep (mode : Mode) (nyDigits : Digits) (yUsed resultUsed : ℕ)
    (s : DivArrays) (j : ℕ) :
    Option DivArrays := do
  let i := j + yUsed + (mode.step - 1)
  let args ← mode.estimateQuotientDigit s.args s.resultDigits i
  let r ← mode.mulAdd args quotientDigit nyDigits 0 s.resultDigits j yUsed
  if ← mode.isBelowEstimate args r i then
    -- Reusing the already existing tmpDigits array.
    let (tmpUsed, tmpDigits) ← dlShiftDigits nyDigits yUsed j s.tmpDigits
    let estimate ← mode.loadEstimate args
    let (args, r) ← mode.correct tmpDigits tmpUsed resultUsed i (estimate + 1) args r
    return ⟨args, tmpDigits, r⟩
  else return ⟨args, s.tmpDigits, r⟩

/-- `while (j > 0)`: the indices `j` go down by the number of digits per step. -/
def Mode.divideLoop (mode : Mode) (nyDigits : Digits) (yUsed resultUsed j : ℕ) (s : DivArrays) :
    Option DivArrays :=
  (List.range (j / mode.step)).reverse.foldlM
    (fun s k => mode.divideStep nyDigits yUsed resultUsed s (k * mode.step)) s

/-- The explicit first division step, if the dividend is not below the shifted divisor in
`tmpDigits`. -/
def divideFirst (i tmpUsed : ℕ) (tmpDigits : Digits) (resultUsed : ℕ) (resultDigits : Digits) :
    Option Digits := do
  if 0 ≤ (← compareDigits resultDigits resultUsed tmpDigits tmpUsed) then
    guard (i = resultUsed)
    let r ← store resultDigits resultUsed 1 -- Quotient = 1.
    -- Subtract divisor from remainder.
    absSub .result (resultUsed + 1) tmpDigits tmpUsed r
  else
    -- Account for possible carry in _mulAdd step.
    store resultDigits resultUsed 0

/-- `args` with the top digits of the normalized divisor. -/
def divisorArgs (yDigits : Digits) (yUsed : ℕ) : Option Digits := do
  let args ← store (newDigits 4) divisorLowTopDigit (← load yDigits (yUsed - 2))
  store args divisorTopDigit (← load yDigits (yUsed - 1))

/-- The shift that sets the top bit of the divisor and makes its count of digits even. -/
def normalizationShift (other : BigIntImpl) : Option ℕ := do
  let nsh := digitBits - Nat.size (← load other.digits (other.used - 1))
  -- For 64-bit processing, make sure other has an even number of digits.
  return if other.used % 2 = 1 then nsh + digitBits else nsh

/-- The negated divisor, with which `_mulAdd` subtracts. -/
def negateDivisor (yDigits : Digits) (yUsed : ℕ) : Option Digits := do
  let ny ← store (newDigits (yUsed + 2)) yUsed 1
  absSub .result (yUsed + 1) yDigits yUsed ny

/-- `_lastQuoRemDigits`, `_lastQuoRemUsed`, `_lastRemUsed` and `_lastRem_nsh`. -/
structure QuoRem where
  digits : Digits
  used : ℕ
  remUsed : ℕ
  nsh : ℕ

/-- The normalized divisor and dividend, each with its count of digits. -/
def normalizeOperands (x other : BigIntImpl) (nsh : ℕ) :
    Option ((ℕ × Digits) × (ℕ × Digits)) := do
  if 0 < nsh then
    -- Extra digits for normalization, also used for possible _mulAdd carry.
    let numExtraDigits := (nsh + digitBits - 1) / digitBits + 1
    let y ← lShiftDigits other.digits other.used nsh (newDigits (other.used + numExtraDigits))
    let result ← lShiftDigits x.digits x.used nsh (newDigits (x.used + numExtraDigits))
    return (y, result)
  else
    -- Extra digit to hold possible _mulAdd carry.
    let resultDigits ← cloneDigits x.digits 0 x.used (x.used + 1)
    return ((other.used, other.digits), (x.used, resultDigits))

/-- `_divRem` without its cache. -/
def Mode.divRem (mode : Mode) (x other : BigIntImpl) : Option QuoRem := do
  guard (other.used ≤ x.used)
  let nsh ← normalizationShift other
  let ((yUsed, yDigits), (resultUsed, resultDigits)) ← normalizeOperands x other nsh
  let args ← divisorArgs yDigits yUsed
  -- For 64-bit processing, make sure yUsed, i, and j are even.
  guard (yUsed % 2 = 0)
  let i := resultUsed + (resultUsed &&& 1)
  let j := i - yUsed
  let (tmpUsed, tmpDigits) ← dlShiftDigits yDigits yUsed j (newDigits i)
  let resultDigits ← divideFirst i tmpUsed tmpDigits resultUsed resultDigits
  let resultUsed := resultUsed + 1
  let resultDigits ← storeLeadingZero resultUsed resultDigits
  let nyDigits ← negateDivisor yDigits yUsed
  let s ← mode.divideLoop nyDigits yUsed resultUsed j ⟨args, tmpDigits, resultDigits⟩
  return ⟨s.resultDigits, resultUsed, yUsed, nsh⟩

end DartVm.BigInt
