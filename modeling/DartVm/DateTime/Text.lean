import DartVm.DateTime.Fields
import DartVm.Library.Backtracking
import Mathlib.Data.Nat.Digits.Defs

/-! # Dates as text

A string is the list of its characters.  `parse` matches a regular expression and takes the fields
from its groups; exceptions are `none`.

* `parseFormat`: the regular expression of `parse`.
* `parse`, `toIso8601String`: reading and printing. -/

namespace DartVm.DateTime

open Backtracking

/-- A string of code units. -/
abbrev Text := List Char

/-- The fields of a `DateTime`. -/
structure DateTimeValue where
  value : ℤ
  isUtc : Bool
  deriving DecidableEq, Repr

/-! ## Printing -/

/-- `"$n"`. -/
def decimal (n : ℤ) : Text :=
  if n < 0 then '-' :: Nat.toDigits 10 n.natAbs else Nat.toDigits 10 n.natAbs

/-- `_fourDigits`: a year with at least four digits. -/
def fourDigits (n : ℤ) : Text :=
  let absN := |n|
  let sign : Text := if n < 0 then ['-'] else []
  if 1000 ≤ absN then decimal n
  else if 100 ≤ absN then sign ++ '0' :: decimal absN
  else if 10 ≤ absN then sign ++ '0' :: '0' :: decimal absN
  else sign ++ '0' :: '0' :: '0' :: decimal absN

/-- `_sixDigits`: a year with a sign and at least six digits; the source asserts that four do not
do. -/
def sixDigits (n : ℤ) : Option Text := do
  guard (n < -9999 ∨ 9999 < n)
  let absN := |n|
  let sign := if n < 0 then '-' else '+'
  return if 100000 ≤ absN then sign :: decimal absN else sign :: '0' :: decimal absN

/-- `_threeDigits`. -/
def threeDigits (n : ℤ) : Text :=
  if 100 ≤ n then decimal n else if 10 ≤ n then '0' :: decimal n else '0' :: '0' :: decimal n

/-- `_twoDigits`. -/
def twoDigits (n : ℤ) : Text := if 10 ≤ n then decimal n else '0' :: decimal n

/-- The microseconds in UTC that represent the same fields. -/
def localDateInUtcMicros (zone : TimeZone) (t : DateTimeValue) : Option ℤ := do
  if t.isUtc then return t.value
  else
    let offset := (← timeZoneOffsetInSeconds zone t.value) * microsecondsPerSecond
    return wrap64 (t.value + offset)

/-- `__parts`: the fields in the time zone of the value. -/
def parts (zone : TimeZone) (t : DateTimeValue) : Option Fields := do
  computeUpperPart (← localDateInUtcMicros zone t)

/-- The common part of `toString` and `toIso8601String`, for different years and separators. -/
def format (y : Text) (between : Char) (f : Fields) (isUtc : Bool) : Text :=
  y ++ '-' :: (twoDigits f.month ++ '-' :: (twoDigits f.day ++ between :: (twoDigits f.hour ++
    ':' :: (twoDigits f.minute ++ ':' :: (twoDigits f.second ++ '.' :: (threeDigits f.millisecond ++
      ((if f.microsecond = 0 then [] else threeDigits f.microsecond) ++
        if isUtc then ['Z'] else [])))))))

/-- `DateTime.toString`. -/
def toString (zone : TimeZone) (t : DateTimeValue) : Option Text := do
  let f ← parts zone t
  return format (fourDigits f.year) ' ' f t.isUtc

/-- The year of `toIso8601String`. -/
def isoYear (year : ℤ) : Option Text :=
  if -9999 ≤ year ∧ year ≤ 9999 then some (fourDigits year) else sixDigits year

/-- `DateTime.toIso8601String`. -/
def toIso8601String (zone : TimeZone) (t : DateTimeValue) : Option Text := do
  let f ← parts zone t
  return format (← isoYear f.year) 'T' f t.isUtc

/-! ## Parsing -/

/-- The class `\d` of the format. -/
def isDigit (c : Char) : Bool := '0' ≤ c && c ≤ '9'

/-- `\d\d` in a group. -/
def twoDigitGroup (index : ℕ) : Pattern Char := .group index (.times isDigit 2)

/-- One of the characters, or nothing. -/
def optional (cs : List Char) : Pattern Char := .opt (.char cs.contains)

/-- `([+-]?\d{4,6})-?(\d\d)-?(\d\d)`. -/
def dayPart : Pattern Char :=
  .seq (.group 1 (.seq (optional ['+', '-']) (.between isDigit 4 2))) <|
  .seq (optional ['-']) <| .seq (twoDigitGroup 2) <| .seq (optional ['-']) (twoDigitGroup 3)

/-- `(?::?(\d\d)(?::?(\d\d)(?:[.,](\d+))?)?)?`. -/
def minutePart : Pattern Char :=
  .opt <| .seq (optional [':']) <| .seq (twoDigitGroup 5) <|
    .opt <| .seq (optional [':']) <| .seq (twoDigitGroup 6) <|
      .opt <| .seq (.char ['.', ','].contains) (.group 7 (.many1 isDigit))

/-- `( ?[zZ]| ?([-+])(\d\d)(?::?(\d\d))?)?`. -/
def timeZonePart : Pattern Char :=
  .opt <| .group 8 <| .alt (.seq (optional [' ']) (.char ['z', 'Z'].contains)) <|
    .seq (optional [' ']) <| .seq (.group 9 (.char ['-', '+'].contains)) <|
      .seq (twoDigitGroup 10) <|
      .opt <| .seq (optional [':']) (twoDigitGroup 11)

/-- `_parseFormat`, the regular expression of `DateTime.parse`: a day, then optionally a time and a
time zone. -/
def parseFormat : Pattern Char :=
  .seq .atStart <| .seq (.seq dayPart <| .opt <| .seq (.char [' ', 'T'].contains) <|
    .seq (twoDigitGroup 4) <| .seq minutePart timeZonePart) .atEnd

/-- The value of a digit: `c ^ 0x30`. -/
def digitValue (c : Char) : ℕ := c.toNat ^^^ 0x30

/-- The loop of `_tryParseSmi`. -/
def parseDigits : Text → ℕ → Option ℕ
  | [], result => some result
  | c :: cs, result =>
    if 9 < digitValue c then none else parseDigits cs (10 * result + digitValue c)

/-- The part of `_tryParseSmi` after the sign. -/
def parseUnsigned (has63BitSmis : Bool) (sign : ℤ) (digits : Text) : Option ℤ := do
  guard (digits ≠ [])
  guard (digits.length ≤ if has63BitSmis then 18 else 9)
  return sign * (← parseDigits digits 0)

/-- `int.parse`, for a text that `_tryParseSmi` can parse. -/
def parseInt (has63BitSmis : Bool) : Text → Option ℤ
  | '+' :: cs => parseUnsigned has63BitSmis 1 cs
  | '-' :: cs => parseUnsigned has63BitSmis (-1) cs
  | cs => parseUnsigned has63BitSmis 1 cs

/-- `parseIntOrZero`: a group that did not take part counts as zero. -/
def parseIntOrZero (has63BitSmis : Bool) : Option Text → Option ℤ
  | none => some 0
  | some matched => parseInt has63BitSmis matched

/-- The loop of `parseMilliAndMicroseconds` over the six digits that count. -/
def parseFraction (matched : Text) : ℕ → ℕ → ℕ
  | 0, result => result
  | n + 1, result =>
    parseFraction matched.tail n
      (10 * result + match matched with | [] => 0 | c :: _ => digitValue c)

/-- `parseMilliAndMicroseconds`: the fraction of a second in microseconds. -/
def parseMilliAndMicroseconds : Option Text → Option ℤ
  | none => some 0
  | some matched => do
      guard (1 ≤ matched.length)
      return parseFraction matched 6 0

/-- The minutes without the offset of the time zone. -/
def subtractOffset (has63BitSmis : Bool) (groups : Groups Char) (minute : ℤ) : Option ℤ :=
  match groups 9 with
  | none => some minute
  | some tzSign => do
      let sign := if tzSign = ['-'] then -1 else 1
      let hourDifference ← parseInt has63BitSmis (← groups 10)
      let minuteDifference ← parseIntOrZero has63BitSmis (groups 11)
      return minute - sign * (minuteDifference + 60 * hourDifference)

/-- The constructor `DateTime._withValue`. -/
def withValue (zone : TimeZone) (value : ℤ) (isUtc : Bool) : Option DateTimeValue := do
  let millisecondsSinceEpoch := value.tdiv microsecondsPerMillisecond
  if maxMillisecondsSinceEpoch < |millisecondsSinceEpoch| then none
  else if |millisecondsSinceEpoch| = maxMillisecondsSinceEpoch then
    let f ← parts zone ⟨value, isUtc⟩
    if f.microsecond ≠ 0 then none else return ⟨value, isUtc⟩
  else return ⟨value, isUtc⟩

/-- `DateTime.parse`. `none` is an exception. -/
def parse (has63BitSmis : Bool) (zone : TimeZone) (formattedString : Text) :
    Option DateTimeValue := do
  let groups ← firstMatch parseFormat formattedString
  let years ← parseInt has63BitSmis (← groups 1)
  let month ← parseInt has63BitSmis (← groups 2)
  let day ← parseInt has63BitSmis (← groups 3)
  let hour ← parseIntOrZero has63BitSmis (groups 4)
  let minute ← parseIntOrZero has63BitSmis (groups 5)
  let second ← parseIntOrZero has63BitSmis (groups 6)
  let milliAndMicroseconds ← parseMilliAndMicroseconds (groups 7)
  let millisecond := milliAndMicroseconds.tdiv microsecondsPerMillisecond
  let microsecond := milliAndMicroseconds.tmod microsecondsPerMillisecond
  let isUtc := (groups 8).isSome
  let minute ← if isUtc then subtractOffset has63BitSmis groups minute else some minute
  let value ← brokenDownDateToValue zone years month day hour minute second millisecond microsecond
    isUtc
  withValue zone (← value) isUtc

end DartVm.DateTime
