import DartVm.Library.Calendar
import DartVm.Library.Int64

/-! # The fields of a date

`_computeUpperPart` computes the fields of a moment, which is a count of microseconds since
1970-01-01 00:00:00 UTC, and `_brokenDownDateToValue` goes back.  Integers are 64 bits wide; sums
that cannot leave this range are written without `wrap64`.

* `computeUpperPart`: the fields of a moment.
* `brokenDownDateToValue`: the moment of fields. -/

namespace DartVm.DateTime

/-! ## Constants of `Duration` and `DateTime` -/

/-- `Duration.microsecondsPerMillisecond`. -/
def microsecondsPerMillisecond : ℤ := 1000

/-- `Duration.millisecondsPerSecond`. -/
def millisecondsPerSecond : ℤ := 1000

/-- `Duration.secondsPerMinute`. -/
def secondsPerMinute : ℤ := 60

/-- `Duration.minutesPerHour`. -/
def minutesPerHour : ℤ := 60

/-- `Duration.hoursPerDay`. -/
def hoursPerDay : ℤ := 24

/-- `Duration.microsecondsPerSecond`. -/
def microsecondsPerSecond : ℤ := microsecondsPerMillisecond * millisecondsPerSecond

/-- `Duration.microsecondsPerMinute`. -/
def microsecondsPerMinute : ℤ := microsecondsPerSecond * secondsPerMinute

/-- `Duration.microsecondsPerHour`. -/
def microsecondsPerHour : ℤ := microsecondsPerMinute * minutesPerHour

/-- `Duration.microsecondsPerDay`. -/
def microsecondsPerDay : ℤ := microsecondsPerHour * hoursPerDay

/-- `Duration.secondsPerDay`. -/
def secondsPerDay : ℤ := secondsPerMinute * minutesPerHour * hoursPerDay

/-- `DateTime._maxMillisecondsSinceEpoch`: 100,000,000 days. -/
def maxMillisecondsSinceEpoch : ℤ := 8640000000000000

/-- `DateTime.monday`. -/
def monday : ℤ := 1

/-- `DateTime.thursday`, the day of the week of the epoch. -/
def thursday : ℤ := 4

/-- `DateTime.daysPerWeek`. -/
def daysPerWeek : ℤ := 7

/-- The days until each month, in non-leap years and in leap years. -/
def daysUntilMonth (leap : Bool) : List ℤ :=
  if leap then [0, 31, 60, 91, 121, 152, 182, 213, 244, 274, 305, 335]
  else [0, 31, 59, 90, 120, 151, 181, 212, 243, 273, 304, 334]

/-! ## From a moment to its fields -/

/-- The fields of a moment, by the indices of the list that `_computeUpperPart` returns. -/
structure Fields where
  microsecond : ℤ
  millisecond : ℤ
  second : ℤ
  minute : ℤ
  hour : ℤ
  day : ℤ
  weekday : ℤ
  month : ℤ
  year : ℤ
  deriving DecidableEq, Repr

/-- `_flooredDivision`: truncated division of a dividend that is lowered first if it is negative;
the subtraction is one of 64-bit integers. -/
def flooredDivision (a b : ℤ) : ℤ := (wrap64 (a - if a < 0 then b - 1 else 0)).tdiv b

/-- `DAYS_IN_4_YEARS`. -/
def daysIn4Years : ℤ := 4 * 365 + 1

/-- `DAYS_IN_100_YEARS`. -/
def daysIn100Years : ℤ := 25 * daysIn4Years - 1

/-- `DAYS_IN_400_YEARS`. -/
def daysIn400Years : ℤ := 4 * daysIn100Years + 1

/-- `DAYS_1970_TO_2000`. -/
def days1970To2000 : ℤ := 30 * 365 + 7

/-- `DAYS_OFFSET`: moves the days since 1970 to a positive number of days since a multiple of 400
years. -/
def daysOffset : ℤ := 1000 * daysIn400Years + 5 * daysIn400Years - days1970To2000

/-- `YEARS_OFFSET`: the years that belong to `daysOffset`. -/
def yearsOffset : ℤ := 400000

/-- A year, whether it is a leap year, and the days from its start. -/
structure YearDay where
  year : ℤ
  isLeap : Bool
  days : ℤ

/-- The part of `_computeUpperPart` that peels off the cycles of 400, 100, 4 years and one year. -/
def yearDay (daysSince1970 : ℤ) : YearDay :=
  let days := daysSince1970 + daysOffset
  let resultYear := 400 * days.tdiv daysIn400Years - yearsOffset
  let days := days.tmod daysIn400Years
  let days := days - 1
  let yd1 := days.tdiv daysIn100Years
  let days := days.tmod daysIn100Years
  let resultYear := resultYear + 100 * yd1
  let days := days + 1
  let yd2 := days.tdiv daysIn4Years
  let days := days.tmod daysIn4Years
  let resultYear := resultYear + 4 * yd2
  let days := days - 1
  let yd3 := days.tdiv 365
  let days := days.tmod 365
  let resultYear := resultYear + yd3
  let isLeap := (yd1 == 0 || yd2 != 0) && yd3 == 0
  ⟨resultYear, isLeap, if isLeap then days + 1 else days⟩

/-- The loop over the months from the given one down; below January the table has no element. -/
def findMonth (table : List ℤ) (days : ℤ) : ℕ → Option ℕ
  | 0 => none
  | month + 1 => do
      if days < (← table[month]?) then findMonth table days month else return month + 1

/-- `_computeUpperPart`: the fields of a moment, by cycles of 400, 100, 4 years and one year and
then a search in the table of months. `none` is an index out of bounds. -/
def computeUpperPart (localMicros : ℤ) : Option Fields := do
  -- Always round down.
  let daysSince1970 := flooredDivision localMicros microsecondsPerDay
  let yd := yearDay daysSince1970
  let table := daysUntilMonth yd.isLeap
  let resultMonth ← findMonth table yd.days 12
  let resultDay := yd.days - (← table[resultMonth - 1]?) + 1
  return {
    microsecond := localMicros % microsecondsPerMillisecond
    millisecond := flooredDivision localMicros microsecondsPerMillisecond % millisecondsPerSecond
    second := flooredDivision localMicros microsecondsPerSecond % secondsPerMinute
    minute := flooredDivision localMicros microsecondsPerMinute % minutesPerHour
    hour := flooredDivision localMicros microsecondsPerHour % hoursPerDay
    day := resultDay
    -- 1970-1-1 was a Thursday.
    weekday := (daysSince1970 + thursday - monday) % daysPerWeek + monday
    month := resultMonth
    year := yd.year }

/-! ## Time zones -/

/-- The natives that depend on the time zone of the machine. -/
structure TimeZone where
  timeZoneOffsetInSecondsForClampedSeconds : ℤ → ℤ
  localTimeZoneAdjustmentInSeconds : ℤ

/-- The days since 1970 for the start of the given year. -/
def dayFromYear (year : ℤ) : ℤ :=
  wrap64 (365 * (year - 1970) + flooredDivision (wrap64 (year - 1969)) 4
    - flooredDivision (wrap64 (year - 1901)) 100 + flooredDivision (wrap64 (year - 1601)) 400)

/-- `_isLeapYear`: a multiple of 16 need not be looked at further. -/
def isLeapYear (y : ℤ) : Bool := y % 4 = 0 && (y % 16 = 0 || y % 100 ≠ 0)

/-- `_weekDay` of the first of January, with Sunday as 0. -/
def weekDay (y : ℤ) : ℤ := wrap64 (dayFromYear y + 4) % 7

/-- A year in the range 2008-2035 with the same leap day and the same weekdays. -/
def equivalentYear (year : ℤ) : ℤ :=
  let recentYear := (if isLeapYear year then 1956 else 1967) + weekDay year * 12
  2008 + (recentYear - 2008) % 28

/-- `_yearsFromSecondsSinceEpoch`, with its fast case for the years up to 2098. -/
def yearsFromSecondsSinceEpoch (secondsSinceEpoch : ℤ) : Option ℤ := do
  let daysYear2098 := daysIn100Years + 6 * daysIn4Years
  let days := secondsSinceEpoch.tdiv secondsPerDay
  if 0 < days ∧ days < daysYear2098 then
    -- According to V8 this fast case works for dates from 1970 to 2099.
    return 1970 + (4 * days + 2).tdiv daysIn4Years
  else
    let fields ← computeUpperPart (wrap64 (secondsSinceEpoch * microsecondsPerSecond))
    return fields.year

/-- `_equivalentSeconds`: moves a moment outside the range of 32 bits to a year of the same shape,
for which the system knows the time zone. -/
def equivalentSeconds (microsecondsSinceEpoch : ℤ) : Option ℤ := do
  let secondsSinceEpoch := flooredDivision microsecondsSinceEpoch microsecondsPerSecond
  if 0x7FFFFFFF < |secondsSinceEpoch| then
    let year ← yearsFromSecondsSinceEpoch secondsSinceEpoch
    let diffDays := dayFromYear (equivalentYear year) - dayFromYear year
    return secondsSinceEpoch + diffDays * secondsPerDay
  else return secondsSinceEpoch

/-- `_timeZoneOffsetInSeconds`: the offset of the time zone at a moment. -/
def timeZoneOffsetInSeconds (zone : TimeZone) (microsecondsSinceEpoch : ℤ) : Option ℤ := do
  return zone.timeZoneOffsetInSecondsForClampedSeconds (← equivalentSeconds microsecondsSinceEpoch)

/-! ## From fields to a moment -/

/-- The normalized year and zero-based month, for a month out of range. -/
def normalizeMonth (year month : ℤ) : ℤ × ℤ :=
  let month := wrap64 (month - 1)
  if 12 ≤ month then (wrap64 (year + month.tdiv 12), month % 12)
  else if month < 0 then (wrap64 (year + (wrap64 (month - month % 12)).tdiv 12), month % 12)
  else (year, month)

/-- The local time taken off, if the moment is not in UTC. -/
def subtractZone (zone : TimeZone) (isUtc : Bool) (microsecondsSinceEpoch : ℤ) : Option ℤ := do
  if isUtc then return microsecondsSinceEpoch
  else
    let adjustment := zone.localTimeZoneAdjustmentInSeconds * microsecondsPerSecond
      + microsecondsPerHour
    let zoneOffset ← timeZoneOffsetInSeconds zone (wrap64 (microsecondsSinceEpoch - adjustment))
    return wrap64 (microsecondsSinceEpoch - zoneOffset * microsecondsPerSecond)

/-- `_brokenDownDateToValue`; the outer `Option` is for exceptions, the inner one for `null`. -/
def brokenDownDateToValue (zone : TimeZone)
    (year month day hour minute second millisecond microsecond : ℤ) (isUtc : Bool) :
    Option (Option ℤ) := do
  let (year, month) := normalizeMonth year month
  let days := day - 1 + (← (daysUntilMonth (isLeapYear year))[month.toNat]?) + dayFromYear year
  let microsecondsSinceEpoch := wrap64 (days * microsecondsPerDay + hour * microsecondsPerHour
    + minute * microsecondsPerMinute + second * microsecondsPerSecond
    + millisecond * microsecondsPerMillisecond + microsecond)
  if maxMillisecondsSinceEpoch * 1000 + microsecondsPerDay < wrap64 |microsecondsSinceEpoch| then
    return none
  else
    let microsecondsSinceEpoch ← subtractZone zone isUtc microsecondsSinceEpoch
    if maxMillisecondsSinceEpoch * microsecondsPerMillisecond < wrap64 |microsecondsSinceEpoch| then
      return none
    else return some microsecondsSinceEpoch

end DartVm.DateTime
