import Mathlib.Tactic.IntervalCases
import Mathlib.Tactic.Linarith

/-! # The proleptic Gregorian calendar

The calendar is given by the lengths of its months: `Date.next` is the date after a date, and
`dateOfDay n` the date `n` days after 1970-01-01, or `-n` days before it.  A date is found from its
`dayNumber`, which no two valid dates share.

* `IsValid.eq_of_dayNumber_eq`: a day number belongs to one date.
* `dateOfDay_spec`: every day number has a date. -/

namespace DartVm.Calendar

/-! ## Dates -/

/-- Every fourth year is a leap year, save the centuries that are not divisible by 400. -/
def isLeap (year : ℤ) : Bool := year % 4 = 0 && (year % 100 ≠ 0 || year % 400 = 0)

/-- The days of a month. -/
def monthLength (leap : Bool) (month : ℕ) : ℕ :=
  if month = 2 then if leap then 29 else 28
  else if month = 4 ∨ month = 6 ∨ month = 9 ∨ month = 11 then 30
  else 31

/-- The length of the first `n` months of a year. -/
def daysBefore (leap : Bool) : ℕ → ℕ
  | 0 => 0
  | n + 1 => daysBefore leap n + monthLength leap (n + 1)

/-- A date of the proleptic Gregorian calendar. -/
@[ext]
structure Date where
  year : ℤ
  month : ℕ
  day : ℕ
  deriving DecidableEq, Repr

namespace Date

/-- The month and the day exist. -/
structure IsValid (d : Date) : Prop where
  month_pos : 1 ≤ d.month
  month_le : d.month ≤ 12
  day_pos : 1 ≤ d.day
  day_le : d.day ≤ monthLength (isLeap d.year) d.month

/-- The day after. -/
def next (d : Date) : Date :=
  if d.day < monthLength (isLeap d.year) d.month then ⟨d.year, d.month, d.day + 1⟩
  else if d.month < 12 then ⟨d.year, d.month + 1, 1⟩
  else ⟨d.year + 1, 1, 1⟩

/-- The day before. -/
def prev (d : Date) : Date :=
  if 1 < d.day then ⟨d.year, d.month, d.day - 1⟩
  else if 1 < d.month then ⟨d.year, d.month - 1, monthLength (isLeap d.year) (d.month - 1)⟩
  else ⟨d.year - 1, 12, 31⟩

end Date

/-- The first of January 1970. -/
def epoch : Date := ⟨1970, 1, 1⟩

/-- The date of a day, counted from 1970-01-01. -/
def dateOfDay : ℤ → Date
  | .ofNat n => Date.next^[n] epoch
  | .negSucc n => Date.prev^[n + 1] epoch

example : dateOfDay 1 = ⟨1970, 1, 2⟩ := rfl

example : dateOfDay (-1) = ⟨1969, 12, 31⟩ := rfl

/-! ## Day numbers -/

/-- The day number of the first of January. -/
def yearStart (year : ℤ) : ℤ :=
  365 * (year - 1970) + (year - 1969) / 4 - (year - 1901) / 100 + (year - 1601) / 400

/-- A year is as long as its months. -/
theorem yearStart_succ (year : ℤ) :
    yearStart (year + 1) = yearStart year + daysBefore (isLeap year) 12 := by
  have hlength : (daysBefore (isLeap year) 12 : ℤ)
      = if year % 4 = 0 ∧ (year % 100 ≠ 0 ∨ year % 400 = 0) then 366 else 365 := by
    cases h : isLeap year
    · rw [if_neg (by simpa [isLeap] using h)]
      rfl
    · rw [if_pos (by simpa [isLeap] using h)]
      rfl
  rw [hlength, yearStart, yearStart]
  split_ifs with h <;> omega

/-- The number of days from 1970-01-01 to a date. -/
def Date.dayNumber (d : Date) : ℤ :=
  yearStart d.year + daysBefore (isLeap d.year) (d.month - 1) + (d.day - 1 : ℕ)

variable {d e : Date} {leap : Bool} {m n : ℕ}

/-- Months have 28 to 31 days. -/
theorem monthLength_mem : 28 ≤ monthLength leap m ∧ monthLength leap m ≤ 31 := by
  unfold monthLength
  split_ifs <;> omega

/-- Later months have more days before them. -/
theorem daysBefore_mono (h : m ≤ n) : daysBefore leap m ≤ daysBefore leap n := by
  induction n, h using Nat.le_induction with
  | base => exact le_rfl
  | succ n _ ih => exact ih.trans (Nat.le_add_right _ _)

namespace Date

namespace IsValid

variable (hd : d.IsValid)

include hd

/-- Months are counted from one. -/
theorem exists_month : ∃ k, d.month = k + 1 := ⟨d.month - 1, by have := hd.month_pos; omega⟩

/-- The next day is a date. -/
theorem next_isValid : d.next.IsValid := by
  have hmonth := hd.month_le
  unfold next
  split_ifs with h1 h2
  · exact ⟨hd.month_pos, hmonth, by simp, h1⟩
  · exact ⟨by simp, h2, le_rfl, Nat.one_le_of_lt monthLength_mem.1⟩
  · exact ⟨le_rfl, by simp, le_rfl, Nat.one_le_of_lt monthLength_mem.1⟩

/-- The day before is a date. -/
theorem prev_isValid : d.prev.IsValid := by
  have hmonth := hd.month_le
  have hday := hd.day_le
  unfold prev
  split_ifs with h1 h2
  · exact ⟨hd.month_pos, hmonth, by dsimp only; omega, by dsimp only; omega⟩
  · exact ⟨by dsimp only; omega, by dsimp only; omega, Nat.one_le_of_lt monthLength_mem.1, le_rfl⟩
  · exact ⟨by simp, le_rfl, by simp, le_rfl⟩

/-- The next day has the next number. -/
theorem dayNumber_next : d.next.dayNumber = d.dayNumber + 1 := by
  obtain ⟨k, hk⟩ := hd.exists_month
  have hmonth := hd.month_le
  have hday := hd.day_pos
  have hday' := hd.day_le
  unfold next dayNumber
  split_ifs with h1 h2
  · dsimp only
    omega
  · have hsucc : daysBefore (isLeap d.year) (k + 1)
        = daysBefore (isLeap d.year) k + monthLength (isLeap d.year) (k + 1) := rfl
    rw [hk] at h1 hday' ⊢
    show yearStart d.year + daysBefore (isLeap d.year) (k + 1) + (1 - 1 : ℕ)
      = yearStart d.year + daysBefore (isLeap d.year) k + (d.day - 1 : ℕ) + 1
    omega
  · -- The last day of December.
    obtain rfl : k = 11 := by omega
    have hsucc : daysBefore (isLeap d.year) 12
        = daysBefore (isLeap d.year) 11 + monthLength (isLeap d.year) 12 := rfl
    have hyear := yearStart_succ d.year
    rw [hk] at h1 hday' ⊢
    have hlast : d.day = monthLength (isLeap d.year) 12 := Nat.le_antisymm hday' (Nat.not_lt.mp h1)
    show yearStart (d.year + 1) + (0 : ℕ) + (1 - 1 : ℕ)
      = yearStart d.year + daysBefore (isLeap d.year) 11 + (d.day - 1 : ℕ) + 1
    omega

/-- The day before has the number before. -/
theorem dayNumber_prev : d.prev.dayNumber = d.dayNumber - 1 := by
  obtain ⟨k, hk⟩ := hd.exists_month
  unfold prev dayNumber
  split_ifs with h1 h2
  · dsimp only
    omega
  · obtain ⟨l, rfl⟩ : ∃ l, k = l + 1 := ⟨k - 1, by omega⟩
    have hsucc : daysBefore (isLeap d.year) (l + 1)
        = daysBefore (isLeap d.year) l + monthLength (isLeap d.year) (l + 1) := rfl
    have hlen : 28 ≤ monthLength (isLeap d.year) (l + 1) := monthLength_mem.1
    rw [hk]
    show yearStart d.year + daysBefore (isLeap d.year) l
        + (monthLength (isLeap d.year) (l + 1) - 1 : ℕ)
      = yearStart d.year + daysBefore (isLeap d.year) (l + 1) + (d.day - 1 : ℕ) - 1
    omega
  · -- The day before the first of January.
    have hyear := yearStart_succ (d.year - 1)
    have hlast : ∀ leap, daysBefore leap 12 = daysBefore leap 11 + 31 := fun _ => rfl
    rw [sub_add_cancel, hlast] at hyear
    rw [show d.month - 1 = 0 by omega]
    show yearStart (d.year - 1) + daysBefore (isLeap (d.year - 1)) 11 + (31 - 1 : ℕ)
      = yearStart d.year + (0 : ℕ) + (d.day - 1 : ℕ) - 1
    omega

/-- The days of a year lie between the beginnings of this year and the next. -/
theorem dayNumber_mem : yearStart d.year ≤ d.dayNumber ∧ d.dayNumber < yearStart (d.year + 1) := by
  obtain ⟨k, hk⟩ := hd.exists_month
  have hday := hd.day_pos
  have hday' := hd.day_le
  have hsucc : daysBefore (isLeap d.year) (k + 1)
      = daysBefore (isLeap d.year) k + monthLength (isLeap d.year) (k + 1) := rfl
  have hmono : daysBefore (isLeap d.year) (k + 1) ≤ daysBefore (isLeap d.year) 12 :=
    daysBefore_mono (by have := hd.month_le; omega)
  have hyear := yearStart_succ d.year
  unfold dayNumber
  rw [hk] at hday' ⊢
  rw [Nat.add_sub_cancel]
  omega

end IsValid

/-- Years begin one after another. -/
theorem yearStart_lt_iff {a b : ℤ} : yearStart a < yearStart b ↔ a < b := by
  refine (strictMono_int_of_lt_succ fun year => ?_).lt_iff_lt
  rw [yearStart_succ]
  have : 0 < daysBefore (isLeap year) 12 := by cases isLeap year <;> decide
  omega

/-- **A day number belongs to one date only.** -/
theorem IsValid.eq_of_dayNumber_eq (hd : d.IsValid) (he : e.IsValid)
    (h : d.dayNumber = e.dayNumber) : d = e := by
  obtain ⟨hd1, hd2⟩ := hd.dayNumber_mem
  obtain ⟨he1, he2⟩ := he.dayNumber_mem
  have hyear : d.year = e.year := by
    have h1 : d.year < e.year + 1 := yearStart_lt_iff.mp (by omega)
    have h2 : e.year < d.year + 1 := yearStart_lt_iff.mp (by omega)
    omega
  obtain ⟨k, hk⟩ := hd.exists_month
  obtain ⟨l, hl⟩ := he.exists_month
  have hday := hd.day_pos
  have hday' := he.day_pos
  have hdle := hd.day_le
  have hele := he.day_le
  unfold dayNumber at h
  rw [hyear, hk] at hdle
  rw [hl] at hele
  rw [hyear, hk, hl, Nat.add_sub_cancel, Nat.add_sub_cancel] at h
  have hsucc : ∀ i, daysBefore (isLeap e.year) (i + 1)
      = daysBefore (isLeap e.year) i + monthLength (isLeap e.year) (i + 1) := fun _ => rfl
  have hkl : k = l := by
    rcases Nat.lt_trichotomy k l with hlt | heq | hlt
    · have hmono : daysBefore (isLeap e.year) (k + 1) ≤ daysBefore (isLeap e.year) l :=
        daysBefore_mono hlt
      have := hsucc k
      omega
    · exact heq
    · have hmono : daysBefore (isLeap e.year) (l + 1) ≤ daysBefore (isLeap e.year) k :=
        daysBefore_mono hlt
      have := hsucc l
      omega
  subst hkl
  exact Date.ext hyear (hk.trans hl.symm) (by omega)

end Date

/-! ## The date of a day -/

/-- The epoch is a date. -/
theorem epoch_isValid : epoch.IsValid := ⟨by decide, by decide, by decide, by decide⟩

/-- **Every day number has its date**, found by counting from the epoch. -/
theorem dateOfDay_spec (n : ℤ) : (dateOfDay n).IsValid ∧ (dateOfDay n).dayNumber = n := by
  have hnext : ∀ k : ℕ, (Date.next^[k] epoch).IsValid ∧ (Date.next^[k] epoch).dayNumber = k := by
    intro k
    induction k with
    | zero => exact ⟨epoch_isValid, by decide⟩
    | succ k ih =>
      rw [Function.iterate_succ_apply']
      exact ⟨ih.1.next_isValid, by rw [ih.1.dayNumber_next]; push_cast; omega⟩
  have hprev : ∀ k : ℕ, (Date.prev^[k] epoch).IsValid ∧ (Date.prev^[k] epoch).dayNumber = -k := by
    intro k
    induction k with
    | zero => exact ⟨epoch_isValid, by decide⟩
    | succ k ih =>
      rw [Function.iterate_succ_apply']
      exact ⟨ih.1.prev_isValid, by rw [ih.1.dayNumber_prev]; push_cast; omega⟩
  cases n with
  | ofNat n => exact hnext n
  | negSucc n => exact hprev (n + 1)

/-- **A valid date is the date of its day number.** -/
theorem Date.IsValid.eq_dateOfDay (hd : d.IsValid) : d = dateOfDay d.dayNumber :=
  hd.eq_of_dayNumber_eq (dateOfDay_spec _).1 (dateOfDay_spec _).2.symm

/-! ## Weekdays -/

/-- The days of the week, in the order in which they follow each other. -/
inductive Weekday
  | monday
  | tuesday
  | wednesday
  | thursday
  | friday
  | saturday
  | sunday
  deriving DecidableEq, Repr

namespace Weekday

/-- The next day of the week. -/
def next : Weekday → Weekday
  | monday => tuesday
  | tuesday => wednesday
  | wednesday => thursday
  | thursday => friday
  | friday => saturday
  | saturday => sunday
  | sunday => monday

/-- The day of the week before. -/
def prev : Weekday → Weekday
  | monday => sunday
  | tuesday => monday
  | wednesday => tuesday
  | thursday => wednesday
  | friday => thursday
  | saturday => friday
  | sunday => saturday

/-- The number of a weekday, by ISO 8601. -/
def number : Weekday → ℤ
  | monday => 1
  | tuesday => 2
  | wednesday => 3
  | thursday => 4
  | friday => 5
  | saturday => 6
  | sunday => 7

end Weekday

/-- The weekday of a day, counted from 1970-01-01, which was a Thursday. -/
def weekdayOfDay : ℤ → Weekday
  | .ofNat n => Weekday.next^[n] .thursday
  | .negSucc n => Weekday.prev^[n + 1] .thursday

/-- The number of the day of the week, from the day number. -/
theorem number_weekdayOfDay (n : ℤ) : (weekdayOfDay n).number = (n + 3) % 7 + 1 := by
  have hnext : ∀ w : Weekday, w.next.number = w.number % 7 + 1 := by intro w; cases w <;> rfl
  have hprev : ∀ w : Weekday, w.prev.number = (w.number + 5) % 7 + 1 := by intro w; cases w <;> rfl
  have hup : ∀ k : ℕ, (Weekday.next^[k] .thursday).number = ((k : ℤ) + 3) % 7 + 1 := by
    intro k
    induction k with
    | zero => rfl
    | succ k ih =>
      rw [Function.iterate_succ_apply', hnext]
      omega
  have hdown : ∀ k : ℕ, (Weekday.prev^[k] .thursday).number = (-(k : ℤ) + 3) % 7 + 1 := by
    intro k
    induction k with
    | zero => rfl
    | succ k ih =>
      rw [Function.iterate_succ_apply', hprev]
      omega
  cases n with
  | ofNat n => exact hup n
  | negSucc n => exact hdown (n + 1)

end DartVm.Calendar
