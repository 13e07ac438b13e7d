import DartVm.DateTime.Fields

/-! # The fields are those of the calendar

* `yearDay_spec`, `findMonth_spec`: the two searches of `_computeUpperPart`.
* `computeUpperPart_spec`: the fields are those of the Gregorian date.
* `brokenDownDateToValue_spec`: the fields give the moment back. -/

namespace DartVm.DateTime

open Calendar Int

variable {a b n v t : ℤ}

/-! ## Divisions -/

/-- `_flooredDivision` is division rounded down, as long as its adjusted dividend does not wrap
around. -/
theorem flooredDivision_eq (hb : 0 < b) (ha : IsInt64 (a - (b - 1))) (ha' : IsInt64 a) :
    flooredDivision a b = a / b := by
  have hwrap : IsInt64 (a - if a < 0 then b - 1 else 0) := by
    split_ifs
    · exact ha
    · rwa [sub_zero]
  rw [flooredDivision, wrap64_of_isInt64 hwrap]
  split_ifs with hneg
  · have hpos : 0 ≤ -(a - (b - 1)) := by omega
    rw [← neg_neg (a - (b - 1)), Int.neg_tdiv, tdiv_eq_ediv_of_nonneg hpos]
    -- Both sides are the only multiple of the divisor in the last `b` numbers.
    refine (ediv_eq_iff_of_pos hb).mpr ?_ |>.symm
    have h1 := mul_ediv_add_emod (-(a - (b - 1))) b
    have h2 := emod_nonneg (-(a - (b - 1))) hb.ne'
    have h3 := emod_lt_of_pos (-(a - (b - 1))) hb
    constructor <;> nlinarith
  · rw [sub_zero, tdiv_eq_ediv_of_nonneg (not_lt.mp hneg)]

/-- Division of a number that may be `-1`, which stays the remainder then. -/
theorem tdiv_cases (ht : -1 ≤ t) (hb : 1 < b) : t = b * t.tdiv b + t.tmod b ∧
    (t = -1 ∧ t.tdiv b = 0 ∧ t.tmod b = -1 ∨ 0 ≤ t.tdiv b ∧ 0 ≤ t.tmod b ∧ t.tmod b < b) := by
  refine ⟨(mul_tdiv_add_tmod t b).symm, ?_⟩
  rcases eq_or_lt_of_le ht with rfl | hpos
  · refine .inl ⟨rfl, ?_, ?_⟩
    · rw [Int.neg_tdiv, tdiv_eq_zero_of_lt (by norm_num) hb, neg_zero]
    · rw [neg_tmod, tmod_eq_of_lt (by norm_num) hb]
  · have hnonneg : 0 ≤ t := by omega
    rw [tdiv_eq_ediv_of_nonneg hnonneg, tmod_eq_emod_of_nonneg hnonneg]
    exact .inr ⟨ediv_nonneg hnonneg (by omega), emod_nonneg t (by omega),
      emod_lt_of_pos t (by omega)⟩

/-! ## Years -/

section

variable {Q a b c y : ℤ} (ha : 0 ≤ a ∧ a ≤ 3) (hb : 0 ≤ b ∧ b ≤ 24) (hc : 0 ≤ c ∧ c ≤ 3)
  (hy : y = 400 * Q - 400000 + 100 * a + 4 * b + c)
include ha hb hc hy

/-- The cycles of 400, 100 and 4 years tell whether a year is a leap year. -/
theorem isLeap_of_cycles : isLeap y = true ↔ (a = 0 ∨ b ≠ 0) ∧ c = 0 := by
  unfold isLeap
  simp only [Bool.and_eq_true, Bool.or_eq_true, decide_eq_true_eq, ne_eq]
  omega

/-- The start of a year by its place in the cycles: after the leap year of its cycle,
one day later. -/
theorem yearStart_of_cycles :
    yearStart y = 146097 * Q + 36524 * a + 1461 * b + 365 * c - 146816528
      + if (a = 0 ∨ b ≠ 0) ∧ c = 0 then 0 else 1 := by
  unfold yearStart
  split_ifs with h <;> omega

end

/-- **The year of a day**, and the days since its start. -/
theorem yearDay_spec (hn : 0 ≤ n + daysOffset) :
    (yearDay n).isLeap = isLeap (yearDay n).year ∧
      yearStart (yearDay n).year + (yearDay n).days = n ∧ 0 ≤ (yearDay n).days ∧
        (yearDay n).days < daysBefore (yearDay n).isLeap 12 := by
  have hoffset : daysOffset = 146816528 := by decide
  unfold yearDay
  simp only [hoffset, show daysIn400Years = 146097 by decide, show daysIn100Years = 36524 by decide,
    show daysIn4Years = 1461 by decide, show yearsOffset = 400000 by decide]
  -- Cycles of 400, 100, 4 years and single years; the rest is linear in the quotients.
  obtain ⟨h0, h0'⟩ := tdiv_cases (t := n + 146816528) (b := 146097) (by omega) (by norm_num)
  generalize (n + 146816528).tdiv 146097 = Q at *
  generalize (n + 146816528).tmod 146097 = R at *
  obtain ⟨h1, h1'⟩ := tdiv_cases (t := R - 1) (b := 36524) (by omega) (by norm_num)
  generalize (R - 1).tdiv 36524 = a at *
  generalize (R - 1).tmod 36524 = r₁ at *
  obtain ⟨h2, h2'⟩ := tdiv_cases (t := r₁ + 1) (b := 1461) (by omega) (by norm_num)
  generalize (r₁ + 1).tdiv 1461 = b at *
  generalize (r₁ + 1).tmod 1461 = r₂ at *
  obtain ⟨h3, h3'⟩ := tdiv_cases (t := r₂ - 1) (b := 365) (by omega) (by norm_num)
  generalize (r₂ - 1).tdiv 365 = c at *
  have ha : 0 ≤ a ∧ a ≤ 3 := by omega
  have hb : 0 ≤ b ∧ b ≤ 24 := by omega
  have hc : 0 ≤ c ∧ c ≤ 3 := by omega
  have hleap := isLeap_of_cycles (Q := Q) ha hb hc rfl
  have hstart := yearStart_of_cycles (Q := Q) ha hb hc rfl
  generalize 400 * Q - 400000 + 100 * a + 4 * b + c = y at *
  have hflag : ((a == 0 || b != 0) && c == 0) = isLeap y := by
    rw [Bool.eq_iff_iff, hleap]
    simp
  rw [hflag]
  cases hy : isLeap y
  · rw [hy] at hleap
    have hnot : ¬((a = 0 ∨ b ≠ 0) ∧ c = 0) := mt hleap.mpr Bool.false_ne_true
    have hlen : daysBefore false 12 = 365 := rfl
    refine ⟨rfl, ?_, ?_, ?_⟩ <;> simp only [Bool.false_eq_true, if_false, hlen] <;> omega
  · rw [if_pos (hleap.mp hy)] at hstart
    have hlen : daysBefore true 12 = 366 := rfl
    refine ⟨rfl, ?_, ?_, ?_⟩ <;> simp only [if_true, hlen] <;> omega

/-! ## Months -/

/-- The tables of the source hold the days before each month. -/
theorem daysUntilMonth_eq (leap : Bool) {k : ℕ} (hk : k < 12) :
    (daysUntilMonth leap)[k]? = some (daysBefore leap k : ℤ) := by
  cases leap <;> interval_cases k <;> rfl

/-- **The search for the month**: the loop stops at the month that the day of the year lies in. -/
theorem findMonth_spec (leap : Bool) {days : ℤ} {m : ℕ} (hm : m ≤ 12) (hdays : 0 ≤ days)
    (hlt : days < daysBefore leap m) : ∃ k < m,
      findMonth (daysUntilMonth leap) days m = some (k + 1) ∧
      (daysBefore leap k : ℤ) ≤ days ∧ days < daysBefore leap (k + 1) := by
  induction m with
  | zero => exact absurd hlt (by simp [daysBefore]; omega)
  | succ m ih =>
    by_cases h : days < daysBefore leap m
    · obtain ⟨k, hk, heq, hbounds⟩ := ih (by omega) h
      refine ⟨k, by omega, ?_, hbounds⟩
      rw [findMonth, daysUntilMonth_eq leap (by omega)]
      exact (if_pos h).trans heq
    · refine ⟨m, by omega, ?_, not_lt.mp h, hlt⟩
      rw [findMonth, daysUntilMonth_eq leap (by omega)]
      exact if_neg h

/-! ## The fields of a moment -/

/-- The moments that a `DateTime` may have: at most 100 million days from the epoch. -/
def InRange (v : ℤ) : Prop := |v| ≤ 8640000000000000000

/-- The number of the day in which a moment lies. -/
def dayOf (v : ℤ) : ℤ := v / 86400000000

/-- **The fields that a moment should have**: the date and weekday of its day, and the time within
it. -/
structure Describes (v : ℤ) (f : Fields) : Prop where
  year_eq : f.year = (dateOfDay (dayOf v)).year
  month_eq : f.month = (dateOfDay (dayOf v)).month
  day_eq : f.day = (dateOfDay (dayOf v)).day
  weekday_eq : f.weekday = (weekdayOfDay (dayOf v)).number
  hour_mem : 0 ≤ f.hour ∧ f.hour < 24
  minute_mem : 0 ≤ f.minute ∧ f.minute < 60
  second_mem : 0 ≤ f.second ∧ f.second < 60
  millisecond_mem : 0 ≤ f.millisecond ∧ f.millisecond < 1000
  microsecond_mem : 0 ≤ f.microsecond ∧ f.microsecond < 1000
  time_eq : v = dayOf v * 86400000000 + f.hour * 3600000000 + f.minute * 60000000
    + f.second * 1000000 + f.millisecond * 1000 + f.microsecond

/-- The units of time, evaluated. -/
theorem constants_eq : microsecondsPerMillisecond = 1000 ∧ millisecondsPerSecond = 1000 ∧
    secondsPerMinute = 60 ∧ minutesPerHour = 60 ∧ hoursPerDay = 24 ∧
      microsecondsPerSecond = 1000000 ∧ microsecondsPerMinute = 60000000 ∧
        microsecondsPerHour = 3600000000 ∧ microsecondsPerDay = 86400000000 := by decide

/-- A moment in range is at most 100,000,000 days away from the epoch, in microseconds. -/
theorem InRange.bounds (hv : InRange v) : -8640000000000000000 ≤ v ∧ v ≤ 8640000000000000000 :=
  abs_le.mp hv

/-- For moments in range and units up to a day, no division wraps around. -/
theorem InRange.flooredDivision_eq (hv : InRange v) (hb : 0 < b) (hb' : b ≤ 86400000000) :
    flooredDivision v b = v / b := by
  have hbounds := hv.bounds
  refine DateTime.flooredDivision_eq hb ?_ ?_ <;> rw [isInt64_iff] <;> omega

/-- A remainder lies between zero and the divisor. -/
theorem emod_mem (hb : 0 < b) : 0 ≤ a % b ∧ a % b < b :=
  ⟨emod_nonneg a hb.ne', emod_lt_of_pos a hb⟩

/-- **A moment is its day and its time of day**, unit by unit. -/
theorem time_split (v : ℤ) : v = dayOf v * 86400000000 + v / 3600000000 % 24 * 3600000000
    + v / 60000000 % 60 * 60000000 + v / 1000000 % 60 * 1000000 + v / 1000 % 1000 * 1000
      + v % 1000 := by
  unfold dayOf
  omega

/-- **The computed fields are right**: for every moment in range `_computeUpperPart` succeeds, and
its fields describe the moment in the proleptic calendar. -/
theorem computeUpperPart_spec (hv : InRange v) :
    ∃ f, computeUpperPart v = some f ∧ Describes v f := by
  have hbounds := hv.bounds
  obtain ⟨hms, hs, hmin, hh, hd, hps, hpmin, hph, hpd⟩ := constants_eq
  unfold computeUpperPart
  rw [hms, hs, hmin, hh, hd, hps, hpmin, hph, hpd]
  simp only [hv.flooredDivision_eq (b := 1000) (by norm_num) (by norm_num),
    hv.flooredDivision_eq (b := 1000000) (by norm_num) (by norm_num),
    hv.flooredDivision_eq (b := 60000000) (by norm_num) (by norm_num),
    hv.flooredDivision_eq (b := 3600000000) (by norm_num) (by norm_num),
    hv.flooredDivision_eq (b := 86400000000) (by norm_num) (by norm_num)]
  have hday : v / 86400000000 = dayOf v := rfl
  rw [hday]
  have hrange : 0 ≤ dayOf v + daysOffset := by
    rw [show daysOffset = 146816528 by decide]
    omega
  obtain ⟨hleap, hstart, hnonneg, hlt⟩ := yearDay_spec hrange
  generalize yearDay (dayOf v) = yd at *
  obtain ⟨k, hk, hfind, hk1, hk2⟩ := findMonth_spec yd.isLeap le_rfl hnonneg hlt
  rw [hfind]
  simp only [Option.bind_eq_bind, Option.bind_some, Nat.add_sub_cancel, daysUntilMonth_eq _ hk]
  refine ⟨_, rfl, ?_⟩
  -- The date that has been found, as a date of the calendar.
  obtain ⟨d, hd⟩ : ∃ d : ℕ, yd.days - daysBefore yd.isLeap k = d :=
    ⟨(yd.days - daysBefore yd.isLeap k).toNat, (toNat_of_nonneg (by omega)).symm⟩
  have hmonth : daysBefore yd.isLeap (k + 1)
      = daysBefore yd.isLeap k + monthLength yd.isLeap (k + 1) := rfl
  have hvalid : (⟨yd.year, k + 1, d + 1⟩ : Date).IsValid :=
    ⟨Nat.succ_pos k, hk, Nat.succ_pos d, by rw [← hleap]; dsimp only; omega⟩
  have hnumber : (⟨yd.year, k + 1, d + 1⟩ : Date).dayNumber = dayOf v := by
    show yearStart yd.year + daysBefore (isLeap yd.year) k + d = dayOf v
    rw [← hleap]
    omega
  have hdate := hvalid.eq_dateOfDay
  rw [hnumber] at hdate
  refine ⟨by rw [← hdate], by rw [← hdate], ?_, ?_, emod_mem (by norm_num), emod_mem (by norm_num),
    emod_mem (by norm_num), emod_mem (by norm_num), emod_mem (by norm_num), time_split v⟩
  · rw [← hdate]
    dsimp only
    omega
  · rw [number_weekdayOfDay]
    rw [add_sub_assoc]
    rfl

/-! ## The moment of the fields -/

/-- `_isLeapYear` with its shortcut by 16 is the Gregorian rule. -/
theorem isLeapYear_eq (y : ℤ) : isLeapYear y = isLeap y := by
  rw [Bool.eq_iff_iff, isLeapYear, isLeap]
  simp only [Bool.and_eq_true, Bool.or_eq_true, decide_eq_true_eq, ne_eq]
  omega

/-- **The start of a year**, as long as no division wraps: the divisor 400 asks for the most. -/
theorem dayFromYear_eq {y : ℤ} (h : -2 ^ 63 + 2000 ≤ y) (h' : y < 2 ^ 63) :
    dayFromYear y = wrap64 (yearStart y) := by
  have hwrap : ∀ x : ℤ, -2 ^ 63 ≤ x → x < 2 ^ 63 → wrap64 x = x := fun x h1 h2 =>
    wrap64_of_isInt64 (isInt64_iff.mpr ⟨h1, h2⟩)
  have hdiv : ∀ x b : ℤ, -2 ^ 63 ≤ x - (b - 1) → x < 2 ^ 63 → 0 < b →
      flooredDivision x b = x / b := fun x b h1 h2 h3 =>
    flooredDivision_eq h3 (isInt64_iff.mpr ⟨h1, by omega⟩) (isInt64_iff.mpr ⟨by omega, h2⟩)
  unfold dayFromYear yearStart
  rw [hwrap (y - 1969) (by omega) (by omega), hwrap (y - 1901) (by omega) (by omega),
    hwrap (y - 1601) (by omega) (by omega), hdiv (y - 1969) 4 (by omega) (by omega) (by norm_num),
    hdiv (y - 1901) 100 (by omega) (by omega) (by norm_num),
    hdiv (y - 1601) 400 (by omega) (by omega) (by norm_num)]

/-- The years of moments in range are far from those for which the arithmetic wraps around. -/
theorem InRange.year_mem (hv : InRange v) : -300000 ≤ (dateOfDay (dayOf v)).year ∧
    (dateOfDay (dayOf v)).year ≤ 300000 := by
  have hbounds := hv.bounds
  obtain ⟨hvalid, hnumber⟩ := dateOfDay_spec (dayOf v)
  obtain ⟨h1, h2⟩ := hvalid.dayNumber_mem
  rw [hnumber] at h1 h2
  generalize (dateOfDay (dayOf v)).year = y at *
  unfold dayOf at h1 h2
  unfold yearStart at h1 h2
  omega

/-- **The fields give back the moment.** -/
theorem brokenDownDateToValue_spec (zone : TimeZone) {f : Fields} (hv : InRange v)
    (hf : Describes v f) : brokenDownDateToValue zone f.year f.month f.day f.hour f.minute f.second
      f.millisecond f.microsecond true = some (some v) := by
  have hbounds := hv.bounds
  obtain ⟨hvalid, hnumber⟩ := dateOfDay_spec (dayOf v)
  have hyear := hv.year_mem
  have hdate := hf.year_eq
  have hmonth := hf.month_eq
  have hday := hf.day_eq
  obtain ⟨k, hk⟩ := hvalid.exists_month
  have hmonthLe := hvalid.month_le
  have hdayPos := hvalid.day_pos
  have hwrapMonth : wrap64 (f.month - 1) = k :=
    (wrap64_of_isInt64 (isInt64_iff.mpr ⟨by omega, by omega⟩)).trans (by omega)
  -- No step wraps around or leaves its range, as the moment is in range.
  have hnormal : normalizeMonth f.year f.month = (f.year, (k : ℤ)) := by
    unfold normalizeMonth
    rw [hwrapMonth]
    rw [if_neg (by omega), if_neg (by omega)]
  have hdays : f.day - 1 + daysBefore (isLeap f.year) k + dayFromYear f.year = dayOf v := by
    rw [Date.dayNumber, hk, Nat.add_sub_cancel] at hnumber
    have hstart : IsInt64 (yearStart f.year) := by
      rw [isInt64_iff]
      unfold yearStart
      omega
    rw [dayFromYear_eq (by omega) (by omega), wrap64_of_isInt64 hstart, hdate]
    omega
  have htime := hf.time_eq
  obtain ⟨hms, -, -, -, -, hps, hpmin, hph, hpd⟩ := constants_eq
  have hvalue : wrap64 (dayOf v * microsecondsPerDay + f.hour * microsecondsPerHour
      + f.minute * microsecondsPerMinute + f.second * microsecondsPerSecond
        + f.millisecond * microsecondsPerMillisecond + f.microsecond) = v := by
    rw [hms, hps, hpmin, hph, hpd, ← htime]
    exact wrap64_of_isInt64 (isInt64_iff.mpr ⟨by omega, by omega⟩)
  have hle : |v| ≤ 8640000000000000000 := hv
  have hnonneg := abs_nonneg v
  have habs : wrap64 |v| = |v| := wrap64_of_isInt64 (isInt64_iff.mpr ⟨by omega, by omega⟩)
  have hzone : subtractZone zone true v = some v := rfl
  unfold brokenDownDateToValue
  rw [hnormal]
  simp only [isLeapYear_eq, toNat_natCast, daysUntilMonth_eq _ (show k < 12 by omega),
    Option.bind_eq_bind, Option.bind_some, hdays, hvalue, habs, hzone]
  rw [if_neg (by rw [show maxMillisecondsSinceEpoch = 8640000000000000 from rfl]; omega)]
  exact if_neg (by rw [hms, show maxMillisecondsSinceEpoch = 8640000000000000 from rfl]; omega)

end DartVm.DateTime
