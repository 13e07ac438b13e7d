import DartVm.DateTime.FieldSpecs

/-! # The constructor of a moment in UTC

`DateTime.utc` adds up its scaled arguments in 64 bits before it checks their range, and uses -1 for
a moment out of range.

* `moment`: what the arguments denote, as an integer.
* `YearFits`: no division by twelve and no year wraps.  The sum then is the moment modulo 2^64
  (`aliased_emod`).
* `utc_iff`: the constructor is exact unless the moment is -1 or is congruent to another one that
  passes the checks; years that wrap are apart. -/

namespace DartVm.DateTime

open Calendar Int

/-- The arguments of `DateTime.utc`. -/
structure Components where
  year : Int64
  month : Int64
  day : Int64
  hour : Int64
  minute : Int64
  second : Int64
  millisecond : Int64
  microsecond : Int64

/-- `DateTime._internal` with `isUtc`; the inner `none` is an `ArgumentError`. -/
def utc (zone : TimeZone) (c : Components) : Option (Option ℤ) := do
  let value := (← brokenDownDateToValue zone c.year.toInt c.month.toInt c.day.toInt c.hour.toInt
    c.minute.toInt c.second.toInt c.millisecond.toInt c.microsecond.toInt true).getD (-1)
  return if value = -1 then none else some value

variable {zone : TimeZone} {c : Components} {v m n : ℤ}

namespace Components

/-- The microseconds of the arguments, from the start of their year and a zero-based month. -/
def total (c : Components) (leap : Bool) (month start : ℤ) : ℤ :=
  (c.day.toInt - 1 + daysBefore leap month.toNat + start) * microsecondsPerDay
    + c.hour.toInt * microsecondsPerHour + c.minute.toInt * microsecondsPerMinute
    + c.second.toInt * microsecondsPerSecond + c.millisecond.toInt * microsecondsPerMillisecond
    + c.microsecond.toInt

/-- **The moment that the arguments denote**, with months carried over into years. -/
def moment (c : Components) : ℤ :=
  let year := c.year.toInt + (c.month.toInt - 1) / 12
  c.total (isLeap year) ((c.month.toInt - 1) % 12) (yearStart year)

/-- **No year wraps**: neither `--month`, nor the year that months are carried over into, nor the
dividend `year - 1601 - 399` of `_dayFromYear`. -/
def YearFits (c : Components) : Prop :=
  -2 ^ 63 + 8 < c.month.toInt ∧ -2 ^ 63 + 2000 ≤ c.year.toInt + (c.month.toInt - 1) / 12 ∧
    c.year.toInt + (c.month.toInt - 1) / 12 < 2 ^ 63

/-- The sum in the source, for the year and month that are left after 64-bit normalization. -/
def aliased (c : Components) : ℤ :=
  let (year, month) := normalizeMonth c.year.toInt c.month.toInt
  c.total (isLeap year) month (dayFromYear year)

end Components

/-- The number is congruent modulo 2^64 to a value that passes the checks: a moment in range other
than -1, or -2^63, whose absolute value is negative. -/
def Collides (m : ℤ) : Prop :=
  ∃ v, (InRange v ∧ v ≠ -1 ∨ v = -2 ^ 63) ∧ v % 2 ^ 64 = m % 2 ^ 64

open Components

/-- The month that is left after full years lies in one year. -/
theorem normalizeMonth_mem (year month : ℤ) :
    0 ≤ (normalizeMonth year month).2 ∧ (normalizeMonth year month).2 < 12 := by
  simp only [normalizeMonth]
  split_ifs <;> dsimp only <;> omega

/-- **`DateTime.utc` in closed form**: the sum of its components wraps around, and a sum out of
range or equal to -1 is refused. -/
theorem utc_eq (zone : TimeZone) (c : Components) :
    utc zone c = some (if 8640000000000000000 < wrap64 |wrap64 c.aliased| ∨ wrap64 c.aliased = -1
      then none else some (wrap64 c.aliased)) := by
  have hmonth := normalizeMonth_mem c.year.toInt c.month.toInt
  unfold utc brokenDownDateToValue aliased total
  generalize normalizeMonth c.year.toInt c.month.toInt = n at hmonth ⊢
  obtain ⟨year, month⟩ := n
  dsimp only at hmonth
  simp only [isLeapYear_eq, daysUntilMonth_eq _ (show month.toNat < 12 by omega),
    Option.bind_eq_bind, Option.bind_some]
  generalize wrap64 (_ + c.microsecond.toInt) = v
  have hzone : subtractZone zone true v = some v := rfl
  have hday : maxMillisecondsSinceEpoch * 1000 + microsecondsPerDay =
    8640000086400000000 := by decide
  have hmax : maxMillisecondsSinceEpoch * microsecondsPerMillisecond = 8640000000000000000 := by
    decide
  rw [hzone, hday, hmax]
  by_cases hlarge : 8640000000000000000 < wrap64 |v|
  · simp only [Option.bind_some, hlarge, if_true, true_or]
    split_ifs <;> rfl
  · rw [if_neg (by omega)]
    simp only [Option.bind_some, hlarge, if_false, false_or]
    rfl

/-- A 64-bit value is what a sum wraps around to exactly if they agree modulo 2^64. -/
theorem eq_wrap64_iff {s : ℤ} (hv : IsInt64 v) : v = wrap64 s ↔ v % 2 ^ 64 = s % 2 ^ 64 := by
  have hmod := wrap64_emod s
  have hs := isInt64_iff.mp (isInt64_wrap64 s)
  rw [isInt64_iff] at hv
  constructor
  · rintro rfl
    exact hmod
  · omega

/-- A moment in range is a 64-bit integer. -/
theorem InRange.isInt64 (hv : InRange v) : IsInt64 v := by
  have := hv.bounds
  exact isInt64_iff.mpr ⟨by omega, by omega⟩

/-- The values that pass the checks. -/
theorem passes_iff (hv : IsInt64 v) : InRange v ∧ v ≠ -1 ∨ v = -2 ^ 63 ↔
    ¬(8640000000000000000 < wrap64 |v| ∨ v = -1) := by
  rcases eq_or_ne v (-2 ^ 63) with rfl | hne
  · exact iff_of_true (.inr rfl) (by decide)
  · have hnonneg := abs_nonneg v
    have hbounds := isInt64_iff.mp hv
    have habs : |v| < 2 ^ 63 := abs_lt.mpr ⟨by omega, hbounds.2⟩
    rw [wrap64_of_isInt64 (isInt64_iff.mpr ⟨by omega, habs⟩), InRange]
    omega

/-- When `DateTime.utc` refuses its components. -/
theorem utc_eq_none_iff : utc zone c = some none ↔ ¬Collides c.aliased := by
  have hiff := passes_iff (isInt64_wrap64 c.aliased)
  rw [utc_eq, Option.some_inj, ite_eq_left_iff, ← hiff]
  simp only [reduceCtorEq, imp_false]
  refine not_congr ⟨fun h => ⟨_, h, wrap64_emod _⟩, ?_⟩
  rintro ⟨v, hv, hmod⟩
  have hint : IsInt64 v := hv.elim (fun h => h.1.isInt64) (fun h => h ▸ by decide)
  rwa [← (eq_wrap64_iff hint).mpr hmod]

/-- When `DateTime.utc` returns the moment `v`. -/
theorem utc_eq_some_iff (hv : InRange v) :
    utc zone c = some (some v) ↔ v ≠ -1 ∧ v % 2 ^ 64 = c.aliased % 2 ^ 64 := by
  have hiff := passes_iff hv.isInt64
  rw [utc_eq, Option.some_inj, ← eq_wrap64_iff hv.isInt64]
  constructor
  · intro h
    split_ifs at h with hcheck
    obtain rfl := Option.some.inj h
    exact ⟨fun h => hcheck (.inr h), rfl⟩
  · rintro ⟨hne, rfl⟩
    exact if_neg (hiff.mp (.inl ⟨hv, hne⟩))

/-! ## Moments in range -/

/-- The moments for two normalisations of the month differ by whole days. -/
theorem total_sub (l l' : Bool) (s s' : ℤ) : c.total l m s - c.total l' n s' =
    (daysBefore l m.toNat - daysBefore l' n.toNat + s - s') * 86400000000 := by
  obtain ⟨-, -, -, -, -, -, -, -, hday⟩ := constants_eq
  unfold total
  rw [hday]
  ring

/-- At most a year precedes a month. -/
theorem daysBefore_le (l : Bool) (h : m < 12) : daysBefore l m.toNat ≤ 366 :=
  (daysBefore_mono (n := 12) (by omega)).trans (by cases l <;> decide)

/-- No other argument makes up for a year that is far away. -/
theorem year_mem (h : InRange c.moment) :
    -30000000000000000 ≤ c.year.toInt + (c.month.toInt - 1) / 12 ∧
      c.year.toInt + (c.month.toInt - 1) / 12 ≤ 30000000000000000 := by
  obtain ⟨hlo, hhi⟩ := h.bounds
  have hbefore := daysBefore_le (isLeap (c.year.toInt + (c.month.toInt - 1) / 12))
    (emod_lt_of_pos (c.month.toInt - 1) (by norm_num : (0 : ℤ) < 12))
  have hint := fun x : Int64 => isInt64_iff.mp (isInt64_of_int64 x)
  have h1 := hint c.day
  have h2 := hint c.hour
  have h3 := hint c.minute
  have h4 := hint c.second
  have h5 := hint c.millisecond
  have h6 := hint c.microsecond
  obtain ⟨hms, -, -, -, -, hps, hpmin, hph, hpd⟩ := constants_eq
  unfold moment total at hlo hhi
  rw [hms, hps, hpmin, hph, hpd] at hlo hhi
  dsimp only at hlo hhi
  generalize c.year.toInt + (c.month.toInt - 1) / 12 = y at *
  unfold yearStart at hlo hhi
  omega

/-- **The normalized year and month** are those of the integers, if the year fits. -/
theorem normalizeMonth_eq (h : c.YearFits) : normalizeMonth c.year.toInt c.month.toInt =
    (c.year.toInt + (c.month.toInt - 1) / 12, (c.month.toInt - 1) % 12) := by
  obtain ⟨hlt, hlo, hhi⟩ := h
  have hmonth := isInt64_iff.mp (isInt64_of_int64 c.month)
  generalize c.year.toInt = year at *
  generalize c.month.toInt = month at *
  simp only [normalizeMonth]
  have hpred : wrap64 (month - 1) = month - 1 :=
    wrap64_of_isInt64 (isInt64_iff.mpr ⟨by omega, by omega⟩)
  have hfloor : wrap64 (month - 1 - (month - 1) % 12) = (month - 1) / 12 * 12 := by
    rw [wrap64_of_isInt64 (isInt64_iff.mpr ⟨by omega, by omega⟩)]
    omega
  have hyear : wrap64 (year + (month - 1) / 12) = year + (month - 1) / 12 :=
    wrap64_of_isInt64 (isInt64_iff.mpr ⟨by omega, hhi⟩)
  rw [hpred, hfloor, mul_tdiv_cancel _ (by norm_num), hyear]
  split_ifs with h12 hneg
  · rw [tdiv_eq_ediv_of_nonneg (by omega), hyear]
  · rfl
  · rw [ediv_eq_zero_of_lt (by omega) (by omega), emod_eq_of_lt (by omega) (by omega), add_zero]

/-- **A month whose division wraps** moves the year of a moment in range by more than 2^60. -/
theorem normalizeMonth_low (h : InRange c.moment) (hle : c.month.toInt ≤ -2 ^ 63 + 8) :
    (normalizeMonth c.year.toInt c.month.toInt).1 =
      c.year.toInt + (c.month.toInt - 1) / 12 + 1537228672809129301 := by
  obtain ⟨hlo, hhi⟩ := year_mem h
  have hmonth := isInt64_iff.mp (isInt64_of_int64 c.month)
  generalize c.year.toInt = year at *
  generalize c.month.toInt = month at *
  simp only [normalizeMonth]
  have hyear : wrap64 (year + 768614336404564650) =
      year + (month - 1) / 12 + 1537228672809129301 := by
    rw [wrap64_of_isInt64 (isInt64_iff.mpr ⟨by omega, by omega⟩)]
    omega
  rcases eq_or_ne month (-2 ^ 63) with rfl | hne
  · rw [show wrap64 (-2 ^ 63 - 1) = 2 ^ 63 - 1 by decide, if_pos (by norm_num)]
    exact hyear
  · have hpred : wrap64 (month - 1) = month - 1 :=
      wrap64_of_isInt64 (isInt64_iff.mpr ⟨by omega, by omega⟩)
    have hfloor : month - 1 - (month - 1) % 12 = -2 ^ 63 - 4 := by omega
    rw [hpred, hfloor, if_neg (by omega), if_pos (by omega)]
    exact hyear

/-- **The sum is the moment modulo 2^64**, if the year fits. -/
theorem aliased_emod (h : c.YearFits) : c.aliased % 2 ^ 64 = c.moment % 2 ^ 64 := by
  unfold moment aliased
  rw [normalizeMonth_eq h]
  dsimp only
  rw [dayFromYear_eq h.2.1 h.2.2]
  generalize c.year.toInt + (c.month.toInt - 1) / 12 = y
  have hsub := total_sub (c := c) (m := (c.month.toInt - 1) % 12) (n := (c.month.toInt - 1) % 12)
    (isLeap y) (isLeap y) (wrap64 (yearStart y)) (yearStart y)
  have hday := wrap64_emod (yearStart y)
  omega

/-- **The sum is not the moment** when that is in range and the division of the month wraps. -/
theorem aliased_emod_ne (h : InRange c.moment) (hfits : ¬c.YearFits) :
    c.moment % 2 ^ 64 ≠ c.aliased % 2 ^ 64 := by
  obtain ⟨hlo, hhi⟩ := year_mem h
  have hle : c.month.toInt ≤ -2 ^ 63 + 8 :=
    not_lt.mp fun hlt => hfits ⟨hlt, by omega, by omega⟩
  have hmonth := normalizeMonth_mem c.year.toInt c.month.toInt
  have hlow := normalizeMonth_low h hle
  unfold moment aliased
  generalize normalizeMonth c.year.toInt c.month.toInt = n at *
  obtain ⟨year, month⟩ := n
  dsimp only at hmonth hlow ⊢
  generalize c.year.toInt + (c.month.toInt - 1) / 12 = y at *
  subst hlow
  have hsub := total_sub (c := c) (m := month) (n := (c.month.toInt - 1) % 12)
    (isLeap (y + 1537228672809129301)) (isLeap y) (wrap64 (yearStart (y + 1537228672809129301)))
    (yearStart y)
  have hday := wrap64_emod (yearStart (y + 1537228672809129301))
  have h1 := daysBefore_le (isLeap (y + 1537228672809129301)) hmonth.2
  have h2 := daysBefore_le (isLeap y)
    (emod_lt_of_pos (c.month.toInt - 1) (by norm_num : (0 : ℤ) < 12))
  rw [dayFromYear_eq (by omega) (by omega)]
  -- The distance in days is no multiple of 2^51.
  have hyears : 561461243528488408710 < yearStart (y + 1537228672809129301) - yearStart y ∧
      yearStart (y + 1537228672809129301) - yearStart y < 561461243528488408730 := by
    unfold yearStart
    omega
  omega

/-- **`DateTime.utc` is exact** but for the moment -1 and for moments out of range that are
congruent modulo 2^64 to one that passes the checks.  A year that wraps is never right for a moment
in range, and for others the sum of what is left must not pass the checks. -/
theorem utc_iff (zone : TimeZone) (c : Components) :
    (InRange c.moment → utc zone c = some (some c.moment)) ∧
        (¬InRange c.moment → utc zone c = some none) ↔
      (c.YearFits → c.moment ≠ -1 ∧ (¬InRange c.moment → ¬Collides c.moment)) ∧
        (¬c.YearFits → ¬InRange c.moment ∧ ¬Collides c.aliased) := by
  rw [utc_eq_none_iff]
  have hne : ¬InRange c.moment → c.moment ≠ -1 := fun h heq => h (by rw [heq, InRange]; decide)
  by_cases hfits : c.YearFits
  · have hcollides : Collides c.aliased ↔ Collides c.moment := by
      rw [Collides, Collides, aliased_emod hfits]
    by_cases h : InRange c.moment
    · rw [utc_eq_some_iff h, aliased_emod hfits]
      simp [h, hfits]
    · simp [h, hfits, hcollides, hne h]
  · by_cases h : InRange c.moment
    · have hwrong := aliased_emod_ne h hfits
      rw [utc_eq_some_iff h]
      tauto
    · simp [h, hfits]

/-- The last microsecond before the epoch. -/
def lastBeforeEpoch : Components := ⟨1969, 12, 31, 23, 59, 59, 999, 999⟩

/-- **The moment -1 is taken for a failure.** -/
theorem utc_lastBeforeEpoch : InRange lastBeforeEpoch.moment ∧
    utc ⟨fun _ => 0, 0⟩ lastBeforeEpoch = some none := by
  unfold InRange
  decide

end DartVm.DateTime
