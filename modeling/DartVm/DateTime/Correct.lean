import DartVm.DateTime.TextSpecs

/-! # Dates are read back as they were printed

* `parse_format`: a printed date is read back.
* `dateTime_correct`: the fields, the moment and the text of every date in range. -/

namespace DartVm.DateTime

open Backtracking Calendar

variable {v y : ℤ} {f : Fields} {b : Bool} {zone : TimeZone}

/-- The milliseconds of a moment in range, and its microseconds at the ends of the range. -/
theorem InRange.tdiv_mem (hv : InRange v) : |v.tdiv 1000| ≤ 8640000000000000 ∧
    (|v.tdiv 1000| = 8640000000000000 → v % 1000 = 0) := by
  obtain ⟨hlo, hhi⟩ := hv.bounds
  rcases le_or_gt 0 v with hpos | hneg
  · rw [Int.tdiv_eq_ediv_of_nonneg hpos, abs_of_nonneg (Int.ediv_nonneg hpos (by norm_num))]
    omega
  · have hpos : 0 ≤ -v := by omega
    rw [← neg_neg v, Int.neg_tdiv, Int.tdiv_eq_ediv_of_nonneg hpos, abs_neg,
      abs_of_nonneg (Int.ediv_nonneg hpos (by norm_num))]
    omega

/-- A UTC `DateTime` of a moment in range holds exactly that moment. -/
theorem withValue_eq (hv : InRange v) : withValue zone v true = some ⟨v, true⟩ := by
  obtain ⟨f, hf, hdescribes⟩ := computeUpperPart_spec hv
  obtain ⟨hle, hzero⟩ := hv.tdiv_mem
  have hmicro : f.microsecond = v % 1000 := by
    have htime := hdescribes.time_eq
    have hmem := hdescribes.microsecond_mem
    omega
  have hparts : parts zone ⟨v, true⟩ = some f := hf
  unfold withValue
  rw [show microsecondsPerMillisecond = 1000 from rfl,
    show maxMillisecondsSinceEpoch = 8640000000000000 from rfl]
  rw [if_neg (not_lt.mpr hle)]
  split_ifs with heq
  · rw [hparts]
    exact if_neg (not_not.mpr (hmicro.trans (hzero heq)))
  · rfl

/-- The digits after the dot: milliseconds, and microseconds if there are any. -/
theorem fraction_spec (ms us : ℕ) (hms : ms < 1000) (hus : us < 1000) : ∃ fraction fn,
    threeDigits ms ++ (if (us : ℤ) = 0 then [] else threeDigits us) = fraction ∧
      IsNumeral fn fraction ∧ fraction ≠ [] ∧
        parseMilliAndMicroseconds (some fraction) = some ((ms * 1000 + us : ℕ) : ℤ) := by
  obtain ⟨hnum, hlen⟩ := threeDigits_spec hms
  obtain ⟨hnum', hlen'⟩ := threeDigits_spec hus
  have hparse : ∀ {fraction : Text} {fn : ℕ}, IsNumeral fn fraction → 1 ≤ fraction.length →
      fraction.length ≤ 6 → fn * 10 ^ (6 - fraction.length) = ms * 1000 + us →
        parseMilliAndMicroseconds (some fraction) = some ((ms * 1000 + us : ℕ) : ℤ) := by
    intro fraction fn hn h1 h6 hvalue
    have hdigits := hn.parse_eq 0
    rw [Nat.zero_mul, Nat.zero_add] at hdigits
    have hfraction := parseFraction_eq hdigits h6
    rw [hvalue] at hfraction
    show (do guard (1 ≤ fraction.length); return ((parseFraction fraction 6 0 : ℕ) : ℤ)) = _
    rw [hfraction, show (guard (1 ≤ fraction.length) : Option Unit) = some () from if_pos h1]
    rfl
  by_cases hzero : us = 0
  · subst hzero
    refine ⟨threeDigits ms, ms, List.append_nil _, hnum, ?_, hparse hnum (by omega) (by omega) ?_⟩
    · exact List.ne_nil_of_length_pos (by omega)
    · rw [hlen]
      norm_num
  · rw [if_neg (by omega)]
    have happ := hnum.append hnum'
    have hlenapp : (threeDigits (ms : ℤ) ++ threeDigits (us : ℤ)).length = 6 := by
      rw [List.length_append, hlen, hlen']
    refine ⟨_, _, rfl, happ, List.ne_nil_of_length_pos (by omega),
      hparse happ (by omega) (by omega) ?_⟩
    rw [hlenapp, hlen']
    norm_num

/-- **From groups to a moment.** When the format matches, with a time and the mark `Z`, and the
groups are numerals, `parse` returns what `brokenDownDateToValue` makes of them. -/
theorem parse_of_groups {input : Text} {g : Groups Char} {t₁ t₂ t₃ t₄ t₅ t₆ t₇ t₈ : Text}
    {month day hour minute second ms us : ℤ} (hmatch : firstMatch parseFormat input = some g)
    (h1 : g 1 = some t₁) (h2 : g 2 = some t₂) (h3 : g 3 = some t₃) (h4 : g 4 = some t₄)
    (h5 : g 5 = some t₅) (h6 : g 6 = some t₆) (h7 : g 7 = some t₇) (h8 : g 8 = some t₈)
    (h9 : g 9 = none) (hyear : parseInt b t₁ = some y) (hmonth : parseInt b t₂ = some month)
    (hday : parseInt b t₃ = some day) (hhour : parseInt b t₄ = some hour)
    (hminute : parseInt b t₅ = some minute) (hsecond : parseInt b t₆ = some second)
    (hfraction : parseMilliAndMicroseconds (some t₇) = some (ms * 1000 + us)) (hms : 0 ≤ ms)
    (hus : 0 ≤ us) (hus' : us < 1000) :
    parse b zone input = (brokenDownDateToValue zone y month day hour minute second ms us true).bind
      fun value => value.bind fun value => withValue zone value true := by
  have hdiv : (ms * 1000 + us).tdiv 1000 = ms := by
    rw [Int.tdiv_eq_ediv_of_nonneg (by omega)]
    omega
  have hmod : (ms * 1000 + us).tmod 1000 = us := by
    rw [Int.tmod_eq_emod_of_nonneg (by omega)]
    omega
  have hoffset : subtractOffset b g minute = some minute := by rw [subtractOffset, h9]
  have hstep : ∀ {α β : Type} {x : Option α} {a : α} {k : α → Option β}, x = some a →
      (x >>= k) = k a := by
    rintro α β _ a k rfl
    rfl
  unfold parse
  rw [hstep hmatch, hstep h1, hstep hyear, hstep h2, hstep hmonth, hstep h3, hstep hday, h4,
    hstep (show parseIntOrZero b (some t₄) = some hour from hhour), h5,
    hstep (show parseIntOrZero b (some t₅) = some minute from hminute), h6,
    hstep (show parseIntOrZero b (some t₆) = some second from hsecond), h7, hstep hfraction, h8,
    show microsecondsPerMillisecond = 1000 from rfl, hdiv, hmod]
  exact hstep hoffset

/-- **A printed date is read back.** -/
theorem parse_format {text sign ds : Text} {n : ℕ} {between : Char} (hv : InRange v)
    (hf : Describes v f) (hyear : IsYear f.year text sign ds n)
    (hbetween : [' ', 'T'].contains between = true) :
    parse b zone (format text between f true) = some ⟨v, true⟩ := by
  have hvalue := brokenDownDateToValue_spec zone hv hf
  have hvalid := (dateOfDay_spec (dayOf v)).1
  have hmonth := hf.month_eq
  have hday := hf.day_eq
  have hmonthLe := hvalid.month_le
  have hdayLe := hvalid.day_le.trans monthLength_mem.2
  have hh := hf.hour_mem
  have hmin := hf.minute_mem
  have hs := hf.second_mem
  have hms := hf.millisecond_mem
  have hus := hf.microsecond_mem
  -- The fields are natural numbers, and their numerals have two digits.
  obtain ⟨mn, hmn⟩ := Int.eq_ofNat_of_zero_le (show 0 ≤ f.month by omega)
  obtain ⟨dn, hdn⟩ := Int.eq_ofNat_of_zero_le (show 0 ≤ f.day by omega)
  obtain ⟨hn, hhn⟩ := Int.eq_ofNat_of_zero_le hh.1
  obtain ⟨minn, hminn⟩ := Int.eq_ofNat_of_zero_le hmin.1
  obtain ⟨sn, hsn⟩ := Int.eq_ofNat_of_zero_le hs.1
  obtain ⟨msn, hmsn⟩ := Int.eq_ofNat_of_zero_le hms.1
  obtain ⟨usn, husn⟩ := Int.eq_ofNat_of_zero_le hus.1
  obtain ⟨hmon, hmonlen⟩ := twoDigits_spec (n := mn) (by omega)
  obtain ⟨hd, hdlen⟩ := twoDigits_spec (n := dn) (by omega)
  obtain ⟨hhour, hhourlen⟩ := twoDigits_spec (n := hn) (by omega)
  obtain ⟨hminute, hminutelen⟩ := twoDigits_spec (n := minn) (by omega)
  obtain ⟨hsecond, hsecondlen⟩ := twoDigits_spec (n := sn) (by omega)
  obtain ⟨fraction, fn, hfraction, hfnum, hfne, hfparse⟩ :=
    fraction_spec msn usn (by omega) (by omega)
  have hmatch := firstMatch_format hyear hmon hmonlen hd hdlen hhour hhourlen hminute hminutelen
    hsecond hsecondlen hfnum hfne hbetween
  -- The text, bracketed as the groups of the expression are.
  have hformat : format text between f true
      = (text ++ (['-'] ++ (twoDigits mn ++ (['-'] ++ twoDigits dn)))) ++ ([between] ++
        (twoDigits hn ++ ([':'] ++ (twoDigits minn ++ ([':'] ++ (twoDigits sn ++
          (['.'] ++ fraction)))) ++ ['Z']))) := by
    unfold format
    rw [hmn, hdn, hhn, hminn, hsn, hmsn, husn, ← hfraction]
    simp
  have hread : ∀ {m : ℕ} {es : Text}, IsNumeral m es → es.length = 2 →
    parseInt b es = some (m : ℤ) :=
    fun hm hlen => parseInt_of_numeral hm (List.ne_nil_of_length_pos (by omega)) (by omega)
  rw [Nat.cast_add, Nat.cast_mul, Nat.cast_ofNat] at hfparse
  rw [hformat, parse_of_groups hmatch rfl rfl rfl rfl rfl rfl rfl rfl rfl hyear.parseInt_eq
    (hread hmon hmonlen) (hread hd hdlen) (hread hhour hhourlen) (hread hminute hminutelen)
    (hread hsecond hsecondlen) hfparse (by omega) (by omega) (by omega)]
  rw [hmn, hdn, hhn, hminn, hsn, hmsn, husn] at hvalue
  rw [hvalue]
  exact withValue_eq hv

/-- **Dates and moments.** For every moment in range the fields are the Gregorian date, the ISO
weekday and the time of day; they give the moment back, and so does parsing either of its texts. -/
theorem dateTime_correct (has63BitSmis : Bool) (zone : TimeZone) (v : ℤ)
    (hv : |v| ≤ 8640000000000000000) :
    ∃ f, computeUpperPart v = some f ∧ Describes v f ∧
      brokenDownDateToValue zone f.year f.month f.day f.hour f.minute f.second f.millisecond
        f.microsecond true = some (some v) ∧
      (∃ s, toIso8601String zone ⟨v, true⟩ = some s ∧ parse has63BitSmis zone s = some ⟨v, true⟩) ∧
      ∃ s, toString zone ⟨v, true⟩ = some s ∧ parse has63BitSmis zone s = some ⟨v, true⟩ := by
  have hrange : InRange v := hv
  obtain ⟨f, hf, hdescribes⟩ := computeUpperPart_spec hrange
  have hparts : parts zone ⟨v, true⟩ = some f := hf
  have hyear : |f.year| < 1000000 := by
    have hmem := hrange.year_mem
    rw [← hdescribes.year_eq] at hmem
    rw [abs_lt]
    omega
  obtain ⟨sign, ds, n, hfour⟩ := fourDigits_spec hyear
  refine ⟨f, hf, hdescribes, brokenDownDateToValue_spec zone hrange hdescribes, ?_, ?_⟩
  · obtain ⟨text, sign', ds', n', htext, hiso⟩ :
        ∃ text sign ds n, isoYear f.year = some text ∧ IsYear f.year text sign ds n := by
      by_cases hsmall : -9999 ≤ f.year ∧ f.year ≤ 9999
      · exact ⟨_, sign, ds, n, if_pos hsmall, hfour⟩
      · obtain ⟨text, sign', ds', n', htext, hsix⟩ := sixDigits_spec hyear (by omega)
        exact ⟨text, sign', ds', n', (if_neg hsmall).trans htext, hsix⟩
    refine ⟨format text 'T' f true, ?_, parse_format hrange hdescribes hiso rfl⟩
    rw [toIso8601String, hparts, Option.bind_eq_bind, Option.bind_some, htext]
    rfl
  · refine ⟨format (fourDigits f.year) ' ' f true, ?_, parse_format hrange hdescribes hfour rfl⟩
    rw [toString, hparts]
    rfl

/-- The last microsecond of 29 February 1968, before the epoch. -/
theorem dateTime_correct_leapDay :
    ∃ f, computeUpperPart (-57974400000001) = some f ∧ Describes (-57974400000001) f ∧
      f.year = 1968 ∧ f.month = 2 ∧ f.day = 29 ∧
      ∃ s, toIso8601String ⟨fun _ => 0, 0⟩ ⟨-57974400000001, true⟩ = some s ∧
        parse true ⟨fun _ => 0, 0⟩ s = some ⟨-57974400000001, true⟩ := by
  obtain ⟨f, hf, hdescribes, -, hiso, -⟩ :=
    dateTime_correct true ⟨fun _ => 0, 0⟩ (-57974400000001) (by norm_num)
  cases hf
  exact ⟨_, rfl, hdescribes, rfl, rfl, rfl, hiso⟩

end DartVm.DateTime
