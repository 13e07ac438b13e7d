import DartVm.DateTime.Text
import DartVm.DateTime.FieldSpecs

/-! # Printed fields are read back

* `IsNumeral`, `IsYear`: the parts of a printed date.
* `firstMatch_format`: the groups of a printed date. -/

namespace DartVm.DateTime

open Backtracking List Nat

variable {n m k acc : ℕ} {ds es : Text} {c : Char} {b : Bool} {y : ℤ}

/-! ## Numerals -/

/-- **A numeral**: digits that are read as `n`, after the digits of any number. -/
structure IsNumeral (n : ℕ) (ds : Text) : Prop where
  isDigit : ∀ c ∈ ds, isDigit c = true
  parse_eq : ∀ acc, parseDigits ds acc = some (acc * 10 ^ ds.length + n)

/-- The digits that are printed are digits with the right values. -/
theorem digitChar_spec : ∀ d < 10, isDigit (digitChar d) = true ∧ digitValue (digitChar d) = d := by
  decide

/-- Reading digits goes on where it stopped. -/
theorem parseDigits_append : parseDigits (ds ++ es) acc
    = (parseDigits ds acc).bind fun r => parseDigits es r := by
  induction ds generalizing acc with
  | nil => rfl
  | cons c ds ih =>
    rw [cons_append, parseDigits, parseDigits]
    split_ifs
    · rfl
    · exact ih

/-- Numerals side by side make a numeral: the left one is shifted. -/
theorem IsNumeral.append (h : IsNumeral n ds) (h' : IsNumeral m es) :
    IsNumeral (n * 10 ^ es.length + m) (ds ++ es) := by
  refine ⟨fun c hc => ?_, fun acc => ?_⟩
  · rcases mem_append.mp hc with hc | hc
    · exact h.isDigit c hc
    · exact h'.isDigit c hc
  · rw [parseDigits_append, h.parse_eq, Option.bind_some, h'.parse_eq, length_append]
    congr 1
    ring

/-- One digit is a numeral. -/
theorem isNumeral_digit (h : n < 10) : IsNumeral n [digitChar n] := by
  obtain ⟨hdigit, hvalue⟩ := digitChar_spec n h
  refine ⟨fun c hc => by rwa [mem_singleton.mp hc], fun acc => ?_⟩
  rw [parseDigits, hvalue, if_neg (by omega), parseDigits, length_singleton, pow_one, mul_comm]

/-- A leading zero does not change the number. -/
theorem IsNumeral.zero_cons (h : IsNumeral n ds) : IsNumeral n ('0' :: ds) := by
  have hzero := (isNumeral_digit (n := 0) (by norm_num)).append h
  rwa [zero_mul, zero_add] at hzero

/-- The decimal digits of a number are a numeral for it. -/
theorem isNumeral_toDigits (n : ℕ) : IsNumeral n (toDigits 10 n) := by
  induction n using Nat.strong_induction_on with
  | _ n ih =>
    rw [toDigits_eq_if (by norm_num)]
    split_ifs with h
    · exact isNumeral_digit h
    · have happ := (ih (n / 10) (by omega)).append (isNumeral_digit (mod_lt n (by norm_num)))
      rwa [length_singleton, pow_one, div_add_mod'] at happ

theorem length_toDigits (h : n < 10 ^ (k + 1)) (h' : k ≠ 0 → 10 ^ k ≤ n) :
    (toDigits 10 n).length = k + 1 := by
  induction k generalizing n with
  | zero =>
    rw [toDigits_eq_if (by norm_num), if_pos (by omega)]
    rfl
  | succ k ih =>
    rw [toDigits_eq_if (by norm_num), if_neg (by omega), length_append,
      ih (n := n / 10) ?_ ?_, length_singleton]
    · omega
    · omega

/-- A natural number is printed without a sign. -/
theorem decimal_natCast (n : ℕ) : decimal n = toDigits 10 n := by
  rw [decimal, if_neg (by omega), Int.natAbs_natCast]

/-- A decimal after zeros. -/
theorem padded_spec (z k : ℕ) (h : n < 10 ^ (k + 1)) (h' : k ≠ 0 → 10 ^ k ≤ n) :
    IsNumeral n (replicate z '0' ++ toDigits 10 n) ∧
      (replicate z '0' ++ toDigits 10 n).length = z + (k + 1) := by
  induction z with
  | zero => exact ⟨isNumeral_toDigits n, by simp [length_toDigits h h']⟩
  | succ z ih => exact ⟨ih.1.zero_cons, by simp [length_toDigits h h']⟩

/-- `_twoDigits` prints every number below 100 with two digits. -/
theorem twoDigits_spec (h : n < 100) : IsNumeral n (twoDigits n) ∧ (twoDigits n).length = 2 := by
  unfold twoDigits
  split_ifs with hten
  · exact padded_spec 0 1 h (by omega)
  · exact padded_spec 1 0 (by omega) (by omega)

/-- `_threeDigits` prints every number below 1000 with three digits. -/
theorem threeDigits_spec (h : n < 1000) :
    IsNumeral n (threeDigits n) ∧ (threeDigits n).length = 3 := by
  unfold threeDigits
  split_ifs with hhundred hten
  · exact padded_spec 0 2 h (by omega)
  · exact padded_spec 1 1 (by omega) (by omega)
  · exact padded_spec 2 0 (by omega) (by omega)

/-! ## Years -/

/-- **A printed year**: four to six digits with an optional sign. -/
structure IsYear (y : ℤ) (text sign ds : Text) (n : ℕ) : Prop where
  text_eq : text = sign ++ ds
  numeral : IsNumeral n ds
  four_le : 4 ≤ ds.length
  le_six : ds.length ≤ 6
  sign_eq : (sign = [] ∨ sign = ['+']) ∧ y = n ∨ sign = ['-'] ∧ y = -n

/-- A sign, zeros and the digits of a year, four to six digits in all, are the text of that year. -/
theorem isYear_padded {sign : Text} (z k : ℕ)
    (hy : (sign = [] ∨ sign = ['+']) ∧ y = y.natAbs ∨ sign = ['-'] ∧ y = -(y.natAbs : ℤ))
    (hlen : 4 ≤ z + (k + 1) ∧ z + (k + 1) ≤ 6) (h : y.natAbs < 10 ^ (k + 1))
    (h' : k ≠ 0 → 10 ^ k ≤ y.natAbs) : ∃ ds n,
      IsYear y (sign ++ (replicate z '0' ++ toDigits 10 y.natAbs)) sign ds n := by
  obtain ⟨hnum, hlength⟩ := padded_spec z k h h'
  exact ⟨_, _, rfl, hnum, hlength ▸ hlen.1, hlength ▸ hlen.2, hy⟩

/-- What `_fourDigits` prints is the text of the year. -/
theorem fourDigits_spec (h : |y| < 1000000) : ∃ sign ds n, IsYear y (fourDigits y) sign ds n := by
  have habs : |y| = (y.natAbs : ℤ) := Int.abs_eq_natAbs y
  have hdecimal : decimal y = (if y < 0 then ['-'] else []) ++ toDigits 10 y.natAbs := by
    unfold decimal
    split_ifs <;> rfl
  unfold fourDigits
  simp only [habs, decimal_natCast, hdecimal]
  obtain ⟨sign, hsign, hy⟩ : ∃ sign : Text, (if y < 0 then ['-'] else []) = sign ∧
      ((sign = [] ∨ sign = ['+']) ∧ y = y.natAbs ∨ sign = ['-'] ∧ y = -(y.natAbs : ℤ)) := by
    by_cases hneg : y < 0
    · exact ⟨_, if_pos hneg, .inr ⟨rfl, by omega⟩⟩
    · exact ⟨_, if_neg hneg, .inl ⟨.inl rfl, by omega⟩⟩
  rw [hsign]
  refine ⟨sign, ?_⟩
  split_ifs with h1 h2 h3
  · obtain h4 | h5 | h6 : y.natAbs < 10000 ∨ 10000 ≤ y.natAbs ∧ y.natAbs < 100000 ∨
        100000 ≤ y.natAbs := by omega
    · exact isYear_padded 0 3 hy (by decide) h4 (by omega)
    · exact isYear_padded 0 4 hy (by decide) h5.2 fun _ => h5.1
    · exact isYear_padded 0 5 hy (by decide) (by omega) fun _ => h6
  · exact isYear_padded 1 2 hy (by decide) (by omega) (by omega)
  · exact isYear_padded 2 1 hy (by decide) (by omega) (by omega)
  · exact isYear_padded 3 0 hy (by decide) (by omega) (by omega)

/-- Where its assertion holds, `_sixDigits` prints a text of the year. -/
theorem sixDigits_spec (h : |y| < 1000000) (h' : y < -9999 ∨ 9999 < y) :
    ∃ text sign ds n, sixDigits y = some text ∧ IsYear y text sign ds n := by
  have habs : |y| = (y.natAbs : ℤ) := Int.abs_eq_natAbs y
  have hguard : (guard (y < -9999 ∨ 9999 < y) : Option Unit) = some () := if_pos h'
  unfold sixDigits
  simp only [habs, decimal_natCast, hguard, Option.bind_eq_bind, Option.bind_some, Option.pure_def,
    Option.some.injEq]
  obtain ⟨sign, hsign, hy⟩ : ∃ sign, (if y < 0 then '-' else '+') = sign ∧
      (([sign] = [] ∨ [sign] = ['+']) ∧ y = y.natAbs ∨ [sign] = ['-'] ∧ y = -(y.natAbs : ℤ)) := by
    by_cases hneg : y < 0
    · exact ⟨_, if_pos hneg, .inr ⟨rfl, by omega⟩⟩
    · exact ⟨_, if_neg hneg, .inl ⟨.inr rfl, by omega⟩⟩
  rw [hsign]
  split_ifs with h1
  · obtain ⟨ds, n, hyear⟩ := isYear_padded 0 5 hy (by decide) (by omega) (by omega)
    exact ⟨_, [sign], ds, n, rfl, hyear⟩
  · obtain ⟨ds, n, hyear⟩ := isYear_padded 1 4 hy (by decide) (by omega) (by omega)
    exact ⟨_, [sign], ds, n, rfl, hyear⟩

/-! ## Reading numbers -/

/-- A digit is not a sign. -/
theorem isDigit_ne (h : isDigit c = true) : c ≠ '+' ∧ c ≠ '-' := by
  constructor <;> rintro rfl <;> exact absurd h (by decide)

/-- Short numerals are read back, with the sign given. -/
theorem parseUnsigned_of_numeral (sign : ℤ) (h : IsNumeral n ds) (hne : ds ≠ [])
    (hlen : ds.length ≤ 9) :
    parseUnsigned b sign ds = some (sign * n) := by
  have hlimit : ds.length ≤ if b then 18 else 9 := by split_ifs <;> omega
  unfold parseUnsigned
  simp only [guard, hne, hlimit, ne_eq, not_false_eq_true, if_true, h.parse_eq, Option.pure_def,
    Option.bind_eq_bind, Option.bind_some, zero_mul, zero_add]

/-- `int.parse` reads a short numeral back. -/
theorem parseInt_of_numeral (h : IsNumeral n ds) (hne : ds ≠ []) (hlen : ds.length ≤ 9) :
    parseInt b ds = some (n : ℤ) := by
  obtain ⟨c, cs, rfl⟩ := exists_cons_of_ne_nil hne
  obtain ⟨hplus, hminus⟩ := isDigit_ne (h.isDigit c mem_cons_self)
  unfold parseInt
  split
  · rename_i heq
    exact absurd (cons.inj heq).1 hplus
  · rename_i heq
    exact absurd (cons.inj heq).1 hminus
  · exact (parseUnsigned_of_numeral 1 h hne hlen).trans (by rw [one_mul])

/-- `int.parse` reads the text of a year back, sign and leading zeros included. -/
theorem IsYear.parseInt_eq {text sign : Text} (h : IsYear y text sign ds n) :
    parseInt b text = some y := by
  have hne : ds ≠ [] := ne_nil_of_length_pos (by have := h.four_le; omega)
  have hlen : ds.length ≤ 9 := h.le_six.trans (by norm_num)
  rw [h.text_eq]
  rcases h.sign_eq with ⟨rfl | rfl, rfl⟩ | ⟨rfl, rfl⟩
  · exact parseInt_of_numeral h.numeral hne hlen
  · exact (parseUnsigned_of_numeral 1 h.numeral hne hlen).trans (by rw [one_mul])
  · exact (parseUnsigned_of_numeral (-1) h.numeral hne hlen).trans (by rw [neg_one_mul])

/-- Reading a fraction pads it with zeros to `k` more digits. -/
theorem parseFraction_eq (h : parseDigits ds acc = some m) (hk : ds.length ≤ k) :
    parseFraction ds k acc = m * 10 ^ (k - ds.length) := by
  have hnil : ∀ k acc, parseFraction [] k acc = acc * 10 ^ k := by
    intro k
    induction k with
    | zero => intro acc; rw [parseFraction, pow_zero, mul_one]
    | succ k ih =>
      intro acc
      rw [parseFraction, tail_nil, ih]
      ring
  induction ds generalizing acc k with
  | nil =>
    rw [parseDigits, Option.some.injEq] at h
    rw [hnil, h, length_nil, Nat.sub_zero]
  | cons c ds ih =>
    obtain ⟨k, rfl⟩ : ∃ l, k = l + 1 := ⟨k - 1, by rw [length_cons] at hk; omega⟩
    rw [parseDigits] at h
    split_ifs at h with hc
    rw [length_cons] at hk
    rw [parseFraction, length_cons, Nat.add_sub_add_right]
    exact ih h (by omega)

/-! ## Matching -/

/-- The captures with the text of one group. -/
def capture (index : ℕ) (text : Text) (g : Groups Char) : Groups Char :=
  Function.update g index (some text)

section Consumes

variable {rest : Text} {y : ℤ} {text sign fraction mon day hour minute second : Text}
  {cs : List Char}

/-- A group of two digits matches a numeral of two digits and captures it. -/
theorem consumes_twoDigitGroup (rest : Text) (index : ℕ) (h : IsNumeral n ds)
    (hlen : ds.length = 2) :
    Consumes (twoDigitGroup index) ds rest (capture index ds) := by
  have htimes := consumes_times rest h.isDigit
  rw [hlen] at htimes
  exact htimes.group index

/-- An optional character matches if it is there. -/
theorem consumes_optional (h : cs.contains c = true) :
    Consumes (optional cs) [c] rest id := (consumes_char h).opt

/-- An optional character is passed over if another one is there. -/
theorem consumes_no_optional (h : cs.contains c = false) :
    Consumes (optional cs) [] (c :: rest) id := (fails_char h).opt

/-- Where a sign is optional, a digit shows that there is none. -/
theorem contains_sign_of_isDigit (h : isDigit c = true) : ['+', '-'].contains c = false := by
  obtain ⟨hplus, hminus⟩ := isDigit_ne h
  simp [hplus, hminus]

/-- **The year group** matches the text of a year up to the hyphen behind it: the greedy repetition
stops there. -/
theorem IsYear.consumes (rest : Text) (h : IsYear y text sign ds n) :
    Consumes (.group 1 (.seq (optional ['+', '-']) (.between isDigit 4 2))) text ('-' :: rest)
      (capture 1 text) := by
  have hdigits : Consumes (.between isDigit 4 2) ds ('-' :: rest) id := by
    refine consumes_between h.numeral.isDigit ?_ h.four_le h.le_six
    rintro c cs heq
    rw [← (cons.inj heq).1]
    rfl
  have hsign : Consumes (optional ['+', '-']) sign (ds ++ '-' :: rest) id := by
    rcases h.sign_eq with ⟨rfl | rfl, -⟩ | ⟨rfl, -⟩
    · have hne : ds ≠ [] := ne_nil_of_length_pos (by have := h.four_le; omega)
      obtain ⟨c, cs, rfl⟩ := exists_cons_of_ne_nil hne
      exact consumes_no_optional (contains_sign_of_isDigit (h.numeral.isDigit c mem_cons_self))
    · exact consumes_optional rfl
    · exact consumes_optional rfl
  have hseq := (hsign.seq hdigits).group 1
  rwa [← h.text_eq] at hseq

/-- **The day**: year, month and day with their hyphens are matched and captured. -/
theorem consumes_dayPart (hyear : IsYear y text sign ds n) {mn dn : ℕ} (hmon : IsNumeral mn mon)
    (hmonlen : mon.length = 2) (hday : IsNumeral dn day) (hdaylen : day.length = 2) :
    Consumes dayPart (text ++ (['-'] ++ (mon ++ (['-'] ++ day)))) rest
      (capture 3 day ∘ capture 2 mon ∘ capture 1 text) := by
  have hd := consumes_twoDigitGroup rest 3 hday hdaylen
  have hdash : Consumes (optional ['-']) ['-'] (day ++ rest) id := consumes_optional rfl
  have hm := consumes_twoDigitGroup (['-'] ++ day ++ rest) 2 hmon hmonlen
  have hdash' : Consumes (optional ['-']) ['-'] (mon ++ (['-'] ++ day) ++ rest) id :=
    consumes_optional rfl
  have hall := (hyear.consumes (mon ++ (['-'] ++ day) ++ rest)).seq
    (hdash'.seq (hm.seq (hdash.seq hd)))
  exact hall

/-- **The time below the hour**: minutes, seconds and the fraction are matched and captured,
whatever follows that is not a digit. -/
theorem consumes_minutePart (rest : Text) {mn sn fn : ℕ} (hminute : IsNumeral mn minute)
    (hminutelen : minute.length = 2) (hsecond : IsNumeral sn second)
    (hsecondlen : second.length = 2)
    (hfraction : IsNumeral fn fraction) (hne : fraction ≠ [])
    (hrest : ∀ c cs, rest = c :: cs → isDigit c = false) :
    Consumes minutePart ([':'] ++ (minute ++ ([':'] ++ (second ++ (['.'] ++ fraction))))) rest
      (capture 7 fraction ∘ capture 6 second ∘ capture 5 minute) := by
  have hf := (consumes_many1 hfraction.isDigit hne hrest).group 7
  have hdot : Consumes (.char ['.', ','].contains) ['.'] (fraction ++ rest) id := consumes_char rfl
  have hs := consumes_twoDigitGroup (['.'] ++ fraction ++ rest) 6 hsecond hsecondlen
  have hcolon : Consumes (optional [':']) [':'] (second ++ (['.'] ++ fraction) ++ rest) id :=
    consumes_optional rfl
  have hm := consumes_twoDigitGroup ([':'] ++ (second ++ (['.'] ++ fraction)) ++ rest) 5
    hminute hminutelen
  have hcolon' : Consumes (optional [':']) [':']
      (minute ++ ([':'] ++ (second ++ (['.'] ++ fraction))) ++ rest) id := consumes_optional rfl
  have hall := (hcolon'.seq (hm.seq (hcolon.seq (hs.seq (hdot.seq hf).opt)).opt)).opt
  exact hall

/-- The mark `Z` is matched as the time zone. -/
theorem consumes_timeZonePart : Consumes timeZonePart ['Z'] [] (capture 8 ['Z']) := by
  have hblank : Consumes (optional [' ']) [] (['Z'] ++ []) id := consumes_no_optional rfl
  have hz : Consumes (.char ['z', 'Z'].contains) ['Z'] [] id := consumes_char rfl
  exact (((hblank.seq hz).alt_left).group 8).opt

/-- **The groups of a printed date.** -/
theorem firstMatch_format {mn dn hn minn sn fn : ℕ} {between : Char}
    (hyear : IsYear y text sign ds n) (hmon : IsNumeral mn mon) (hmonlen : mon.length = 2)
    (hday : IsNumeral dn day) (hdaylen : day.length = 2) (hhour : IsNumeral hn hour)
    (hhourlen : hour.length = 2) (hminute : IsNumeral minn minute) (hminutelen : minute.length = 2)
    (hsecond : IsNumeral sn second) (hsecondlen : second.length = 2)
    (hfraction : IsNumeral fn fraction) (hne : fraction ≠ [])
    (hbetween : [' ', 'T'].contains between = true) :
    firstMatch parseFormat ((text ++ (['-'] ++ (mon ++ (['-'] ++ day)))) ++ ([between] ++ (hour ++
        ([':'] ++ (minute ++ ([':'] ++ (second ++ (['.'] ++ fraction)))) ++ ['Z']))))
      = some ((capture 8 ['Z'] ∘ (capture 7 fraction ∘ capture 6 second ∘ capture 5 minute) ∘
        capture 4 hour ∘ capture 3 day ∘ capture 2 mon ∘ capture 1 text) fun _ => none) := by
  have hzone := consumes_timeZonePart
  have hmin := consumes_minutePart (['Z'] ++ []) hminute hminutelen hsecond hsecondlen
    hfraction hne fun c cs heq => by rw [← (cons.inj heq).1]; rfl
  have hh := consumes_twoDigitGroup
    ([':'] ++ (minute ++ ([':'] ++ (second ++ (['.'] ++ fraction)))) ++ ['Z'] ++ []) 4 hhour
    hhourlen
  have hsep : Consumes (.char [' ', 'T'].contains) [between] (hour ++ ([':'] ++ (minute ++ ([':'] ++
      (second ++ (['.'] ++ fraction)))) ++ ['Z']) ++ []) id := consumes_char hbetween
  have hall := (consumes_dayPart hyear hmon hmonlen hday hdaylen).seq
    (hsep.seq (hh.seq (hmin.seq hzone))).opt
  exact hall.firstMatch_eq

end Consumes

end DartVm.DateTime
