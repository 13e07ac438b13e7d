import DartVm.BigInt.DivisionSpecs
import DartVm.BigInt.NormalForm
import Mathlib.Data.Nat.Size

/-! # `_divRem`

The operands are shifted so that the top bit of the divisor is set and its count of digits is even;
after an explicit first step the division loop does the rest.

* `normalizationShift_spec`: the shift that normalizes the divisor.
* `divideFirst_spec`: the explicit first step.
* `Mode.divRem_spec`: quotient and remainder of the absolute values. -/

namespace DartVm.BigInt

open Postcondition CountedLoop Positional LongDivision BigIntImpl

variable {mode : Mode} {x other : BigIntImpl} {yDigits r tmp args ny : Digits} {n y m u j nsh : ℕ}

/-! ## Normalization -/

/-- **The normalized divisor** has an even count of digits and its top bit set. -/
structure IsNormalized (y n : ℕ) (yDigits : Digits) : Prop where
  isDigits : IsDigits yDigits
  length_le : n ≤ yDigits.length
  value_eq : valueOf yDigits n = y
  even : n % 2 = 0
  pos : 0 < n
  top : digitBase ^ n ≤ 2 * y

/-- A normalized divisor has `n` digits. -/
theorem IsNormalized.lt_pow (h : IsNormalized y n yDigits) : y < digitBase ^ n :=
  h.value_eq ▸ h.isDigits.valueOf_lt

/-- A normalized divisor is not zero. -/
theorem IsNormalized.pos_y (h : IsNormalized y n yDigits) : 0 < y := by
  have := h.top
  have := pow_pos (n := n) digitBase_pos
  omega

/-- Shifting a number by the free bits of its highest digit sets the top bit and loses nothing. -/
theorem mul_two_pow_bounds {k t s v : ℕ} (ht : t ≠ 0) (hs : s = digitBits - Nat.size t)
    (htlt : t < digitBase) (hlow : t * digitBase ^ k ≤ v) (hhigh : v < (t + 1) * digitBase ^ k) :
    s < digitBits ∧ digitBase ^ (k + 1) ≤ 2 * (v * 2 ^ s) ∧ v * 2 ^ s < digitBase ^ (k + 1) := by
  have hsize : Nat.size t ≤ digitBits := Nat.size_le.mpr htlt
  have hpos : 0 < Nat.size t := Nat.size_pos.mpr (Nat.pos_of_ne_zero ht)
  have hlt : t < 2 ^ Nat.size t := Nat.lt_size_self t
  have hge : 2 ^ (Nat.size t - 1) ≤ t := Nat.lt_size.mp (by omega)
  have hpow : 2 ^ Nat.size t * 2 ^ s = digitBase := by
    rw [← pow_add, hs, Nat.add_sub_cancel' hsize]
    rfl
  have hhalf : 2 * 2 ^ (Nat.size t - 1) = 2 ^ Nat.size t := by
    rw [← pow_succ', Nat.sub_add_cancel hpos]
  refine ⟨by omega, ?_, ?_⟩
  · calc digitBase ^ (k + 1) = 2 * (2 ^ (Nat.size t - 1) * digitBase ^ k * 2 ^ s) := by
          rw [← hpow, ← hhalf]
          ring
      _ ≤ 2 * (t * digitBase ^ k * 2 ^ s) := by gcongr
      _ ≤ 2 * (v * 2 ^ s) := by gcongr
  · calc v * 2 ^ s < (t + 1) * digitBase ^ k * 2 ^ s := by gcongr
      _ ≤ 2 ^ Nat.size t * digitBase ^ k * 2 ^ s := by gcongr; exact hlt
      _ = digitBase ^ (k + 1) := by
          rw [← hpow]
          ring

/-- **The shift of the normalization** gives the divisor an even number of digits with the top bit
set. -/
theorem normalizationShift_spec (hother : other.IsNormal) (hne : other.used ≠ 0) :
    Returns False (normalizationShift other) fun nsh => nsh / digitBits = other.used % 2 ∧
      digitBase ^ (other.used + other.used % 2) ≤ 2 * (other.magnitude * 2 ^ nsh) ∧
        other.magnitude * 2 ^ nsh < digitBase ^ (other.used + other.used % 2) := by
  obtain ⟨k, hk⟩ := Nat.exists_eq_succ_of_ne_zero hne
  have hlen := hother.used_le
  have hvalue : other.magnitude =
      valueOf other.digits k + digitAt other.digits k * digitBase ^ k := by
    rw [magnitude, hk, valueOf_succ]
  have hlow : valueOf other.digits k < digitBase ^ k := hother.isDigits.valueOf_lt
  obtain ⟨hs, hge, hlt⟩ :=
    mul_two_pow_bounds (k := k) (v := other.magnitude) (hother.leading_ne_zero k hk) rfl
    (hother.isDigits k) (by omega) (by rw [Nat.succ_mul]; omega)
  refine returns_bind_of_eq (load_eq (by omega)) ?_
  rw [hk, Nat.succ_sub_one, Nat.succ_eq_add_one]
  generalize digitBits - Nat.size (digitAt other.digits k) = s at *
  have hbits : digitBits = 32 := rfl
  have hquot : s / digitBits = 0 ∧ (s + digitBits) / digitBits = 1 := by
    rw [hbits] at hs ⊢
    omega
  show (if (k + 1) % 2 = 1 then s + digitBits else s) / digitBits = _ ∧ _
  split_ifs with hodd
  · -- One more digit, which the shift by `_digitBits` fills.
    have hpow : other.magnitude * 2 ^ (s + digitBits) = other.magnitude * 2 ^ s * digitBase := by
      rw [pow_add, digitBase_eq, hbits, Nat.mul_assoc]
    rw [hodd, hpow]
    refine ⟨hquot.2, ?_, mul_lt_mul_of_pos_right hlt digitBase_pos⟩
    rw [← mul_assoc]
    exact Nat.mul_le_mul_right _ hge
  · rw [show (k + 1) % 2 = 0 by omega]
    exact ⟨hquot.1, hge, hlt⟩

/-- An operand shifted into a new array, with room for one more digit. -/
theorem shiftOperand_spec (hx : x.IsNormal) (hne : x.used ≠ 0) :
    Returns False (lShiftDigits x.digits x.used nsh
        (newDigits (x.used + ((nsh + digitBits - 1) / digitBits + 1)))) fun s =>
      IsDigits s.2 ∧ s.2.length % 2 = 0 ∧ s.1 < s.2.length ∧
        valueOf s.2 s.1 = x.magnitude * 2 ^ nsh ∧ x.used + nsh / digitBits ≤ s.1 ∧
          (s.1 = x.used + nsh / digitBits ∨
            digitBase ^ (x.used + nsh / digitBits) ≤ x.magnitude * 2 ^ nsh) := by
  have hbits : digitBits = 32 := rfl
  have hextra : (nsh + digitBits - 1) / digitBits
      = nsh / digitBits + if nsh % digitBits = 0 then 0 else 1 := by
    rw [hbits]
    split_ifs <;> omega
  rw [hextra]
  generalize hds : nsh / digitBits = ds
  refine (lShiftDigits_spec (x := .array x.digits) (pos_of_ne_zero hne) hx.isDigits hx.used_le
    ?_ ?_ hx.padded).mono ?_
  · rw [length_newDigits, hds]
    omega
  · intro hbit
    rw [length_newDigits, if_neg hbit]
    omega
  rintro ⟨u, r⟩ ⟨hw, hvalue, -, hcount⟩
  rw [hds] at hcount
  have hlength := hw.length_eq.trans length_newDigits
  refine ⟨hw.isDigits isDigits_newDigits, by omega, ?_, hvalue, by omega, ?_⟩
  · rcases hcount with h | ⟨h1, h2⟩
    · omega
    -- A shift by whole digits does not reach the extra digit.
    have hbit : nsh % digitBits ≠ 0 := by
      intro hzero
      have hlt : x.magnitude * 2 ^ nsh < digitBase ^ (x.used + ds) := by
        rw [two_pow_eq nsh, hzero, hds, pow_zero, mul_one, pow_add]
        exact Nat.mul_lt_mul_of_pos_right hx.magnitude_lt (Nat.pow_pos digitBase_pos)
      exact absurd h2 (not_le.mpr hlt)
    rw [if_neg hbit] at hlength
    omega
  · exact hcount.imp_right And.right

/-- **The normalized dividend**, in an array with room for one more digit. -/
structure IsDividend (v n u : ℕ) (r : Digits) : Prop where
  isDigits : IsDigits r
  even_length : r.length % 2 = 0
  lt_length : u < r.length
  value_eq : valueOf r u = v
  le : n ≤ u

/-- Both operands are shifted, with a zero digit above the dividend. -/
theorem normalizeOperands_spec (hx : x.IsNormal) (hother : other.IsNormal) (hne : other.used ≠ 0)
    (hle : other.used ≤ x.used) (hds : nsh / digitBits = other.used % 2)
    (htop : digitBase ^ (other.used + other.used % 2) ≤ 2 * (other.magnitude * 2 ^ nsh))
    (hlt : other.magnitude * 2 ^ nsh < digitBase ^ (other.used + other.used % 2)) :
    Returns False (normalizeOperands x other nsh) fun s =>
      IsNormalized (other.magnitude * 2 ^ nsh) s.1.1 s.1.2 ∧
        IsDividend (x.magnitude * 2 ^ nsh) s.1.1 s.2.1 s.2.2 := by
  unfold normalizeOperands
  refine returns_ite (fun _ => ?_) fun hzero => ?_
  · refine (shiftOperand_spec hother hne).bind ?_
    rintro ⟨yUsed, yDigits⟩ ⟨hdigits, -, hlength, hvalue, -, hcount⟩
    refine (shiftOperand_spec hx (by omega)).bind ?_
    rintro ⟨u, r⟩ ⟨hr, heven, hrlen, hrvalue, hru, -⟩
    rw [hds] at hcount hru
    obtain rfl : yUsed = other.used + other.used % 2 :=
      hcount.resolve_right (not_le.mpr hlt)
    exact ⟨⟨hdigits, hlength.le, hvalue, by dsimp only; omega, by dsimp only; omega, htop⟩,
      hr, heven, hrlen, hrvalue, by dsimp only at *; omega⟩
  · obtain rfl : nsh = 0 := by omega
    have hevenUsed : other.used % 2 = 0 := hds.symm.trans (Nat.zero_div _)
    rw [hevenUsed] at htop
    have hxlen := hx.used_le
    refine (cloneDigits_spec hx.isDigits (Nat.zero_le _) hxlen (by omega)).bind ?_
    rintro r ⟨hlength, hr, hdigits⟩
    have hvalue : valueOf r x.used = x.magnitude := valueOf_congr fun i hi => by
      rw [hdigits, if_pos (by omega), zero_add]
    exact ⟨⟨hother.isDigits, hother.used_le, by rw [pow_zero, mul_one]; rfl, hevenUsed,
        pos_of_ne_zero hne, htop⟩,
      hr, by dsimp only; omega, by dsimp only; omega, by rw [pow_zero, mul_one]; exact hvalue, hle⟩

/-! ## The divisor -/

/-- The top two digits of the divisor are handed to the estimate. -/
theorem divisorArgs_spec (h : IsNormalized y n yDigits) :
    Returns False (divisorArgs yDigits n) fun args => args.length = 4 ∧ IsDigits args ∧
      digitAt args 0 = digitAt yDigits (n - 2) ∧ digitAt args 1 = digitAt yDigits (n - 1) := by
  have hlen := h.length_le
  have hpos := h.pos
  unfold divisorArgs
  refine returns_bind_of_eq (load_eq (by omega)) ?_
  refine (store_spec (by decide)).bind ?_
  rintro args₁ ⟨hw1, hlow⟩
  have hlen1 : args₁.length = 4 := hw1.length_eq
  refine returns_bind_of_eq (load_eq (by omega)) ?_
  refine (store_spec (by rw [hlen1]; decide)).mono ?_
  rintro args₂ ⟨hw2, hhigh⟩
  rw [Nat.mod_eq_of_lt (h.isDigits _)] at hlow hhigh
  exact ⟨hw2.length_eq.trans hlen1, hw2.isDigits (hw1.isDigits isDigits_newDigits),
    (hw2.digitAt_eq 0 (.inl (by decide))).trans hlow, hhigh⟩

/-- The divisor is negated modulo a power of the base, so that subtraction becomes `_mulAdd`. -/
theorem negateDivisor_spec (h : IsNormalized y n yDigits) :
    Returns False (negateDivisor yDigits n) fun ny => IsDigits ny ∧ n ≤ ny.length ∧
      valueOf ny n = digitBase ^ n - y := by
  unfold negateDivisor
  have hlen : n + 1 < (newDigits (n + 2)).length := by rw [length_newDigits]; omega
  refine (store_spec (by omega)).bind ?_
  rintro ny₁ ⟨hw1, hone⟩
  have hzeros : valueOf ny₁ n = 0 := value_eq_zero fun i hi => by
    rw [hw1.digitAt_eq i (.inl hi), digitAt_newDigits]
  have hpow : valueOf ny₁ (n + 1) = digitBase ^ n := by
    rw [valueOf_succ, hzeros, hone, Nat.mod_eq_of_lt (by decide), Nat.one_mul, Nat.zero_add]
  have hny1 := hw1.isDigits isDigits_newDigits
  have hlen1 := hw1.length_eq
  have hlt := h.lt_pow
  have hvalue := h.value_eq
  refine (absSub_spec (x := .result) (y := .array yDigits) hny1 (Nat.le_succ n) h.pos
    (by show n + 1 ≤ ny₁.length; omega) h.length_le (by omega) hny1
    (by show valueOf yDigits n ≤ valueOf ny₁ (n + 1); omega)).mono ?_
  rintro ny ⟨hw, hsub⟩
  have hny := hw.isDigits hny1
  have hsub' : valueOf ny (n + 1) = digitBase ^ n - y := by
    rw [← hpow, ← hvalue]
    exact hsub
  refine ⟨hny, by rw [hw.length_eq]; omega, ?_⟩
  -- The difference is below the power, so its highest digit is zero.
  rw [← hsub', ← Nat.mod_eq_of_lt (show valueOf ny (n + 1) < digitBase ^ n from ?_)]
  · exact (value_mod (Nat.le_succ n) fun i _ => hny i).symm
  · have := h.pos_y
    omega

/-- The prepared arrays are what the division loop asks for. -/
theorem IsNormalized.isDivisor (h : IsNormalized y n yDigits) (hargs : args.length = 4)
    (hdigits : IsDigits args) (hlow : digitAt args 0 = digitAt yDigits (n - 2))
    (hhigh : digitAt args 1 = digitAt yDigits (n - 1)) (hny : IsDigits ny) (hnylen : n ≤ ny.length)
    (hnyvalue : valueOf ny n = digitBase ^ n - y) : IsDivisor mode y n args ny := by
  have heven := h.even
  have hpos := h.pos
  have hstep : mode.step ≤ n := by cases mode <;> simp only [Mode.step] <;> omega
  have htop : topOf mode args = wideAt mode yDigits (n - mode.step) := by
    cases mode with
    | digit =>
      rw [wideAt_digit]
      exact hhigh
    | digitPair =>
      rw [topOf, wideAt_digitPair, wideAt_digitPair, show n - Mode.digitPair.step = n - 2 from rfl,
        show n - 2 + 1 = n - 1 by omega, ← hlow, ← hhigh]
      rfl
  -- The leading digits, and what is below them.
  have hsplit : y = valueOf yDigits (n - mode.step)
      + topOf mode args * digitBase ^ (n - mode.step) := by
    rw [htop, ← h.value_eq, wideAt, Nat.mul_comm, ← valueOf_add, Nat.sub_add_cancel hstep]
  have hlt : valueOf yDigits (n - mode.step) < digitBase ^ (n - mode.step) := h.isDigits.valueOf_lt
  have hlttop : y < (topOf mode args + 1) * digitBase ^ (n - mode.step) := by
    rw [Nat.succ_mul]
    omega
  refine ⟨hargs, hdigits, hny, hnylen, hnyvalue, heven, hpos, by omega, hlttop, ?_⟩
  have hpow : digitBase ^ mode.step * digitBase ^ (n - mode.step)
      < 2 * (topOf mode args + 1) * digitBase ^ (n - mode.step) := by
    rw [← pow_add, Nat.add_sub_cancel' hstep, Nat.mul_assoc]
    have := h.top
    omega
  have hlt' := lt_of_mul_lt_mul_right hpow
  have hevenPow : digitBase ^ mode.step % 2 = 0 := by cases mode <;> rfl
  omega

/-! ## The first step -/

/-- **The explicit first step** leaves one digit of the quotient above the remainder. -/
theorem divideFirst_spec {v : ℕ} (hy : IsNormalized y n yDigits) (hr : IsDividend v n u r)
    (hj : j + n = u + u % 2) (htmp : IsDigits tmp) (htmplen : j + n ≤ tmp.length)
    (htmpvalue : valueOf tmp (j + n) = y * digitBase ^ j) :
    Returns False (divideFirst (j + n) (j + n) tmp u r) fun r' => Writes 0 (u + 1) r r' ∧
      Divided digitBase n y v j (valueOf r' (u + 1)) := by
  have hlen := hr.lt_length
  have hpos := hy.pos
  have hvlt : v < digitBase ^ u := hr.value_eq ▸ hr.isDigits.valueOf_lt
  have htop : digitBase ^ (j + n) ≤ 2 * (y * digitBase ^ j) := by
    rw [add_comm j n, pow_add, ← mul_assoc]
    exact Nat.mul_le_mul_right _ hy.top
  have hsmall : v < y * digitBase ^ j → Returns False (store r u 0) fun r' =>
    Writes 0 (u + 1) r r' ∧
      Divided digitBase n y v j (valueOf r' (u + 1)) := by
    intro hlt
    refine (store_spec hlen).mono ?_
    rintro r' ⟨hw, hzero⟩
    have hvalue : valueOf r' (u + 1) = v := by
      rw [valueOf_succ, hw.valueOf_eq le_rfl, hzero, Nat.zero_mod, Nat.zero_mul, Nat.add_zero,
        hr.value_eq]
    have hvpow : v < digitBase ^ (j + n) :=
      hvlt.trans_le (Nat.pow_le_pow_right digitBase_pos (by omega))
    rw [hvalue]
    refine ⟨hw.mono (by omega), by rwa [Nat.mod_eq_of_lt hvpow], ?_⟩
    rw [Nat.div_eq_of_lt hvpow, Nat.mod_eq_of_lt hvpow, Nat.zero_mul, Nat.zero_mul, Nat.zero_add]
  unfold divideFirst
  rcases Nat.mod_two_eq_zero_or_one u with heven | hodd
  · obtain rfl : u = j + n := by omega
    refine (compareDigits_spec hr.isDigits htmp hlen.le htmplen).bind ?_
    rintro c ⟨hneg, -⟩
    rw [hr.value_eq, htmpvalue] at hneg
    refine returns_ite (fun hge => ?_) fun hlt => hsmall (hneg.mp (by omega))
    refine returns_bind_of_eq (if_pos rfl) ?_
    refine (store_spec hlen).bind ?_
    rintro r₁ ⟨hw1, hone⟩
    have hvalue1 : valueOf r₁ (j + n + 1) = v + digitBase ^ (j + n) := by
      rw [valueOf_succ, hw1.valueOf_eq le_rfl, hone, Nat.mod_eq_of_lt (by decide), Nat.one_mul,
        hr.value_eq]
    have hr1 := hw1.isDigits hr.isDigits
    have hlen1 : j + n + 1 ≤ r₁.length := by rw [hw1.length_eq]; exact hlen
    refine (absSub_spec (x := .result) (y := .array tmp) hr1 (Nat.le_succ _)
      (by omega) hlen1 htmplen
      hlen1 hr1 (by show valueOf tmp (j + n) ≤ valueOf r₁ (j + n + 1); omega)).mono ?_
    rintro r₂ ⟨hw2, hsub⟩
    have hvalue2 : valueOf r₂ (j + n + 1) = digitBase ^ (j + n) + (v - y * digitBase ^ j) := by
      have hsub' : valueOf r₂ (j + n + 1) = valueOf r₁ (j + n + 1) - valueOf tmp (j + n) := hsub
      omega
    have hrem : v - y * digitBase ^ j < digitBase ^ (j + n) := by omega
    refine ⟨hw1.trans hw2 (by omega), ?_, ?_⟩
    · rw [hvalue2, Nat.add_mod_left, Nat.mod_eq_of_lt hrem]
      omega
    · rw [hvalue2, Nat.add_mod_left, Nat.mod_eq_of_lt hrem, Nat.add_div_left _ (by omega),
        Nat.div_eq_of_lt hrem, Nat.one_mul, Nat.mul_comm]
      omega
  · -- The shifted divisor has one digit more than the dividend.
    have hcompare : compareDigits r u tmp (j + n) = some ((u : ℤ) - (j + n : ℕ)) :=
      if_neg (by omega)
    refine returns_bind_of_eq hcompare ?_
    refine returns_ite (fun hge => absurd hge (by omega)) fun _ => hsmall ?_
    have hpow : digitBase ^ (j + n) = digitBase ^ u * digitBase := by
      rw [show j + n = u + 1 by omega, pow_succ]
    have hbase : digitBase ^ u * 2 ≤ digitBase ^ u * digitBase := Nat.mul_le_mul_left _ (by decide)
    omega

/-! ## The division -/

/-- **The result of dividing** `v` by `w`: the quotient's digits above
the normalized remainder's. -/
structure IsQuoRem (v w : ℕ) (s : QuoRem) : Prop where
  isDigits : IsDigits s.digits
  used_le : s.used ≤ s.digits.length
  remUsed_le : s.remUsed ≤ s.used
  even_remUsed : s.remUsed % 2 = 0
  quo_eq : value digitBase (fun i => digitAt s.digits (s.remUsed + i)) (s.used - s.remUsed) = v / w
  rem_eq : valueOf s.digits s.remUsed = v % w * 2 ^ s.nsh

/-- **`_divRem`** divides the absolute values, and its assertions hold. -/
theorem Mode.divRem_spec (mode : Mode) (hx : x.IsNormal) (hother : other.IsNormal)
    (hne : other.used ≠ 0) (hle : other.used ≤ x.used) :
    Returns False (mode.divRem x other) fun s => IsQuoRem x.magnitude other.magnitude s := by
  unfold Mode.divRem
  refine returns_bind_of_eq (if_pos hle) ?_
  refine (normalizationShift_spec hother hne).bind ?_
  rintro nsh ⟨hds, htop, hlt⟩
  refine (normalizeOperands_spec hx hother hne hle hds htop hlt).bind ?_
  rintro ⟨⟨n, yDigits⟩, ⟨u, r⟩⟩ ⟨hy, hr⟩
  dsimp only at hy hr ⊢
  have heven := hy.even
  have hpos := hy.pos
  have hnu := hr.le
  have hrlen := hr.lt_length
  have hreven := hr.even_length
  refine (divisorArgs_spec hy).bind ?_
  rintro args ⟨hargs, hargsDigits, hlow, hhigh⟩
  refine returns_bind_of_eq (if_pos heven) ?_
  rw [Nat.and_one_is_mod]
  -- The divisor is moved by `j` digits to the top of the dividend, for the first step.
  obtain ⟨j, hj⟩ : ∃ j, u + u % 2 = j + n := ⟨u + u % 2 - n, by omega⟩
  rw [hj, Nat.add_sub_cancel]
  refine (dlShiftDigits_spec (x := .array yDigits) (n := j) hpos hy.isDigits hy.length_le
    (by rw [length_newDigits]; omega) fun hodd => absurd hodd (by omega)).bind ?_
  rintro ⟨tmpUsed, tmp⟩ ⟨rfl, hwtmp, htmpvalue, -⟩
  dsimp only at hwtmp htmpvalue ⊢
  have htmplen := hwtmp.length_eq.trans length_newDigits
  have htmp := hwtmp.isDigits isDigits_newDigits
  rw [add_comm n j] at htmpvalue ⊢
  refine (divideFirst_spec hy hr hj.symm htmp (by omega)
    (htmpvalue.trans (congrArg (· * _) hy.value_eq))).bind ?_
  rintro r₁ ⟨hw1, hdivided⟩
  refine (storeLeadingZero_spec (by rw [hw1.length_eq]; omega)).bind ?_
  rintro r₂ ⟨hw2, -⟩
  refine (negateDivisor_spec hy).bind ?_
  rintro ny ⟨hny, hnylen, hnyvalue⟩
  have hlength : r₂.length = r.length := hw2.length_eq.trans hw1.length_eq
  -- The invariant of the loop; `j` digits of the quotient are missing.
  have hinit : Dividing mode (other.magnitude * 2 ^ nsh) n (x.magnitude * 2 ^ nsh) (u + 1) j ny
      tmp.length r.length ⟨args, tmp, r₂⟩ :=
    ⟨hy.isDivisor hargs hargsDigits hlow hhigh hny hnylen hnyvalue, htmp, rfl,
      hw2.isDigits (hw1.isDigits hr.isDigits), hlength, by rwa [hw2.valueOf_eq le_rfl]⟩
  have hjstep : j % mode.step = 0 := by cases mode <;> simp only [Mode.step] <;> omega
  refine (Mode.divideLoop_spec hinit (by omega) hjstep (by omega) hrlen (by omega) heven
    (by omega)).bind ?_
  rintro s hs
  obtain ⟨hquo, hrem⟩ := hs.divided.result
  have hpow : 0 < 2 ^ nsh := Nat.pow_pos (by norm_num)
  refine ⟨hs.isDigits, ?_, by dsimp only; omega, heven, ?_, ?_⟩
  · rw [hs.length_eq]
    exact hrlen
  · rw [value_eq_mod_div hs.isDigits (u := u + 1) (by dsimp only; omega)]
    rw [show n + (u + 1 - n) = u + 1 by omega, Nat.mod_eq_of_lt hs.isDigits.valueOf_lt, hquo,
      Nat.mul_div_mul_right _ _ hpow]
  · have hmod : valueOf s.resultDigits (u + 1) % digitBase ^ n = valueOf s.resultDigits n :=
      value_mod (by omega) fun i _ => hs.isDigits i
    rw [← hmod, hrem, Nat.mul_mod_mul_right]

end DartVm.BigInt
