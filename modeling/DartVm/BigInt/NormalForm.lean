import DartVm.BigInt.DigitSpecs
import DartVm.BigInt.Operators

/-! # Big integers in normal form

`IsNormal` is the invariant of big integers and `toInt` the integer that one stands for.  A
computation `Yields` an integer if it returns a big integer in normal form that stands for it.

* `IsNormal`: the invariant.
* `Yields`: the postcondition of an operator.
* `make_spec`: the constructor normalizes any digits and sign. -/

namespace DartVm.BigInt

open Postcondition CountedLoop Positional

variable {digits : Digits} {used : ℕ} {isNegative : Bool} {x y : BigIntImpl} {v w : ℤ}
  {c : Option BigIntImpl} {k : BigIntImpl → Option BigIntImpl}

/-- The number of a sign and a magnitude. -/
def signed (isNegative : Bool) (magnitude : ℕ) : ℤ := if isNegative then -magnitude else magnitude

namespace BigIntImpl

/-- The absolute value of a big integer. -/
def magnitude (x : BigIntImpl) : ℕ := valueOf x.digits x.used

/-- Zero has no digits. -/
theorem isZero_iff : x.isZero = true ↔ x.used = 0 := beq_iff_eq

/-- The integer that a big integer stands for. -/
def toInt (x : BigIntImpl) : ℤ := signed x.isNegative x.magnitude

/-- **The normal form**: the highest used digit is not zero, zero is not negative, and an odd count
of digits is followed by a zero in an array of even length. -/
structure IsNormal (x : BigIntImpl) : Prop where
  isDigits : IsDigits x.digits
  even_length : x.digits.length % 2 = 0
  used_le : x.used ≤ x.digits.length
  leading_ne_zero : ∀ k, x.used = k + 1 → digitAt x.digits k ≠ 0
  nonneg_of_zero : x.used = 0 → x.isNegative = false
  padded : x.used % 2 = 1 → digitAt x.digits x.used = 0

end BigIntImpl

open BigIntImpl

/-- A big integer: the fields of `_BigIntImpl` in normal form. -/
structure NormalForm extends BigIntImpl where
  isNormal : toBigIntImpl.IsNormal

/-- The computation returns a big integer in normal form that stands for `v`. -/
def Yields (c : Option BigIntImpl) (v : ℤ) : Prop :=
  Returns False c fun r => r.IsNormal ∧ r.toInt = v

/-- Zero has no sign. -/
theorem signed_zero : signed isNegative 0 = 0 := by cases isNegative <;> rfl

/-- The absolute value of a signed magnitude. -/
theorem natAbs_signed (m : ℕ) : (signed isNegative m).natAbs = m := by
  cases isNegative <;> simp [signed]

/-- The other sign negates. -/
theorem signed_not (m : ℕ) : signed (!isNegative) m = -signed isNegative m := by
  cases isNegative <;> simp [signed]

/-- Signs distribute over sums. -/
theorem signed_add (m n : ℕ) :
    signed isNegative (m + n) = signed isNegative m + signed isNegative n := by
  cases isNegative
  · exact Nat.cast_add m n
  · rw [signed, signed, signed, if_pos rfl, if_pos rfl, if_pos rfl, Nat.cast_add, neg_add]

/-- Signs multiply. -/
theorem signed_mul {sign : Bool} (m n : ℕ) :
    signed (isNegative != sign) (m * n) = signed isNegative m * signed sign n := by
  cases isNegative <;> cases sign <;> simp [signed]

/-- The value may be rewritten. -/
theorem Yields.of_eq (h : Yields c v) (hvw : v = w) : Yields c w := hvw ▸ h

/-- What is computed next starts from a number in normal form with the value at hand. -/
theorem Yields.bind (h : Yields c v)
    (hk : ∀ r : BigIntImpl, r.IsNormal → r.toInt = v → Yields (k r) w) : Yields (c >>= k) w :=
  Returns.bind h fun r hr => hk r hr.1 hr.2

/-- The absolute value is the magnitude. -/
theorem BigIntImpl.natAbs_toInt : x.toInt.natAbs = x.magnitude := natAbs_signed _

/-- As `Yields.bind`, for a continuation that looks at the magnitude only. -/
theorem Yields.bind_magnitude {m : ℕ}
    (h : Yields c (signed isNegative m))
    (hk : ∀ r : BigIntImpl, r.IsNormal → r.magnitude = m → Yields (k r) w) : Yields (c >>= k) w :=
  h.bind fun r hr hvalue => hk r hr (by rw [← natAbs_toInt, hvalue, natAbs_signed])

namespace BigIntImpl.IsNormal

/-- `_BigIntImpl.zero` is in normal form. -/
theorem isNormal_zero : zero.IsNormal := by
  refine ⟨fun i => ?_, rfl, by decide, fun k hk => absurd hk (by simp [zero]), fun _ => rfl,
    fun h => absurd h (by decide)⟩
  rcases i with _ | _ | i <;> simp [digitAt, zero, digitBase_pos]

/-- `_BigIntImpl.zero` is zero. -/
theorem toInt_zero : zero.toInt = 0 := rfl

/-- The digits of one. -/
theorem isDigits_one : IsDigits [1, 0] := by
  rintro (_ | _ | i)
  · decide
  · decide
  · exact digitBase_pos

/-- `_BigIntImpl.one` is in normal form. -/
theorem isNormal_one : one.IsNormal := by
  refine ⟨isDigits_one, rfl, by decide, fun k hk => ?_, fun h => absurd h (by decide), fun _ => rfl⟩
  obtain rfl : k = 0 := by simpa [one] using hk.symm
  decide

/-- The magnitude of one. -/
theorem magnitude_one : one.magnitude = 1 := by
  rfl

/-- `_BigIntImpl.one` is one. -/
theorem toInt_one : one.toInt = 1 := by rw [toInt, magnitude_one]; rfl

/-- `_minusOne` is in normal form. -/
theorem isNormal_minusOne : minusOne.IsNormal := by
  refine ⟨isDigits_one, rfl, by decide, fun k hk => ?_, fun h => absurd h (by decide), fun _ => rfl⟩
  obtain rfl : k = 0 := by simpa [minusOne] using hk.symm
  decide

/-- `_minusOne` is minus one. -/
theorem toInt_minusOne : minusOne.toInt = -1 := by
  have h : minusOne.magnitude = 1 := magnitude_one
  rfl

variable (hx : x.IsNormal)

include hx

/-- A magnitude has at most `used` digits. -/
theorem magnitude_lt : x.magnitude < digitBase ^ x.used := hx.isDigits.valueOf_lt

/-- The highest used digit is not zero. -/
theorem le_magnitude {k : ℕ} (hk : x.used = k + 1) : digitBase ^ k ≤ x.magnitude := by
  rw [magnitude, hk]
  exact pow_le_value (hx.leading_ne_zero k hk)

/-- Only zero has no used digits. -/
theorem magnitude_eq_zero_iff : x.magnitude = 0 ↔ x.used = 0 := by
  constructor
  · intro h
    by_contra hne
    obtain ⟨k, hk⟩ := Nat.exists_eq_succ_of_ne_zero hne
    have := hx.le_magnitude hk
    have := Nat.pow_pos (n := k) digitBase_pos
    omega
  · intro h
    rw [magnitude, h, valueOf_zero]

/-- A number with digits is not zero. -/
theorem magnitude_pos (h : x.used ≠ 0) : 0 < x.magnitude :=
  Nat.pos_of_ne_zero fun hzero => h (hx.magnitude_eq_zero_iff.mp hzero)

/-- Only zero has no used digits. -/
theorem toInt_eq_zero_iff : x.toInt = 0 ↔ x.used = 0 := by
  rw [← hx.magnitude_eq_zero_iff, toInt, signed]
  split_ifs <;> omega

/-- The special case for zero, which operators test first. -/
theorem yields_ite_zero {c d : Option BigIntImpl} {v : ℤ} (hc : x.toInt = 0 → Yields c v)
    (hd : x.used ≠ 0 → Yields d v) : Yields (if x.isZero then c else d) v :=
  returns_ite (fun hzero => hc (hx.toInt_eq_zero_iff.mpr (isZero_iff.mp hzero)))
    fun hne => hd fun hzero => hne (isZero_iff.mpr hzero)

/-- More used digits mean a greater magnitude. -/
theorem magnitude_lt_of_used_lt (hy : y.IsNormal) (h : x.used < y.used) :
    x.magnitude < y.magnitude := by
  obtain ⟨k, hk⟩ := Nat.exists_eq_succ_of_ne_zero (Nat.ne_zero_of_lt h)
  calc x.magnitude < digitBase ^ x.used := hx.magnitude_lt
    _ ≤ digitBase ^ k := Nat.pow_le_pow_right digitBase_pos (by omega)
    _ ≤ y.magnitude := hy.le_magnitude hk

end BigIntImpl.IsNormal

/-! ## The constructors -/

/-- `_normalize` drops exactly the leading zeros. -/
theorem normalize_spec (hused : used ≤ digits.length) :
    Returns False (normalize used digits) fun n => n ≤ used ∧
      (∀ i, n ≤ i → i < used → digitAt digits i = 0) ∧ ∀ k, n = k + 1 → digitAt digits k ≠ 0 := by
  induction used with
  | zero => exact ⟨le_rfl, fun i _ h => absurd h (by omega), fun k hk => absurd hk (by omega)⟩
  | succ used ih =>
    unfold normalize
    refine returns_bind_of_eq (load_eq (by omega)) ?_
    refine returns_ite (fun hzero => (ih (by omega)).mono ?_) fun hne => ?_
    · rintro n ⟨hn, hzeros, hlead⟩
      refine ⟨by omega, fun i h1 h2 => ?_, hlead⟩
      rcases Nat.lt_succ_iff_lt_or_eq.mp h2 with hi | rfl
      · exact hzeros i h1 hi
      · exact hzero
    · refine ⟨le_rfl, fun i h1 h2 => absurd h2 (by omega), fun k hk => ?_⟩
      obtain rfl : used = k := by omega
      exact hne

/-- **The constructor** makes a big integer of any digits and sign. -/
theorem make_spec (hd : IsDigits digits) (heven : digits.length % 2 = 0)
    (hused : used ≤ digits.length) (hpad : used % 2 = 1 → digitAt digits used = 0) :
    Yields (make isNegative used digits) (signed isNegative (valueOf digits used)) := by
  refine (normalize_spec hused).bind ?_
  rintro n ⟨hn, hzeros, hlead⟩
  -- A digit after the used ones is one of the zeros left out, or was zero before.
  have hpadn : n % 2 = 1 → digitAt digits n = 0 := by
    intro hodd
    rcases Nat.eq_or_lt_of_le hn with rfl | hlt
    · exact hpad hodd
    · exact hzeros n le_rfl hlt
  have hlen : n % 2 = 1 → n < digits.length := by omega
  have hvalue : valueOf digits used = valueOf digits n := value_of_zeros hn hzeros
  have hresult : Yields (some ⟨if n = 0 then false else isNegative, n, digits⟩)
      (signed isNegative (valueOf digits used)) := by
    refine ⟨⟨hd, heven, by dsimp only; omega, hlead, fun h => if_pos h, hpadn⟩, ?_⟩
    rw [hvalue]
    show signed _ (valueOf digits n) = _
    by_cases hzero : n = 0
    · rw [hzero, valueOf_zero, signed_zero, signed_zero]
    · rw [if_neg hzero]
  unfold normalized
  refine returns_bind_of_eq (if_pos heven) ?_
  by_cases hodd : n % 2 = 1
  · rw [if_pos hodd]
    refine returns_bind_of_eq (load_eq (hlen hodd)) ?_
    rw [hpadn hodd]
    exact hresult
  · rw [if_neg hodd]
    exact hresult

/-- The constructor on a freshly allocated array that was written to. -/
theorem make_of_writes {n lo hi : ℕ} {r : Digits} (hw : Writes lo hi (newDigits n) r)
    (hused : used ≤ n) (hhi : hi ≤ used) :
    Yields (make isNegative used r) (signed isNegative (valueOf r used)) := by
  refine make_spec (hw.isDigits isDigits_newDigits) ?_ ?_ fun _ => ?_
  · rw [hw.length_eq, length_newDigits]
    omega
  · rw [hw.length_eq, length_newDigits]
    omega
  · rw [hw.digitAt_eq used (Or.inr hhi), digitAt_newDigits]

/-- `-x` is negation. -/
theorem neg_spec (hx : x.IsNormal) : Yields (neg x) (-x.toInt) := by
  refine returns_ite (fun hzero => ⟨hx, ?_⟩) fun _ => ?_
  · rw [(hx.toInt_eq_zero_iff).mpr hzero, neg_zero]
  · rw [toInt, ← signed_not]
    exact make_spec hx.isDigits hx.even_length hx.used_le hx.padded

end DartVm.BigInt
