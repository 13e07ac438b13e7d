import DartVm.BigInt.NormalForm

/-! # Addition, subtraction, multiplication and order

* `compareTo_spec`: `compareTo` is the order of the integers.
* `add_spec`, `sub_spec`, `mul_spec`: the operators add, subtract and multiply, for any signs. -/

namespace DartVm.BigInt

open Postcondition CountedLoop Positional BigIntImpl

variable {x y : BigIntImpl} {isNegative : Bool}

/-! ## Order -/

variable (hx : x.IsNormal) (hy : y.IsNormal)
include hx hy

/-- `_absCompare` compares the magnitudes. -/
theorem absCompare_spec :
    Returns False (absCompare x y) fun c => Compares c x.magnitude y.magnitude := by
  rw [absCompare]
  rcases Nat.lt_trichotomy x.used y.used with hlt | heq | hlt
  · have h := hx.magnitude_lt_of_used_lt hy hlt
    rw [compareDigits, if_neg (by omega)]
    show Compares _ _ _
    unfold Compares
    omega
  · rw [magnitude, magnitude, heq]
    exact compareDigits_spec hx.isDigits hy.isDigits (heq ▸ hx.used_le) hy.used_le
  · have h := hy.magnitude_lt_of_used_lt hx hlt
    rw [compareDigits, if_neg (by omega)]
    show Compares _ _ _
    unfold Compares
    omega

omit hy in
/-- In normal form zero has no sign. -/
theorem BigIntImpl.IsNormal.used_ne_zero (h : x.isNegative = true) :
    x.used ≠ 0 := fun hzero => Bool.noConfusion (h.symm.trans (hx.nonneg_of_zero hzero))

omit hy in
/-- In normal form the sign bit is the sign of the number. -/
theorem isNegative_iff : x.isNegative = true ↔ x.toInt < 0 := by
  constructor
  · intro hneg
    have hpos := hx.magnitude_pos (hx.used_ne_zero hneg)
    rw [toInt, signed, if_pos hneg]
    omega
  · intro hlt
    by_contra hneg
    rw [toInt, signed, if_neg hneg] at hlt
    omega

/-- Every negative number is below every other one. -/
theorem toInt_lt_of_isNegative (hneg : x.isNegative = true)
    (hpos : y.isNegative = false) : x.toInt < y.toInt := by
  have hx' := (isNegative_iff hx).mp hneg
  have hy' := mt (isNegative_iff hy).mpr (by simp [hpos])
  omega

/-- **`compareTo`** is the order of the integers. -/
theorem compareTo_spec : Returns False (compareTo x y) fun c => Compares c x.toInt y.toInt := by
  unfold compareTo
  refine returns_ite (fun hsign => (absCompare_spec hx hy).bind fun c hc => ?_) fun hsign => ?_
  · rw [toInt, toInt, ← hsign]
    unfold Compares at hc ⊢
    cases hneg : x.isNegative <;> simp [signed] <;> omega
  · show Compares _ _ _
    unfold Compares
    have hy' := Bool.not_eq.mpr hsign
    cases hneg : x.isNegative <;> rw [hneg] at hy'
    · have := toInt_lt_of_isNegative hy hx hy'.symm hneg
      rw [if_neg Bool.false_ne_true]
      omega
    · have := toInt_lt_of_isNegative hx hy hneg hy'.symm
      rw [if_pos rfl]
      omega

/-! ## Sums and differences of absolute values -/

omit hy in
/-- Changing the sign where it differs gives the magnitude with the wanted sign. -/
theorem setSign_spec :
    Yields (if x.isNegative = isNegative then some x else neg x)
      (signed isNegative x.magnitude) := by
  refine returns_ite (fun h => ⟨hx, by rw [toInt, h]⟩) fun h => (neg_spec hx).of_eq ?_
  rw [toInt, ← signed_not, Bool.not_eq.mpr h]

/-- `_absAddSetSign` for operands in order of length: the sum of the magnitudes with the given
sign. -/
theorem absAddShorter_spec (hle : y.used ≤ x.used) (hsign : x.used = 0 → isNegative = false) :
    Yields (absAddShorter x y isNegative) (signed isNegative (x.magnitude + y.magnitude)) := by
  unfold absAddShorter
  refine returns_ite (fun hzero => ?_) fun hxused => ?_
  · have hmx := hx.magnitude_eq_zero_iff.mpr hzero
    have hmy := hy.magnitude_eq_zero_iff.mpr (by omega)
    rw [hmx, hmy, hsign hzero]
    exact ⟨IsNormal.isNormal_zero, rfl⟩
  · refine returns_ite (fun hzero => ?_) fun hyused => ?_
    · rw [hy.magnitude_eq_zero_iff.mpr hzero, Nat.add_zero]
      exact setSign_spec hx
    refine (absAdd_spec (x := .array x.digits) (y := .array y.digits) hx.isDigits hy.isDigits hle
      (by omega) hx.used_le hy.used_le (by rw [length_newDigits]; omega)
      isDigits_newDigits).bind ?_
    rintro r ⟨hw, hvalue⟩
    exact (make_of_writes hw le_rfl le_rfl).of_eq (congrArg _ hvalue)

/-- **`_absAddSetSign`.** -/
theorem absAddSetSign_spec (hsign : x.used = 0 → y.used = 0 → isNegative = false) :
    Yields (absAddSetSign x y isNegative) (signed isNegative (x.magnitude + y.magnitude)) := by
  refine returns_ite (fun hlt => ?_) fun hle => ?_
  · rw [Nat.add_comm]
    exact absAddShorter_spec hy hx hlt.le fun h => absurd hlt (by omega)
  · exact absAddShorter_spec hx hy (Nat.not_lt.mp hle) fun h => hsign h (by omega)

/-- **`_absSubSetSign`.** -/
theorem absSubSetSign_spec (hle : y.magnitude ≤ x.magnitude)
    (hsign : x.used = 0 → isNegative = false) :
    Yields (absSubSetSign x y isNegative) (signed isNegative (x.magnitude - y.magnitude)) := by
  unfold absSubSetSign
  refine (absCompare_spec hx hy).bind fun c hc => ?_
  refine returns_bind_of_eq (if_pos (by unfold Compares at hc; omega)) ?_
  refine returns_ite (fun hzero => ?_) fun hxused => ?_
  · have hmx := hx.magnitude_eq_zero_iff.mpr hzero
    rw [hmx, Nat.zero_sub, hsign hzero]
    exact ⟨IsNormal.isNormal_zero, rfl⟩
  refine returns_ite (fun hzero => ?_) fun hyused => ?_
  · rw [hy.magnitude_eq_zero_iff.mpr hzero, Nat.sub_zero]
    exact setSign_spec hx
  have hused : y.used ≤ x.used := by
    by_contra hlt
    have := hx.magnitude_lt_of_used_lt hy (Nat.not_le.mp hlt)
    omega
  refine (absSub_spec (x := .array x.digits) (y := .array y.digits) hx.isDigits hused
    (by omega) hx.used_le hy.used_le (by rw [length_newDigits]; omega)
    isDigits_newDigits hle).bind ?_
  rintro r ⟨hw, hvalue⟩
  exact (make_of_writes hw le_rfl le_rfl).of_eq (congrArg _ hvalue)

/-! ## The operators -/

/-- The difference of two absolute values, with the sign of the greater one. -/
theorem absDifference_spec (hxused : x.used ≠ 0) (hyused : y.used ≠ 0) : Yields (do
      if 0 ≤ (← absCompare x y) then absSubSetSign x y isNegative
      else absSubSetSign y x (!isNegative))
      (signed isNegative x.magnitude - signed isNegative y.magnitude) := by
  refine (absCompare_spec hx hy).bind fun c hc => ?_
  unfold Compares at hc
  refine returns_ite (fun hge => ?_) fun hlt => ?_
  · have hle : y.magnitude ≤ x.magnitude := by omega
    refine (absSubSetSign_spec hx hy hle fun h => absurd h hxused).of_eq ?_
    cases isNegative <;> simp [signed] <;> omega
  · have hle : x.magnitude ≤ y.magnitude := by omega
    refine (absSubSetSign_spec hy hx hle fun h => absurd h hyused).of_eq ?_
    cases isNegative <;> simp [signed] <;> omega

/-- **`operator +`** adds. -/
theorem add_spec : Yields (add x y) (x.toInt + y.toInt) := by
  unfold add
  refine hx.yields_ite_zero (fun h => ⟨hy, by rw [h, zero_add]⟩) fun hxz => ?_
  refine hy.yields_ite_zero (fun h => ⟨hx, by rw [h, add_zero]⟩) fun hyz => ?_
  refine returns_ite (fun hsign => ?_) fun hsign => ?_
  · refine (absAddSetSign_spec hx hy fun h => absurd h hxz).of_eq ?_
    rw [toInt, toInt, ← hsign, signed_add]
  · refine (absDifference_spec hx hy hxz hyz).of_eq ?_
    rw [toInt, toInt, ← Bool.not_eq.mpr hsign, signed_not]
    omega

/-- **`operator -`** subtracts. -/
theorem sub_spec : Yields (sub x y) (x.toInt - y.toInt) := by
  unfold sub
  refine hx.yields_ite_zero (fun h => (neg_spec hy).of_eq (by rw [h, zero_sub])) fun hxz => ?_
  refine hy.yields_ite_zero (fun h => ⟨hx, by rw [h, sub_zero]⟩) fun hyz => ?_
  refine returns_ite (fun hsign => ?_) fun hsign => ?_
  · refine (absAddSetSign_spec hx hy fun h => absurd h hxz).of_eq ?_
    rw [toInt, toInt, ← Bool.not_eq.mpr hsign, signed_not, signed_add, sub_neg_eq_add]
  · refine (absDifference_spec hx hy hxz hyz).of_eq ?_
    rw [toInt, toInt, ← not_not.mp hsign]

/-- **`operator *`** multiplies. -/
theorem mul_spec : Yields (mul x y) (x.toInt * y.toInt) := by
  unfold mul
  refine returns_ite (fun hzero => ⟨IsNormal.isNormal_zero, ?_⟩) fun _ => ?_
  · have hfactor : x.toInt = 0 ∨ y.toInt = 0 := by
      rw [hx.toInt_eq_zero_iff, hy.toInt_eq_zero_iff]
      simpa using hzero
    rw [IsNormal.toInt_zero, eq_comm, mul_eq_zero]
    exact hfactor
  rw [toInt, toInt, ← signed_mul]
  -- After `i` digits of the multiplier, the result is the product with these digits.
  refine (returns_up (fun i r => Writes 0 (x.used + y.used) (newDigits (x.used + y.used)) r ∧
    valueOf r (x.used + y.used) = x.magnitude * valueOf y.digits i)
    ⟨Writes.refl, by rw [valueOf_zero, mul_zero]; exact value_eq_zero fun i _ => digitAt_newDigits⟩
    ?_).bind ?_
  · rintro i r - hi ⟨hw, hvalue⟩
    have hprod : valueOf r (x.used + y.used)
        + digitAt y.digits i * valueFrom x.digits 0 x.used * digitBase ^ i =
          x.magnitude * valueOf y.digits (i + 1) := by
      rw [hvalue, valueOf_succ, valueFrom_zero, magnitude]
      ring
    have hroom : x.magnitude * valueOf y.digits (i + 1) < digitBase ^ (x.used + y.used) :=
      calc x.magnitude * valueOf y.digits (i + 1)
          < digitBase ^ x.used * digitBase ^ (i + 1) :=
            Nat.mul_lt_mul'' hx.magnitude_lt hy.isDigits.valueOf_lt
        _ = digitBase ^ (x.used + (i + 1)) := (pow_add _ _ _).symm
        _ ≤ digitBase ^ (x.used + y.used) := Nat.pow_le_pow_right digitBase_pos (by omega)
    have hlen := hy.used_le
    have hxlen := hx.used_le
    refine (mulAdd_spec (l := x.used + y.used) hy.isDigits hx.isDigits
      (hw.isDigits isDigits_newDigits) (by omega) (by rwa [Nat.zero_add]) (by omega)
      (by rw [hw.length_eq, length_newDigits]; omega)
      (by rw [hprod]; exact hroom)).mono ?_
    rintro r' ⟨hw', hvalue'⟩
    exact ⟨hw.trans hw' (by omega), hvalue'.trans hprod⟩
  · rintro r ⟨hw, hvalue⟩
    rw [Nat.zero_add] at hvalue
    exact (make_of_writes hw le_rfl le_rfl).of_eq (congrArg _ hvalue)

end DartVm.BigInt
