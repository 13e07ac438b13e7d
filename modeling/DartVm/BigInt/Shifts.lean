import DartVm.BigInt.Arithmetic

/-! # Shift operators

A left shift moves digits and then bits.  A right shift drops them, and subtracts one
from a negative result if anything that was dropped is not zero, so that it rounds
towards minus infinity.

* `shiftLeft_spec`: multiplies by a power of two.
* `shiftRight_spec`: divides by a power of two, rounding down. -/

namespace DartVm.BigInt

open Postcondition CountedLoop Positional BigIntImpl

variable {x : BigIntImpl} {isNegative : Bool} {n m p : ℕ} {result : BigIntImpl} {d : Digits}

/-! ## Left shifts -/

/-- Scaling a signed magnitude. -/
theorem signed_mul_natCast (m k : ℕ) : signed isNegative (m * k) = signed isNegative m * k := by
  cases isNegative <;> simp [signed]

/-- `_dlShift` multiplies by a power of the base. -/
theorem dlShift_spec (hx : x.IsNormal) : Yields (dlShift x n) (x.toInt * (digitBase ^ n : ℕ)) := by
  unfold dlShift
  refine returns_ite (fun hzero => ⟨IsNormal.isNormal_zero, ?_⟩) fun _ => ?_
  · rw [hx.toInt_eq_zero_iff.mpr hzero, zero_mul, IsNormal.toInt_zero]
  refine (moveUp_spec (x := .array x.digits) hx.isDigits hx.used_le
    (by rw [length_newDigits]; omega)).bind ?_
  rintro r ⟨hw, hmoved⟩
  refine (make_of_writes hw le_rfl le_rfl).of_eq ?_
  have hlow : ∀ i < n, digitAt r i = 0 := fun i hi => by
    rw [hw.digitAt_eq i (.inl hi), digitAt_newDigits]
  have hhigh : valueFrom r n x.used = x.magnitude :=
    value_congr fun i hi => by rw [Nat.add_comm, hmoved i hi]; rfl
  rw [Nat.add_comm, valueOf_of_zeros_below hlow, hhigh, toInt, signed_mul_natCast]

/-- **`operator <<`** multiplies by a power of two. -/
theorem shiftLeft_spec (hx : x.IsNormal) : Yields (shiftLeft x n) (x.toInt * 2 ^ n) := by
  unfold shiftLeft
  refine hx.yields_ite_zero (fun h => ⟨hx, by rw [h, zero_mul]⟩) fun hxz => ?_
  rw [Int.toNat_natCast]
  have hpow : (2 : ℤ) ^ n = (digitBase ^ (n / digitBits) * 2 ^ (n % digitBits) : ℕ) := by
    rw [← two_pow_eq]
    norm_cast
  refine returns_ite (fun hbits => (dlShift_spec hx).of_eq ?_) fun _ => ?_
  · rw [hpow, hbits, pow_zero, mul_one]
  refine (lsh_spec (x := .array x.digits) hx.isDigits (Nat.pos_of_ne_zero hxz) hx.used_le
    (by rw [length_newDigits]; omega)).bind ?_
  rintro r ⟨hw, hvalue⟩
  refine (make_of_writes hw (Nat.le_succ _) le_rfl).of_eq ?_
  have hlow : ∀ i < n / digitBits, digitAt r i = 0 := fun i hi => by
    rw [hw.digitAt_eq i (.inl hi), digitAt_newDigits]
  rw [show x.used + n / digitBits + 1 = n / digitBits + (x.used + 1) by omega,
    valueOf_of_zeros_below hlow, hvalue, Nat.mul_assoc, Nat.mul_comm (2 ^ (n % digitBits)),
    signed_mul_natCast, hpow]
  rfl

/-! ## Right shifts -/

/-- The loop that looks for a digit that is not zero. -/
theorem anyNonZero_spec {digits : Digits} {count i : ℕ} (h : i + count ≤ digits.length) :
    Returns False (anyNonZero digits count i) fun b =>
      b = false ↔ ∀ k, i ≤ k → k < i + count → digitAt digits k = 0 := by
  induction count generalizing i with
  | zero => exact ⟨fun _ k h1 h2 => absurd h2 (by omega), fun _ => rfl⟩
  | succ count ih =>
    unfold anyNonZero
    refine returns_bind_of_eq (load_eq (by omega)) ?_
    refine returns_ite (fun hne => ?_) fun heq => (ih (by omega)).mono fun b hb => hb.trans ?_
    · exact ⟨fun h => Bool.noConfusion h, fun h => absurd (h i le_rfl (by omega)) hne⟩
    constructor
    · intro h k h1 h2
      rcases Nat.eq_or_lt_of_le h1 with rfl | hlt
      · exact not_not.mp heq
      · exact h k hlt (by omega)
    · exact fun h k h1 h2 => h k (by omega) (by omega)

/-- A number is zero exactly if all its digits are. -/
theorem valueOf_eq_zero_iff : valueOf d n = 0 ↔ ∀ i < n, digitAt d i = 0 := by
  constructor
  · intro h i hi
    have hle := mul_pow_le_value (b := digitBase) (f := digitAt d) hi
    rw [show value digitBase (digitAt d) n = 0 from h, Nat.le_zero, Nat.mul_eq_zero] at hle
    exact hle.resolve_right (Nat.pow_pos digitBase_pos).ne'
  · exact fun h => value_eq_zero h

/-- **Rounding down.** The quotient of a negative number by a power of two. -/
theorem signed_ediv (hp : 0 < p) : signed isNegative m / (p : ℤ)
    = signed isNegative (m / p) - if isNegative = true ∧ m % p ≠ 0 then 1 else 0 := by
  cases isNegative with
  | false => simp [signed]
  | true =>
    have hparts := Nat.div_add_mod m p
    have hlt := Nat.mod_lt m hp
    rw [signed, signed, if_pos rfl, if_pos rfl, Int.ediv_eq_iff_of_pos (by exact_mod_cast hp)]
    by_cases hzero : m % p = 0
    · rw [if_neg (by simp [hzero])]
      zify at hparts hzero ⊢
      constructor <;> nlinarith
    · rw [if_pos ⟨rfl, hzero⟩]
      have hpos : 0 < m % p := Nat.pos_of_ne_zero hzero
      zify at hparts hlt hpos ⊢
      constructor <;> nlinarith

/-- A negative result with something dropped is rounded down by subtracting one. -/
theorem sub_one_spec (hp : 0 < p) (hr : result.IsNormal)
    (hvalue : result.toInt = signed true (m / p)) (hne : m % p ≠ 0) :
    Yields (sub result one) (signed true m / (p : ℤ)) := by
  refine (sub_spec hr IsNormal.isNormal_one).of_eq ?_
  rw [signed_ediv hp, if_pos ⟨rfl, hne⟩, hvalue, IsNormal.toInt_one]

/-- A result of which nothing was dropped, or that is not negative, is not rounded. -/
theorem yields_of_exact (hp : 0 < p) (hr : result.IsNormal)
    (hvalue : result.toInt = signed isNegative (m / p))
    (hexact : isNegative = true → m % p = 0) :
    Yields (some result) (signed isNegative m / (p : ℤ)) := by
  refine ⟨hr, ?_⟩
  rw [signed_ediv hp, if_neg (fun h => h.2 (hexact h.1)), hvalue, sub_zero]

/-- Shifting out all digits leaves zero, or minus one for a negative number. -/
theorem yields_of_lt {p : ℕ} (hx : x.IsNormal) (hxz : x.used ≠ 0) (hlt : x.magnitude < p) :
    Yields (some (if x.isNegative then minusOne else zero)) (x.toInt / (p : ℤ)) := by
  have hpos := hx.magnitude_pos hxz
  rw [toInt, signed_ediv (by omega), Nat.div_eq_of_lt hlt, Nat.mod_eq_of_lt hlt]
  cases x.isNegative with
  | false => exact ⟨IsNormal.isNormal_zero, IsNormal.toInt_zero⟩
  | true =>
    rw [if_pos rfl, if_pos ⟨rfl, hpos.ne'⟩]
    exact ⟨IsNormal.isNormal_minusOne, IsNormal.toInt_minusOne⟩

/-- `_drShift` divides by a power of the base, rounding down. -/
theorem drShift_spec (hx : x.IsNormal) : Yields (drShift x n) (x.toInt / (digitBase ^ n : ℕ)) := by
  have hp : 0 < digitBase ^ n := Nat.pow_pos digitBase_pos
  unfold drShift
  refine returns_ite (fun hzero => ⟨IsNormal.isNormal_zero, ?_⟩) fun hxz => ?_
  · rw [hx.toInt_eq_zero_iff.mpr hzero, Int.zero_ediv, IsNormal.toInt_zero]
  refine returns_ite (fun hle => ?_) fun hlt => ?_
  · exact yields_of_lt hx hxz
      (hx.magnitude_lt.trans_le (Nat.pow_le_pow_right digitBase_pos hle))
  have hxlen := hx.used_le
  refine (fillDigits_spec (by rw [length_newDigits]; exact Nat.le_add_right _ _)
    (fun i _ hi => ⟨load_eq (by omega), hx.isDigits _⟩)).bind ?_
  rintro r ⟨hw, hr⟩
  have hquotient : valueOf r (x.used - n) = x.magnitude / digitBase ^ n := by
    rw [magnitude]
    conv_rhs => rw [valueOf, ← Nat.add_sub_cancel' (Nat.not_le.mp hlt).le]
    rw [value_div (fun i _ => hx.isDigits i) digitBase_pos]
    exact value_congr fun i hi => by rw [hr i (Nat.zero_le i) hi, Nat.add_comm]
  have hremainder : x.magnitude % digitBase ^ n = valueOf x.digits n :=
    value_mod (Nat.not_le.mp hlt).le fun i _ => hx.isDigits i
  refine (make_of_writes hw le_rfl le_rfl).bind fun result hresult hvalue => ?_
  rw [hquotient] at hvalue
  refine returns_ite (fun hneg => ?_) fun hpos => ?_
  · rw [hneg] at hvalue
    rw [toInt, hneg]
    refine (anyNonZero_spec (by omega)).bind fun b hb => ?_
    simp only [Nat.zero_le, forall_const, Nat.zero_add, ← valueOf_eq_zero_iff, ← hremainder] at hb
    refine returns_ite (fun htrue => ?_) fun hfalse => ?_
    · exact sub_one_spec hp hresult hvalue fun h => by simp [hb.mpr h] at htrue
    · exact yields_of_exact hp hresult hvalue fun _ => hb.mp ((Bool.not_eq_true _).mp hfalse)
  · exact yields_of_exact hp hresult hvalue fun hneg => absurd hneg hpos

/-- What a shift drops: the digits below, and the low bits of the next one. -/
theorem valueOf_mod_two_pow {used : ℕ} (hd : IsDigits d) (hlt : n / digitBits < used) :
    valueOf d used % 2 ^ n = valueOf d (n / digitBits)
      + digitBase ^ (n / digitBits) * (digitAt d (n / digitBits) % 2 ^ (n % digitBits)) := by
  have hbase : digitBase = 2 ^ (n % digitBits) * 2 ^ (digitBits - n % digitBits) := by
    rw [Nat.mul_comm, pow_mul_pow_digitBits mod_digitBits_lt.le]
  obtain ⟨k, hk⟩ := Nat.exists_eq_add_of_lt hlt
  have hlow : valueOf d used % digitBase ^ (n / digitBits) = valueOf d (n / digitBits) :=
    value_mod hlt.le fun i _ => hd i
  have hhigh : valueOf d used / digitBase ^ (n / digitBits)
      = digitAt d (n / digitBits) + 2 ^ (n % digitBits) * (2 ^ (digitBits - n % digitBits)
        * value digitBase (fun i => digitAt d (n / digitBits + (i + 1))) k) := by
    rw [hk, Nat.add_assoc, valueOf, value_div (fun i _ => hd i) digitBase_pos, value_succ',
      Nat.add_zero, ← Nat.mul_assoc, ← hbase]
  rw [two_pow_eq n, Nat.mod_mul, hlow, hhigh, Nat.add_mul_mod_self_left]

/-- **`operator >>`** divides by a power of two, rounding towards minus infinity. -/
theorem shiftRight_spec (hx : x.IsNormal) : Yields (shiftRight x n) (x.toInt / 2 ^ n) := by
  have hp : 0 < 2 ^ n := by positivity
  have hcast : (2 : ℤ) ^ n = (2 ^ n : ℕ) := by norm_cast
  rw [hcast]
  unfold shiftRight
  refine hx.yields_ite_zero (fun h => ⟨hx, by rw [h, Int.zero_ediv]⟩) fun hxz => ?_
  rw [Int.toNat_natCast]
  refine returns_ite (fun hbits => (drShift_spec hx).of_eq ?_) fun _ => ?_
  · rw [two_pow_eq n, hbits, pow_zero, mul_one]
  -- All digits are dropped, or some are left.
  refine returns_ite (fun hle => ?_) fun hlt => ?_
  · refine yields_of_lt hx hxz (hx.magnitude_lt.trans_le ?_)
    calc digitBase ^ x.used ≤ digitBase ^ (n / digitBits) :=
          Nat.pow_le_pow_right digitBase_pos hle
      _ ≤ 2 ^ n := by
          rw [two_pow_eq n]
          exact Nat.le_mul_of_pos_right _ (by positivity)
  refine (rsh_spec (x := .array x.digits) hx.isDigits (Nat.not_le.mp hlt) hx.used_le
    (by rw [length_newDigits]; exact Nat.le_add_right _ _)).bind ?_
  rintro r ⟨hw, hquotient⟩
  refine (make_of_writes hw le_rfl le_rfl).bind fun result hresult hvalue => ?_
  rw [hquotient] at hvalue
  have hdropped := valueOf_mod_two_pow hx.isDigits (Nat.not_le.mp hlt)
  have hxlen := hx.used_le
  -- A negative quotient is corrected if one of the dropped bits is set.
  refine returns_ite (fun hneg => ?_) fun hpos => ?_
  · rw [hneg] at hvalue
    rw [toInt, hneg]
    refine returns_bind_of_eq (load_eq (by omega)) ?_
    rw [and_mask]
    refine returns_ite (fun hne => ?_) fun hbits => ?_
    · refine sub_one_spec hp hresult hvalue ?_
      have := Nat.mul_pos (Nat.pow_pos (n := n / digitBits) digitBase_pos) (Nat.pos_of_ne_zero hne)
      rw [magnitude]
      omega
    · rw [not_not.mp hbits, Nat.mul_zero, Nat.add_zero] at hdropped
      refine (anyNonZero_spec (by omega)).bind fun b hb => ?_
      simp only [Nat.zero_le, forall_const, Nat.zero_add, ← valueOf_eq_zero_iff, ← hdropped] at hb
      refine returns_ite (fun htrue => ?_) fun hfalse => ?_
      · exact sub_one_spec hp hresult hvalue fun h => by simp [hb.mpr h] at htrue
      · exact yields_of_exact hp hresult hvalue fun _ => hb.mp ((Bool.not_eq_true _).mp hfalse)
  · exact yields_of_exact hp hresult hvalue fun hneg => absurd hneg hpos

end DartVm.BigInt
