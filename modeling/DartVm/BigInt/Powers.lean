import DartVm.BigInt.Correct

/-! # Powers of big integers

* `pow_correct`: squaring and multiplying gives the power. -/

namespace DartVm.BigInt

open Postcondition BigIntImpl IsNormal

/-- The loop of `pow`: exponentiation by squaring. -/
def BigIntImpl.powLoop (result base : BigIntImpl) (exponent : ℕ) : Option BigIntImpl :=
  if _h : exponent = 0 then some result
  else do
    let result ← (if exponent % 2 = 1 then mul result base else some result)
    let base ← (if exponent / 2 ≠ 0 then mul base base else some base)
    powLoop result base (exponent / 2)
termination_by exponent

/-- `pow`: a negative exponent throws. -/
def BigIntImpl.pow (x : BigIntImpl) (exponent : ℤ) : Option BigIntImpl := do
  guard (0 ≤ exponent)
  if exponent = 0 then return one
  powLoop one x exponent.toNat

/-- The loop keeps `result` times the power of `base` that is left. -/
theorem powLoop_spec {x y : BigIntImpl} (hx : x.IsNormal) (hy : y.IsNormal) (n : ℕ) :
    Yields (powLoop y x n) (y.toInt * x.toInt ^ n) := by
  induction n using Nat.strongRecOn generalizing x y with
  | _ n ih =>
    rw [powLoop]
    split
    · next hn => exact ⟨hy, by rw [hn, pow_zero, mul_one]⟩
    have hmul : Yields (if n % 2 = 1 then mul y x else some y) (y.toInt * x.toInt ^ (n % 2)) := by
      refine returns_ite (fun h1 => ?_) fun h0 => ⟨hy, ?_⟩
      · exact (mul_spec hy hx).of_eq (by rw [h1, pow_one])
      · rw [Nat.mod_two_ne_one.mp h0, pow_zero, mul_one]
    have hsquare : Returns False (if n / 2 ≠ 0 then mul x x else some x) fun r =>
        r.IsNormal ∧ r.toInt ^ (n / 2) = (x.toInt ^ 2) ^ (n / 2) := by
      refine returns_ite (fun _ => (mul_spec hx hx).mono ?_) fun h0 => ⟨hx, ?_⟩
      · rintro r ⟨hr, hvalue⟩
        exact ⟨hr, by rw [hvalue, sq]⟩
      · rw [not_not.mp h0, pow_zero, pow_zero]
    refine hmul.bind fun y' hy' hvalue => hsquare.bind ?_
    rintro x' ⟨hx', hpow⟩
    refine (ih (n / 2) (by omega) hx' hy').of_eq ?_
    rw [hvalue, hpow, ← pow_mul, mul_assoc, ← pow_add, Nat.mod_add_div]

/-- **`pow` returns the power.** -/
theorem pow_correct (a : NormalForm) (n : ℕ) : Yields (pow a.toBigIntImpl n) (a.toInt ^ n) := by
  refine returns_bind_of_eq (if_pos (Int.natCast_nonneg n)) ?_
  refine returns_ite (fun h0 => ⟨isNormal_one, ?_⟩) fun _ => ?_
  · rw [Int.natCast_eq_zero.mp h0, pow_zero, toInt_one]
  · refine (powLoop_spec a.isNormal isNormal_one n).of_eq ?_
    rw [toInt_one, one_mul]

end DartVm.BigInt
