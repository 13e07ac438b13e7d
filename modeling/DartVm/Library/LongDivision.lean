import Mathlib.Tactic.Linarith
import Mathlib.Tactic.Ring

/-! # Long division in one register

Schoolbook division in base `b` by a divisor `y` of `n` digits.  A single number `v` holds the
quotient found so far above the current remainder; `Divided b n y x j v` says so when `j` digits of
the quotient are missing.

A step for `s` digits adds a multiple of `b ^ n - y`, which also puts the digits of the quotient in
their place.  It may try any estimate that is not too small: the digits at that place are then below
the estimate exactly if it was too large.

* `digits_of_estimate`: an estimate shows whether it was too large.
* `Divided.step`: one step of the division.
* `Divided.result`: its end. -/

namespace DartVm.LongDivision

open Nat

variable {b n y x j s v q t k : ℕ}

/-- `v` is the quotient of `x` by `y` without its last `j` digits, above the remainder. -/
structure Divided (b n y x j v : ℕ) : Prop where
  rem_lt : v % b ^ (j + n) < y * b ^ j
  eq : x = v / b ^ (j + n) * b ^ j * y + v % b ^ (j + n)

/-- The next `s` digits of the quotient, when `j` digits are missing after them. -/
def nextDigits (b n y j s v : ℕ) : ℕ := v % b ^ (j + s + n) / (y * b ^ j)

/-- The register after a step with the estimate `q`. -/
def tryDigits (b n y j v q : ℕ) : ℕ := v + q * (b ^ n - y) * b ^ j

/-- One more multiple of the divisor is taken off. -/
theorem tryDigits_succ :
    tryDigits b n y j v (q + 1) = tryDigits b n y j v q + (b ^ n - y) * b ^ j := by
  unfold tryDigits
  ring

/-- **The register after a step**: the estimate is added to the quotient, and its multiple of `y`
taken from the remainder. -/
theorem tryDigits_add (hyn : y ≤ b ^ n) : tryDigits b n y j v q + q * (y * b ^ j)
    = v / b ^ (j + s + n) * b ^ (j + s + n) + (v % b ^ (j + s + n) + q * b ^ (j + n)) := by
  have hv := div_add_mod' v (b ^ (j + s + n))
  have hsub : b ^ n - y + y = b ^ n := Nat.sub_add_cancel hyn
  unfold tryDigits
  calc v + q * (b ^ n - y) * b ^ j + q * (y * b ^ j) = v + q * (b ^ n - y + y) * b ^ j := by ring
    _ = v + q * b ^ (j + n) := by rw [hsub, pow_add]; ring
    _ = _ := by omega

/-- The next digits of the quotient are below the base. -/
theorem Divided.nextDigits_lt (h : Divided b n y x (j + s) v) : nextDigits b n y j s v < b ^ s := by
  refine Nat.div_lt_of_lt_mul ?_
  have := h.rem_lt
  rwa [pow_add b j s, ← Nat.mul_assoc] at this

section Step

variable (hb : 0 < b) (hy : 0 < y) (hyn : y ≤ b ^ n)

include hb hy hyn

/-- A step with an estimate that is not too small: new digits `t` at the place `e`, above a
remainder. -/
theorem exists_digits (hq : nextDigits b n y j s v ≤ q) : ∃ t r,
    tryDigits b n y j v q = (v / b ^ (j + s + n) * b ^ s + t) * b ^ (j + n) + r ∧
      r < b ^ (j + n) ∧ t ≤ q ∧ (t < q ↔ nextDigits b n y j s v < q) ∧
      (q = nextDigits b n y j s v → r = v % b ^ (j + s + n) % (y * b ^ j)) := by
  have hm : 0 < y * b ^ j := Nat.mul_pos hy (Nat.pow_pos hb)
  have hE : 0 < b ^ (j + n) := Nat.pow_pos hb
  have hle : y * b ^ j ≤ b ^ (j + n) := by
    rw [pow_add, mul_comm]
    exact mul_le_mul_left _ hyn
  have hD : b ^ (j + s + n) = b ^ s * b ^ (j + n) := by
    rw [← pow_add]
    congr 1
    omega
  have hadd : tryDigits b n y j v q + q * (y * b ^ j)
      = v / b ^ (j + s + n) * b ^ s * b ^ (j + n)
        + (v % b ^ (j + s + n) + q * b ^ (j + n)) := by
    rw [tryDigits_add (s := s) hyn, mul_assoc, ← hD]
  have hrem := mod_lt (v % b ^ (j + s + n)) hm
  have hparts : nextDigits b n y j s v * (y * b ^ j) + v % b ^ (j + s + n) % (y * b ^ j)
      = v % b ^ (j + s + n) := div_add_mod' _ _
  generalize v % b ^ (j + s + n) % (y * b ^ j) = w at *
  generalize v % b ^ (j + s + n) = r at *
  generalize v / b ^ (j + s + n) * b ^ s = u at *
  generalize nextDigits b n y j s v = q₀ at *
  generalize tryDigits b n y j v q = t at *
  generalize y * b ^ j = m at *
  generalize b ^ (j + n) = e at *
  rcases eq_or_lt_of_le hq with rfl | hlt
  · -- The estimate is exact: what is left is a remainder.
    refine ⟨q₀, w, ?_, by omega, le_rfl, by simp, fun _ => rfl⟩
    rw [add_mul]
    omega
  · -- Too much was taken from the remainder, so something is missing from the digits.
    obtain ⟨k, rfl⟩ := Nat.exists_eq_add_of_lt hlt
    have hut : e * u ≤ t := by nlinarith
    obtain ⟨d, rfl⟩ := Nat.exists_eq_add_of_le hut
    have hd : d < e * (q₀ + k + 1) := by nlinarith
    refine ⟨d / e, d % e, ?_, mod_lt _ hE, (Nat.div_lt_of_lt_mul hd).le,
      iff_of_true (Nat.div_lt_of_lt_mul hd) hlt, fun h => by omega⟩
    have := div_add_mod' d e
    rw [add_mul, add_assoc, this, mul_comm]

/-- **An estimate shows whether it was too large**: the digits at its place are at most the
estimate, and below it exactly if it is greater than the next digits. -/
theorem digits_of_estimate (hq : nextDigits b n y j s v ≤ q) (hqs : q < b ^ s) :
    tryDigits b n y j v q / b ^ (j + n) % b ^ s ≤ q ∧
      (tryDigits b n y j v q / b ^ (j + n) % b ^ s < q ↔ nextDigits b n y j s v < q) ∧
      tryDigits b n y j v q / b ^ (j + s + n) = v / b ^ (j + s + n) := by
  obtain ⟨t, r, heq, hr, htq, hlt, -⟩ := exists_digits hb hy hyn hq
  have hdiv : tryDigits b n y j v q / b ^ (j + n) = v / b ^ (j + s + n) * b ^ s + t := by
    rw [heq, Nat.mul_comm, mul_add_div (Nat.pow_pos hb), div_eq_of_lt hr, Nat.add_zero]
  have hmod : tryDigits b n y j v q / b ^ (j + n) % b ^ s = t := by
    rw [hdiv, Nat.mul_comm, mul_add_mod, mod_eq_of_lt (by omega)]
  refine ⟨by rw [hmod]; exact htq, by rw [hmod]; exact hlt, ?_⟩
  rw [show j + s + n = j + n + s by omega, pow_add b (j + n) s, ← Nat.div_div_eq_div_mul, hdiv,
    Nat.mul_comm, mul_add_div (Nat.pow_pos hb), div_eq_of_lt (by omega : t < b ^ s),
    Nat.add_zero, show j + s + n = j + n + s by omega, pow_add]

/-- **A step with the next digits** leaves a remainder. -/
theorem Divided.step (h : Divided b n y x (j + s) v) :
    Divided b n y x j (tryDigits b n y j v (nextDigits b n y j s v)) := by
  obtain ⟨t, r, heq, hr, htq, hlt, hrem⟩ :=
    exists_digits hb hy hyn (le_refl (nextDigits b n y j s v))
  obtain rfl : t = nextDigits b n y j s v := by omega
  have hm : 0 < y * b ^ j := Nat.mul_pos hy (Nat.pow_pos hb)
  have hmod : tryDigits b n y j v (nextDigits b n y j s v) % b ^ (j + n) = r := by
    rw [heq, mul_comm, mul_add_mod, mod_eq_of_lt hr]
  have hdiv : tryDigits b n y j v (nextDigits b n y j s v) / b ^ (j + n)
      = v / b ^ (j + s + n) * b ^ s + nextDigits b n y j s v := by
    rw [heq, Nat.mul_comm, mul_add_div (Nat.pow_pos hb), div_eq_of_lt hr, Nat.add_zero]
  have hparts : nextDigits b n y j s v * (y * b ^ j) + r = v % b ^ (j + s + n) := by
    rw [hrem rfl]
    exact div_add_mod' _ _
  refine ⟨?_, ?_⟩
  · rw [hmod, hrem rfl]
    exact mod_lt _ hm
  · rw [hmod, hdiv, h.eq, ← hparts, pow_add b j s]
    ring

end Step

/-- **The end of the division.** -/
theorem Divided.result (h : Divided b n y x 0 v) : v / b ^ n = x / y ∧ v % b ^ n = x % y := by
  have hlt := h.rem_lt
  have heq := h.eq
  rw [zero_add, pow_zero, mul_one] at hlt heq
  constructor
  · refine (Nat.div_eq_of_lt_le ?_ ?_).symm
    · exact heq ▸ Nat.le_add_right _ _
    · rw [succ_mul]
      omega
  · rw [heq, mul_comm, mul_add_mod, mod_eq_of_lt hlt]

/-- **The digits at the top bound the next digits**: their product with a leading part `t` of the
divisor is at most the remainder's. -/
theorem nextDigits_mul_le (hb : 0 < b) (ht : t * b ^ k ≤ y) :
    nextDigits b n y j s v * t ≤ v % b ^ (j + s + n) / b ^ (j + k) := by
  rw [Nat.le_div_iff_mul_le (Nat.pow_pos hb)]
  calc nextDigits b n y j s v * t * b ^ (j + k)
      = nextDigits b n y j s v * (t * b ^ k * b ^ j) := by rw [pow_add]; ring
    _ ≤ nextDigits b n y j s v * (y * b ^ j) :=
        Nat.mul_le_mul_left _ (Nat.mul_le_mul_right _ ht)
    _ ≤ v % b ^ (j + s + n) := div_mul_le_self _ _

/-- The leading digits of the remainder are not above those of the divisor. -/
theorem Divided.top_le (h : Divided b n y x (j + s) v) (hn : n = k + s)
    (ht : y < (t + 1) * b ^ k) : v % b ^ (j + s + n) / b ^ (j + n) ≤ t := by
  refine le_of_lt_succ (Nat.div_lt_of_lt_mul (h.rem_lt.trans_le ?_))
  calc y * b ^ (j + s) ≤ (t + 1) * b ^ k * b ^ (j + s) := Nat.mul_le_mul_right _ ht.le
    _ = b ^ (j + n) * (t + 1) := by rw [hn, pow_add, pow_add, pow_add]; ring

end DartVm.LongDivision
