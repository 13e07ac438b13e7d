import Mathlib.Algebra.BigOperators.Ring.Finset
import Mathlib.Tactic.Linarith
import Mathlib.Tactic.Ring

/-! # Positional numbers

`value b f n` is the number with the digits `f 0, …, f (n - 1)` in base `b`, the least significant
one first.  As digits are given by a function, a part of a number is the value of a shifted
function.  The lemmas say how values split, how large they are, their order and, for a power of two,
their bits.

* `value_add`, `value_mod`, `value_div`: splitting a number.
* `value_lt`, `value_lt_value`: its size and order.
* `testBit_value`: its bits. -/

namespace DartVm.Positional

open Finset Nat

variable {b m n : ℕ} {f g : ℕ → ℕ}

/-- The number with the digits `f 0, …, f (n - 1)` in base `b`. -/
def value (b : ℕ) (f : ℕ → ℕ) (n : ℕ) : ℕ := ∑ i ∈ range n, f i * b ^ i

@[simp] theorem value_zero : value b f 0 = 0 := rfl

/-- A number with one more digit at the high end. -/
theorem value_succ : value b f (n + 1) = value b f n + f n * b ^ n := sum_range_succ _ _

@[simp] theorem value_one : value b f 1 = f 0 := by simp [value]

/-- The value depends on the digits only. -/
theorem value_congr (h : ∀ i < n, f i = g i) : value b f n = value b g n :=
  sum_congr rfl fun i hi => by rw [h i (mem_range.mp hi)]

/-- The digits of a number, split into a low and a high part. -/
theorem value_add : value b f (m + n) = value b f m + b ^ m * value b (fun i => f (m + i)) n := by
  unfold value
  rw [sum_range_add, mul_sum]
  congr 1
  refine sum_congr rfl fun i _ => ?_
  ring

/-- A number with one more digit at the low end. -/
theorem value_succ' : value b f (n + 1) = f 0 + b * value b (fun i => f (i + 1)) n := by
  rw [add_comm n 1, value_add, value_one, pow_one]
  simp only [add_comm 1]

/-- Zero digits are zero. -/
theorem value_eq_zero (h : ∀ i < n, f i = 0) : value b f n = 0 :=
  sum_eq_zero fun i hi => by rw [h i (mem_range.mp hi), zero_mul]

/-- Leading zeros do not matter. -/
theorem value_of_zeros (hmn : m ≤ n) (h : ∀ i, m ≤ i → i < n → f i = 0) :
    value b f n = value b f m := by
  obtain ⟨k, rfl⟩ := Nat.exists_eq_add_of_le hmn
  rw [value_add, value_eq_zero fun i hi => h (m + i) (by omega) (by omega), mul_zero, add_zero]

/-- More digits are a larger number. -/
theorem value_mono (hmn : m ≤ n) : value b f m ≤ value b f n := by
  obtain ⟨k, rfl⟩ := Nat.exists_eq_add_of_le hmn
  rw [value_add]
  exact le_add_right _ _

/-- A number is at least the value of each of its digits. -/
theorem mul_pow_le_value {i : ℕ} (hi : i < n) : f i * b ^ i ≤ value b f n :=
  calc f i * b ^ i ≤ value b f (i + 1) := by rw [value_succ]; exact le_add_left _ _
    _ ≤ value b f n := value_mono hi

/-- **The size of a number.** -/
theorem value_lt (h : ∀ i < n, f i < b) : value b f n < b ^ n := by
  induction n with
  | zero => simp
  | succ n ih =>
    rw [value_succ, pow_succ]
    have hlow := ih fun i hi => h i (by omega)
    have htop : f n + 1 ≤ b := h n (by omega)
    calc value b f n + f n * b ^ n < b ^ n + f n * b ^ n := by omega
      _ = (f n + 1) * b ^ n := by ring
      _ ≤ b * b ^ n := mul_le_mul_right _ htop
      _ = b ^ n * b := mul_comm _ _

/-- The low digits are a remainder. -/
theorem value_mod (hmn : m ≤ n) (h : ∀ i < m, f i < b) : value b f n % b ^ m = value b f m := by
  obtain ⟨k, rfl⟩ := Nat.exists_eq_add_of_le hmn
  rw [value_add, add_mul_mod_self_left, mod_eq_of_lt (value_lt h)]

/-- The high digits are a quotient. -/
theorem value_div (h : ∀ i < m, f i < b) (hb : 0 < b) :
    value b f (m + n) / b ^ m = value b (fun i => f (m + i)) n := by
  rw [value_add, Nat.add_mul_div_left _ _ (Nat.pow_pos hb), Nat.div_eq_of_lt (value_lt h), zero_add]

/-- **Numbers are ordered by their highest different digit.** -/
theorem value_lt_value (h : ∀ i < m, f i < b) (hm : m < n) (hdigit : f m < g m)
    (htop : ∀ i, m < i → i < n → f i = g i) : value b f n < value b g n := by
  obtain ⟨k, rfl⟩ := Nat.exists_eq_add_of_lt hm
  have hhigh : value b (fun i => f (m + 1 + i)) k = value b (fun i => g (m + 1 + i)) k :=
    value_congr fun i hi => htop _ (by omega) (by omega)
  rw [show m + k + 1 = m + 1 + k by omega, value_add, value_add (f := g), hhigh]
  refine Nat.add_lt_add_right ?_ _
  rw [value_succ, value_succ]
  calc value b f m + f m * b ^ m < b ^ m + f m * b ^ m := Nat.add_lt_add_right (value_lt h) _
    _ = (f m + 1) * b ^ m := by ring
    _ ≤ g m * b ^ m := mul_le_mul_right _ hdigit
    _ ≤ value b g m + g m * b ^ m := le_add_left _ _

/-- A number with a leading digit is at least the power it stands at. -/
theorem pow_le_value (h : f n ≠ 0) : b ^ n ≤ value b f (n + 1) :=
  calc b ^ n = 1 * b ^ n := (one_mul _).symm
    _ ≤ f n * b ^ n := mul_le_mul_right _ (pos_of_ne_zero h)
    _ ≤ value b f (n + 1) := mul_pow_le_value (lt_succ_self n)

/-! ## Bits -/

variable {w : ℕ}

/-- **The bits of a number** in a base that is a power of two are the bits of its digits. -/
theorem testBit_value (h : ∀ i < n, f i < 2 ^ w) (hw : 0 < w) (k : ℕ) :
    (value (2 ^ w) f n).testBit k = (decide (k / w < n) && (f (k / w)).testBit (k % w)) := by
  induction n with
  | zero => simp
  | succ n ih =>
    have hlow : value (2 ^ w) f n < 2 ^ (w * n) := by
      rw [pow_mul]
      exact value_lt fun i hi => h i (by omega)
    rw [value_succ, ← pow_mul, add_comm, mul_comm (f n),
      testBit_two_pow_mul_add _ hlow, ih fun i hi => h i (by omega)]
    by_cases hk : k < w * n
    · have hkn : k / w < n := Nat.div_lt_of_lt_mul hk
      rw [if_pos hk, decide_eq_true hkn, decide_eq_true (lt_succ_of_lt hkn)]
    rw [if_neg hk]
    -- The bit is one of the highest digit, or lies above it.
    have hkn : n ≤ k / w := by
      rw [le_div_iff_mul_le hw, mul_comm]
      omega
    rcases eq_or_lt_of_le hkn with heq | hlt
    · have hmod : k - w * n = k % w := by
        have := div_add_mod k w
        rw [← heq] at this
        omega
      rw [hmod, ← heq, decide_eq_true (lt_succ_self n), Bool.true_and]
    · rw [decide_eq_false (by omega), Bool.false_and]
      refine testBit_lt_two_pow ((h n (by omega)).trans_le ?_)
      have hbit : w * (n + 1) ≤ k := by
        calc w * (n + 1) ≤ w * (k / w) := mul_le_mul_left _ hlt
          _ ≤ k := mul_div_le k w
      exact Nat.pow_le_pow_right (by norm_num) (by rw [Nat.mul_add] at hbit; omega)

end DartVm.Positional
