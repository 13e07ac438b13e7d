import Mathlib.Data.Nat.ModEq

/-! # Windows of a counter that wraps

A counter `n` is shown modulo `M`.  The last `width` numbers before it form its window; modulo
`width` they are all different, and modulo `M` they are one interval of residues or, after the
counter has wrapped, two.

* `InWindow`: the last `width` values of the counter.
* `InWindow.eq_of_mod_eq`: they are told apart by their residues.
* `exists_inWindow_mod_eq_iff_of_contiguous`, `exists_inWindow_mod_eq_iff_of_wrapped`: the residues,
  before and after the counter wraps. -/

namespace DartVm.CounterWindow

open Nat

/-- `k` is one of the last `width` numbers before `n`. -/
def InWindow (width n k : ℕ) : Prop := k < n ∧ n ≤ k + width

variable {width n k k' M i : ℕ}

/-- Counting on: the newest value enters the window and the oldest leaves it. -/
theorem inWindow_succ_iff (hw : 0 < width) :
    InWindow width (n + 1) k ↔ k = n ∨ InWindow width n k ∧ n < k + width := by
  unfold InWindow
  omega

/-- Fewer than `width` consecutive values are told apart by their remainders. -/
private theorem eq_of_mod_eq_of_le (hle : k ≤ k') (hlt : k' < k + width)
    (h : k % width = k' % width) : k = k' := by
  have hdvd : width ∣ k' - k := (modEq_iff_dvd' hle).mp h
  have hzero : k' - k = 0 := eq_zero_of_dvd_of_lt hdvd (by omega)
  omega

/-- The values of a window are told apart by their remainders. -/
theorem InWindow.eq_of_mod_eq (hk : InWindow width n k) (hk' : InWindow width n k')
    (h : k % width = k' % width) : k = k' := by
  unfold InWindow at hk hk'
  rcases le_total k k' with hle | hle
  · exact eq_of_mod_eq_of_le hle (by omega) h
  · exact (eq_of_mod_eq_of_le hle (by omega) h.symm).symm

/-- Which remainders occur in a window that does not pass a multiple of `M`. -/
theorem exists_inWindow_mod_eq_iff_of_contiguous (hi : i < M) (h : n < M ∨ width ≤ n % M) :
    (∃ k, InWindow width n k ∧ k % M = i) ↔ i < n % M ∧ n % M ≤ i + width := by
  have hn : M * (n / M) + n % M = n := div_add_mod n M
  constructor
  · rintro ⟨k, ⟨hlt, hle⟩, hmod⟩
    have hk : M * (k / M) + k % M = k := div_add_mod k M
    have hround : k / M = n / M := by
      refine Nat.le_antisymm (Nat.div_le_div_right hlt.le) (Nat.le_of_not_lt fun hq => ?_)
      -- Otherwise `k` lies a whole round back, further than the window reaches.
      have hmul : M * (k / M + 1) ≤ M * (n / M) := Nat.mul_le_mul_left M hq
      rw [mul_add, mul_one] at hmul
      rcases h with h | h
      · rw [div_eq_of_lt h] at hq
        exact not_lt_zero _ hq
      · omega
    rw [hround] at hk
    omega
  · rintro ⟨hlt, hle⟩
    exact ⟨M * (n / M) + i, ⟨by omega, by omega⟩, by rw [mul_add_mod, mod_eq_of_lt hi]⟩

/-- Which remainders occur in a window that passes a multiple of `M`. -/
theorem exists_inWindow_mod_eq_iff_of_wrapped (hi : i < M) (hwM : width ≤ M) (hM : M ≤ n)
    (hs : n % M < width) :
    (∃ k, InWindow width n k ∧ k % M = i) ↔ i < n % M ∨ M + n % M ≤ i + width := by
  have hn : M * (n / M) + n % M = n := div_add_mod n M
  obtain ⟨q, hq⟩ : ∃ q, n / M = q + 1 :=
    Nat.exists_eq_add_of_le' (Nat.div_pos hM (Nat.lt_of_le_of_lt (Nat.zero_le i) hi))
  rw [hq, mul_add, mul_one] at hn
  constructor
  · rintro ⟨k, ⟨hlt, hle⟩, hmod⟩
    have hk : M * (k / M) + k % M = k := div_add_mod k M
    have hge : q ≤ k / M := by
      refine Nat.le_of_not_lt fun hlt' => ?_
      have hmul : M * (k / M + 1) ≤ M * q := Nat.mul_le_mul_left M hlt'
      rw [mul_add, mul_one] at hmul
      omega
    have hround : k / M ≤ q + 1 := hq ▸ Nat.div_le_div_right hlt.le
    -- `k` lies in the round of `n` or in the one before it.
    rcases le_succ_iff.mp hround with hbefore | hsame
    · rw [le_antisymm hbefore hge] at hk
      exact Or.inr (by omega)
    · rw [hsame, succ_eq_add_one, mul_add, mul_one] at hk
      exact Or.inl (by omega)
  · rintro (hlt | hle)
    · refine ⟨M * (q + 1) + i, ?_, by rw [mul_add_mod, mod_eq_of_lt hi]⟩
      rw [mul_add, mul_one]
      exact ⟨by omega, by omega⟩
    · exact ⟨M * q + i, ⟨by omega, by omega⟩, by rw [mul_add_mod, mod_eq_of_lt hi]⟩

end DartVm.CounterWindow
