import Mathlib.Data.Nat.Log
import Mathlib.Tactic.Ring

/-! # Arithmetic of table growth

The machine arithmetic by which `hash_table.h` decides the size of a table:
`Utils::RoundUpToPowerOfTwo` gives a power of two that is large enough, and when the load
factor, a double, is below the maximum, one more element still leaves a slot, whatever
the conversion rounds.

* `exists_roundUpToPowerOfTwo`: the power of two.
* `lt_of_isBelow`: an entry is left below the load factor. -/

namespace DartVm.LoadFactor

open BitVec Nat

/-! ## Rounding to powers of two -/

/-- `Utils::RoundUpToPowerOfTwo`, by smearing the highest bit. -/
def roundUpToPowerOfTwo (x : BitVec 64) : BitVec 64 :=
  let x := x - 1
  let x := x ||| (x >>> 1)
  let x := x ||| (x >>> 2)
  let x := x ||| (x >>> 4)
  let x := x ||| (x >>> 8)
  let x := x ||| (x >>> 16)
  let x := x ||| (x >>> 32)
  x + 1

variable {x y : BitVec 64} {n m k : ℕ}

/-- Every bit of `x` is the disjunction of `n` bits of `y`. -/
def Smeared (n : ℕ) (y x : BitVec 64) : Prop :=
  ∀ i, x.getLsbD i = true ↔ ∃ d < n, y.getLsbD (i + d) = true

/-- Every word is smeared over one bit. -/
theorem smeared_one (y : BitVec 64) : Smeared 1 y y := by
  intro i
  refine ⟨fun h => ⟨0, zero_lt_one, h⟩, ?_⟩
  rintro ⟨d, hd, h⟩
  rwa [lt_one_iff.mp hd] at h

/-- One step doubles the width of the smear. -/
theorem Smeared.or_shift (h : Smeared n y x) : Smeared (n + n) y (x ||| (x >>> n)) := by
  intro i
  rw [getLsbD_or, getLsbD_ushiftRight, Bool.or_eq_true, h i, h (n + i)]
  constructor
  · rintro (⟨d, hd, hbit⟩ | ⟨d, hd, hbit⟩)
    · exact ⟨d, by omega, hbit⟩
    · exact ⟨n + d, by omega, by rwa [← add_assoc, add_comm i n]⟩
  · rintro ⟨d, hd, hbit⟩
    rcases lt_or_ge d n with hlt | hge
    · exact Or.inl ⟨d, hlt, hbit⟩
    · exact Or.inr ⟨d - n, by omega, by rwa [show n + i + (d - n) = i + d by omega]⟩

/-- A number whose set bits are the low ones is one less than a power of two. -/
theorem exists_eq_two_pow_sub_one {w a : ℕ} (hlt : a < 2 ^ w)
    (hdown : ∀ i, a.testBit (i + 1) → a.testBit i) : ∃ k ≤ w, a = 2 ^ k - 1 := by
  have hclear : ∃ i, a.testBit i = false := ⟨w, testBit_lt_two_pow hlt⟩
  refine ⟨Nat.find hclear, Nat.find_min' hclear (testBit_lt_two_pow hlt), ?_⟩
  apply eq_of_testBit_eq
  intro i
  rw [testBit_two_pow_sub_one]
  rcases Nat.lt_or_ge i (Nat.find hclear) with hi | hi
  · rw [decide_eq_true hi]
    simpa using Nat.find_min hclear hi
  -- Above the first clear bit all are clear.
  rw [decide_eq_false (Nat.not_lt.mpr hi)]
  induction i, hi using le_induction with
  | base => exact Nat.find_spec hclear
  | succ i _ ih =>
    by_contra hbit
    rw [hdown i (by simpa using hbit)] at ih
    exact absurd ih (by simp)

/-- The result is a power of two that is not below the argument. -/
theorem exists_roundUpToPowerOfTwo (hpos : 0 < x.toNat) (hle : x.toNat ≤ 2 ^ 63) :
    ∃ k ≤ 63, (roundUpToPowerOfTwo x).toNat = 2 ^ k ∧ x.toNat ≤ 2 ^ k := by
  have hpred : (x - 1).toNat = x.toNat - 1 := by
    rw [toNat_sub_of_le]
    · rfl
    · exact hpos
  -- `z` is the word before the last addition.
  obtain ⟨z, hz, hround⟩ : ∃ z, Smeared 64 (x - 1) z ∧ roundUpToPowerOfTwo x = z + 1 :=
    ⟨_, (smeared_one (x - 1)).or_shift.or_shift.or_shift.or_shift.or_shift.or_shift, rfl⟩
  have hhigh : ∀ i, 63 ≤ i → (x - 1).getLsbD i = false := by
    intro i hi
    exact testBit_lt_two_pow (lt_of_lt_of_le (by omega) (Nat.pow_le_pow_right (by omega) hi))
  have hzlt : z.toNat < 2 ^ 63 := by
    apply lt_pow_two_of_testBit
    intro i hi
    rw [testBit_toNat, Bool.eq_false_iff, Ne, hz i]
    rintro ⟨d, -, hbit⟩
    rw [hhigh (i + d) (by omega)] at hbit
    exact absurd hbit (by simp)
  have hdown : ∀ i, z.toNat.testBit (i + 1) → z.toNat.testBit i := by
    intro i
    rw [testBit_toNat, testBit_toNat, hz, hz]
    rintro ⟨d, hd, hbit⟩
    have hlt : i + 1 + d < 64 := lt_of_getLsbD hbit
    exact ⟨d + 1, by omega, by rwa [show i + (d + 1) = i + 1 + d by omega]⟩
  obtain ⟨k, hk, hzk⟩ := exists_eq_two_pow_sub_one hzlt hdown
  have hbound : (x - 1).toNat < 2 ^ k := by
    apply lt_pow_two_of_testBit
    intro i hi
    by_contra hbit
    have hset : z.getLsbD i = true :=
      (hz i).mpr ⟨0, by omega, by simpa [← testBit_toNat] using hbit⟩
    rw [← testBit_toNat, hzk, testBit_two_pow_sub_one] at hset
    simp at hset
    omega
  refine ⟨k, hk, ?_, by omega⟩
  have hzsucc : z.toNat + 1 = 2 ^ k := by omega
  rw [hround, toNat_add, ← hzsucc]
  exact mod_eq_of_lt (by simp; omega)

/-! ## The load factor -/

/-- An integer converted to a double, as the integer that it stands for: 53 bits are kept, and ties
go to even. -/
def toDouble (m : ℕ) : ℕ :=
  let ulp := 2 ^ (Nat.log 2 m - 52)
  let q := m / ulp
  let r := m % ulp
  if ulp < 2 * r ∨ 2 * r = ulp ∧ q % 2 = 1 then (q + 1) * ulp else q * ulp

/-- The double `0.71` is this over `2 ^ 53`. -/
def kMaxLoadFactor : ℕ := 0x16B851EB851EB8

/-- `m / static_cast<double>(n) < 0.71`, for `n` a power of two: the quotient is then exact. -/
def isBelow (m n : ℕ) : Bool := toDouble m * 2 ^ 53 < kMaxLoadFactor * n

/-- Rounding to a double does not pass a power of two downwards. -/
theorem two_pow_le_toDouble (h : 2 ^ k ≤ m) : 2 ^ k ≤ toDouble m := by
  have hm : m ≠ 0 := by have := Nat.two_pow_pos k; omega
  have hk : k ≤ log 2 m := (le_log_iff_pow_le one_lt_two hm).mpr h
  have hulp : 2 ^ (log 2 m - 52) ∣ 2 ^ log 2 m := pow_dvd_pow 2 (sub_le ..)
  -- The largest power of two up to `m` is a multiple of the unit in the last place.
  have hfloor : 2 ^ log 2 m ≤ m / 2 ^ (log 2 m - 52) * 2 ^ (log 2 m - 52) := by
    obtain ⟨c, hc⟩ := hulp
    have hle : 2 ^ (log 2 m - 52) * c ≤ m := hc ▸ pow_log_le_self 2 hm
    have hdiv : c ≤ m / 2 ^ (log 2 m - 52) := by
      rw [Nat.le_div_iff_mul_le (Nat.two_pow_pos _), Nat.mul_comm]
      exact hle
    calc 2 ^ log 2 m = c * 2 ^ (log 2 m - 52) := by rw [hc, mul_comm]
      _ ≤ _ := mul_le_mul_right _ hdiv
  have hpow : 2 ^ k ≤ 2 ^ Nat.log 2 m := Nat.pow_le_pow_right Nat.two_pos hk
  unfold toDouble
  dsimp only
  split_ifs
  · rw [Nat.add_mul]
    omega
  · omega

/-- A table below its load factor has an unused entry. -/
theorem lt_of_isBelow (h : isBelow m (2 ^ k)) : m < 2 ^ k := by
  by_contra hge
  have hround := two_pow_le_toDouble (Nat.not_lt.mp hge)
  have hlt : toDouble m * 2 ^ 53 < kMaxLoadFactor * 2 ^ k := of_decide_eq_true h
  unfold kMaxLoadFactor at hlt
  omega

end DartVm.LoadFactor
