import Mathlib.Tactic.Linarith
import Mathlib.Tactic.Ring

/-! # Signed 64-bit integers inside `ℤ`

Values are unbounded integers; `IsInt64` says that a value is representable, and `wrap64` is the
two's complement result of a computation.  Bitwise operations go through `BitVec 64`.  The lemmas
are order facts: exact results do not wrap, shifts are monotone, and bitwise operations stay inside
any range `[-2^k, 2^k)` that holds both operands.

* `wrap64_of_isInt64`: exact results do not wrap.
* `bitwise64_mem`: bitwise operations keep ranges. -/

namespace DartVm

open BitVec Int

/-- The least signed 64-bit integer. -/
def int64Min : ℤ := -2 ^ 63

/-- The greatest signed 64-bit integer. -/
def int64Max : ℤ := 2 ^ 63 - 1

/-- The greatest unsigned 64-bit integer. -/
def uint64Max : ℤ := 2 ^ 64 - 1

/-- `x` is a signed 64-bit integer. -/
def IsInt64 (x : ℤ) : Prop := int64Min ≤ x ∧ x ≤ int64Max

instance (x : ℤ) : Decidable (IsInt64 x) := inferInstanceAs (Decidable (_ ∧ _))

/-- The two's complement 64-bit value of an integer. -/
def wrap64 (x : ℤ) : ℤ := x.bmod (2 ^ 64)

variable {x : ℤ}

/-- The 64-bit integers, as an interval. -/
theorem isInt64_iff : IsInt64 x ↔ -2 ^ 63 ≤ x ∧ x < 2 ^ 63 := by
  unfold IsInt64 int64Min int64Max
  omega

/-- What is wrapped around is a 64-bit integer. -/
theorem isInt64_wrap64 (x : ℤ) : IsInt64 (wrap64 x) := by
  have h1 := le_bmod (x := x) (m := 2 ^ 64) (by norm_num)
  have h2 := bmod_lt (x := x) (m := 2 ^ 64) (by norm_num)
  rw [isInt64_iff]
  constructor <;> norm_num <;> assumption

/-- A 64-bit integer stays. -/
theorem wrap64_of_isInt64 (h : IsInt64 x) : wrap64 x = x := by
  rw [isInt64_iff] at h
  exact bmod_eq_of_le (by norm_num at h ⊢; omega) (by norm_num at h ⊢; omega)

/-- Wrapping around keeps a value modulo 2^64. -/
theorem wrap64_emod (x : ℤ) : wrap64 x % 2 ^ 64 = x % 2 ^ 64 := by
  have := bmod_emod (x := x) (m := 2 ^ 64)
  simpa [wrap64] using this

/-- A result that lies between two representable bounds before wrapping lies there afterwards. -/
theorem wrap64_mem_of_bounds {lo hi : ℤ} (hlo : IsInt64 lo) (hhi : IsInt64 hi) (h1 : lo ≤ x)
    (h2 : x ≤ hi) : lo ≤ wrap64 x ∧ wrap64 x ≤ hi := by
  have hx : IsInt64 x := ⟨hlo.1.trans h1, h2.trans hhi.2⟩
  rw [wrap64_of_isInt64 hx]
  exact ⟨h1, h2⟩

/-! ## Shifts -/

/-- The arithmetic right shift of an unbounded integer, rounding down. -/
theorem shiftRight_eq_ediv (x : ℤ) (n : ℕ) : x >>> n = x / 2 ^ n := by
  rw [shiftRight_eq_div_pow]
  norm_cast

variable {y : ℤ} {m n : ℕ}

/-- Shifting a non-negative value left is monotone in the value and in the count. -/
theorem mul_pow_le_mul_pow (hy : 0 ≤ y) (hxy : x ≤ y) (hmn : m ≤ n) : x * 2 ^ m ≤ y * 2 ^ n := by
  have hpow : (2 : ℤ) ^ m ≤ 2 ^ n := pow_le_pow_right₀ (by norm_num) hmn
  calc x * 2 ^ m ≤ y * 2 ^ m := mul_le_mul_of_nonneg_right hxy (by positivity)
    _ ≤ y * 2 ^ n := mul_le_mul_of_nonneg_left hpow hy

/-- Shifting a value that is not positive further makes it smaller. -/
theorem mul_pow_le_mul_pow_of_nonpos (hx : x ≤ 0) (hxy : x ≤ y)
    (hmn : m ≤ n) : x * 2 ^ n ≤ y * 2 ^ m := by
  have := mul_pow_le_mul_pow (x := -y) (y := -x) (by omega) (by omega) hmn
  simp only [neg_mul] at this
  omega

/-- Shifting right rounds towards the value with the larger count when it is non-negative. -/
theorem ediv_pow_le_ediv_pow (hx : 0 ≤ x) (hxy : x ≤ y) (hmn : m ≤ n) : x / 2 ^ n ≤ y / 2 ^ m := by
  have hpow : (2 : ℤ) ^ m ≤ 2 ^ n := pow_le_pow_right₀ (by norm_num) hmn
  calc x / 2 ^ n ≤ x / 2 ^ m := by
        refine (Int.le_ediv_iff_mul_le (by positivity)).mpr ?_
        calc x / 2 ^ n * 2 ^ m ≤ x / 2 ^ n * 2 ^ n :=
              mul_le_mul_of_nonneg_left hpow (ediv_nonneg hx (by positivity))
          _ ≤ x := Int.ediv_mul_le x (by positivity)
    _ ≤ y / 2 ^ m := Int.ediv_le_ediv (by positivity) hxy

/-- Shifting a negative value right increases it with the count, up to `-1`. -/
theorem ediv_pow_le_ediv_pow_of_neg (hy : y < 0) (hxy : x ≤ y) (hmn : m ≤ n) :
    x / 2 ^ m ≤ y / 2 ^ n := by
  have hpow : (2 : ℤ) ^ m ≤ 2 ^ n := pow_le_pow_right₀ (by norm_num) hmn
  have hneg : x / 2 ^ m < 0 := ediv_neg_of_neg_of_pos (by omega) (by positivity)
  refine (Int.le_ediv_iff_mul_le (by positivity)).mpr ?_
  calc x / 2 ^ m * 2 ^ n ≤ x / 2 ^ m * 2 ^ m := mul_le_mul_of_nonpos_left hpow hneg.le
    _ ≤ x := Int.ediv_mul_le x (by positivity)
    _ ≤ y := hxy

/-! ## Bitwise operations -/

/-- A bitwise operation of the 64-bit words that represent two integers. -/
def bitwise64 (op : BitVec 64 → BitVec 64 → BitVec 64) (a b : ℤ) : ℤ :=
  (op (BitVec.ofInt 64 a) (BitVec.ofInt 64 b)).toInt

variable {a : ℤ}

/-- A 64-bit integer is read back from its bit vector. -/
theorem toInt_ofInt_of_isInt64 (h : IsInt64 a) : (BitVec.ofInt 64 a).toInt = a := by
  rw [toInt_ofInt]
  exact wrap64_of_isInt64 h

/-- A bit vector of 64 bits is a 64-bit integer. -/
theorem isInt64_toInt (x : BitVec 64) : IsInt64 x.toInt := by
  have h1 := le_toInt x
  have h2 := toInt_lt (x := x)
  rw [isInt64_iff]
  exact ⟨h1, h2⟩

variable {k : ℕ}

/-- `[-2^k, 2^k)` holds exactly the words whose bits from `k` on all equal the sign. -/
theorem sshiftRight_eq_iff {x : BitVec 64} :
    (-2 ^ k ≤ x.toInt ∧ x.toInt < 2 ^ k) ↔
      (x.sshiftRight k = 0#64 ∨ x.sshiftRight k = BitVec.allOnes 64) := by
  have hpow : (0 : ℤ) < 2 ^ k := by positivity
  have hzero : x.sshiftRight k = 0#64 ↔ x.toInt / 2 ^ k = 0 := by
    rw [← toInt_inj, toInt_sshiftRight, shiftRight_eq_ediv]; simp
  have hones : x.sshiftRight k = BitVec.allOnes 64 ↔ x.toInt / 2 ^ k = -1 := by
    rw [← toInt_inj, toInt_sshiftRight, shiftRight_eq_ediv]; simp
  rw [hzero, hones, ediv_eq_iff_of_pos hpow, ediv_eq_iff_of_pos hpow]
  constructor
  · rintro ⟨h1, h2⟩
    rcases lt_or_ge x.toInt 0 with hx | hx
    · right; constructor <;> omega
    · left; constructor <;> omega
  · rintro (⟨h1, h2⟩ | ⟨h1, h2⟩) <;> constructor <;> omega

variable {op : BitVec 64 → BitVec 64 → BitVec 64} {b : ℤ} {x y : Int64}

/-- **Bitwise operations keep power-of-two ranges**: an operation by bits maps words of
`[-2^k, 2^k)` into it. -/
theorem bitwise64_mem
    (hdistrib : ∀ x y, (op x y).sshiftRight k = op (x.sshiftRight k) (y.sshiftRight k))
    (hclosed : ∀ x y, (x = 0#64 ∨ x = BitVec.allOnes 64) → (y = 0#64 ∨ y = BitVec.allOnes 64) →
      (op x y = 0#64 ∨ op x y = BitVec.allOnes 64)) (ha : IsInt64 a) (hb : IsInt64 b)
    (ha' : -2 ^ k ≤ a ∧ a < 2 ^ k) (hb' : -2 ^ k ≤ b ∧ b < 2 ^ k) :
    -2 ^ k ≤ bitwise64 op a b ∧ bitwise64 op a b < 2 ^ k := by
  rw [bitwise64, sshiftRight_eq_iff, hdistrib]
  refine hclosed _ _ (sshiftRight_eq_iff.mp ?_) (sshiftRight_eq_iff.mp ?_)
  · rwa [toInt_ofInt_of_isInt64 ha]
  · rwa [toInt_ofInt_of_isInt64 hb]

/-- A bitwise operation that keeps clear sign bits keeps non-negative values non-negative. -/
theorem bitwise64_nonneg
    (hdistrib : ∀ x y, (op x y).sshiftRight 63 = op (x.sshiftRight 63) (y.sshiftRight 63))
    (hzero : op 0#64 0#64 = 0#64) (ha : IsInt64 a) (hb : IsInt64 b) (ha' : 0 ≤ a) (hb' : 0 ≤ b) :
    0 ≤ bitwise64 op a b := by
  -- A word is non-negative exactly if the arithmetic shift by 63 clears it.
  have hsign : ∀ x : BitVec 64, x.sshiftRight 63 = 0#64 ↔ 0 ≤ x.toInt := by
    intro x
    have hx := isInt64_iff.mp (isInt64_toInt x)
    rw [← toInt_inj, toInt_sshiftRight, shiftRight_eq_ediv, toInt_zero]
    constructor <;> intro h <;> omega
  rw [bitwise64, ← hsign, hdistrib, (hsign _).mpr, (hsign _).mpr, hzero]
  · rwa [toInt_ofInt_of_isInt64 hb]
  · rwa [toInt_ofInt_of_isInt64 ha]

/-- A conjunction with a value that is not negative lies between zero and that value. -/
theorem bitwise64_and_le (hb : IsInt64 b) (hb' : 0 ≤ b) :
    0 ≤ bitwise64 (· &&& ·) a b ∧ bitwise64 (· &&& ·) a b ≤ b := by
  have hbnat : ((BitVec.ofInt 64 b).toNat : ℤ) = b := by
    have hlt := (isInt64_iff.mp hb).2
    rw [toNat_ofInt, toNat_of_nonneg (emod_nonneg _ (by norm_num))]
    exact emod_eq_of_lt hb' (by omega)
  have hle : (BitVec.ofInt 64 a &&& BitVec.ofInt 64 b).toNat ≤ (BitVec.ofInt 64 b).toNat :=
    Nat.and_le_right
  have hint : bitwise64 (· &&& ·) a b
      = ((BitVec.ofInt 64 a &&& BitVec.ofInt 64 b).toNat : ℤ) := by
    have hlt := (isInt64_iff.mp hb).2
    refine toInt_eq_toNat_of_lt ?_
    zify
    omega
  rw [hint]
  constructor
  · positivity
  · omega

/-- Two integers have the same low `k` bits when their residues agree. -/
theorem ofInt_eq_ofInt_iff : BitVec.ofInt k a = BitVec.ofInt k b ↔ a % 2 ^ k = b % 2 ^ k := by
  rw [← toNat_inj, toNat_ofInt, toNat_ofInt]
  push_cast
  omega

/-- The low bits of a bitwise operation depend on the low bits of its operands. -/
theorem ofInt_bitwise64 (hk : k ≤ 64) {lowOp : BitVec k → BitVec k → BitVec k}
    (hop : ∀ x y, (op x y).setWidth k = lowOp (x.setWidth k) (y.setWidth k)) (a b : ℤ) :
    BitVec.ofInt k (bitwise64 op a b) = lowOp (BitVec.ofInt k a) (BitVec.ofInt k b) := by
  have hdvd : (2 : ℤ) ^ k ∣ 2 ^ 64 := pow_dvd_pow 2 hk
  have hlow : ∀ v : ℤ, (BitVec.ofInt 64 v).setWidth k = BitVec.ofInt k v := by
    intro v
    rw [← signExtend_eq_setWidth_of_le _ hk, BitVec.signExtend, toInt_ofInt]
    rw [ofInt_eq_ofInt_iff, ← emod_emod_of_dvd _ hdvd]
    change wrap64 v % 2 ^ 64 % 2 ^ k = _
    rw [wrap64_emod, emod_emod_of_dvd _ hdvd]
  have hto : ∀ x : BitVec 64, BitVec.ofInt k x.toInt = x.setWidth k := by
    intro x
    rw [← hlow, ofInt_toInt]
  rw [bitwise64, hto, hop, hlow, hlow]

/-! ## The machine type -/

/-- The machine type holds 64-bit integers. -/
theorem isInt64_of_int64 (x : Int64) : IsInt64 x.toInt :=
  isInt64_iff.mpr ⟨x.le_toInt, x.toInt_lt⟩

/-- Machine addition wraps around. -/
theorem toInt_add_eq_wrap64 (x y : Int64) : (x + y).toInt = wrap64 (x.toInt + y.toInt) :=
  Int64.toInt_add x y

/-- Machine addition is exact where it does not overflow. -/
theorem toInt_add_of_isInt64 (h : IsInt64 (x.toInt + y.toInt)) :
    (x + y).toInt = x.toInt + y.toInt := by
  rw [toInt_add_eq_wrap64, wrap64_of_isInt64 h]

/-- Machine subtraction is exact where it does not overflow. -/
theorem toInt_sub_of_isInt64 (h : IsInt64 (x.toInt - y.toInt)) :
    (x - y).toInt = x.toInt - y.toInt := by
  rw [Int64.toInt_sub, ← wrap64, wrap64_of_isInt64 h]

/-- Machine steps of a fixed size wrap around as a whole. -/
theorem toInt_add_ofNat_mul (x y : Int64) (k : ℕ) :
    (x + Int64.ofNat k * y).toInt = wrap64 (x.toInt + k * y.toInt) := by
  rw [Int64.toInt_add, Int64.toInt_mul, wrap64]
  simp

/-- Adding a non-negative word can wrap in one direction only, so it is never above
the exact sum. -/
theorem toInt_add_le (hy : 0 ≤ y.toInt) : (x + y).toInt ≤ x.toInt + y.toInt := by
  by_cases h : IsInt64 (x.toInt + y.toInt)
  · exact (toInt_add_of_isInt64 h).le
  · have hx := isInt64_iff.mp (isInt64_of_int64 x)
    have hsum := isInt64_iff.mp (isInt64_of_int64 (x + y))
    rw [isInt64_iff] at h
    omega

end DartVm
