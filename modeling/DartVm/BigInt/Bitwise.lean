import DartVm.BigInt.Arithmetic
import Mathlib.Data.Int.Bitwise

/-! # Bitwise operators

A negative number is the complement of its absolute value less one, so each operator on integers is
an operation on natural numbers, and this in turn is done digit by digit.

* `testBit_valueOf`: the bits of a number are those of its digits.
* `bySign_spec`: how an operator on integers comes from one on absolute values.
* `bitAnd_spec`, `bitOr_spec`, `bitXor_spec`, `bitNot_spec`: the four operators. -/

namespace DartVm.BigInt

open Postcondition CountedLoop Positional BigIntImpl Nat

variable {x y : BigIntImpl} {isNegative : Bool}

/-! ## Operations on absolute values -/

/-- Digits in bounds are loaded and combined without failure. -/
theorem load_load_eq {op : ℕ → ℕ → ℕ} {a b : Digits} {i : ℕ} (ha : i < a.length)
    (hb : i < b.length) :
    (do return op (← load a i) (← load b i) : Option ℕ) = some
    (op (digitAt a i) (digitAt b i)) := by
  rw [load_eq ha, load_eq hb]
  rfl

/-- **Bits of a number**: bit `k` is a bit of digit `k / 32`. -/
theorem testBit_valueOf {d : Digits} {n : ℕ} (hd : IsDigits d) (k : ℕ) : (valueOf d n).testBit k
    = (decide (k / 32 < n) && (digitAt d (k / 32)).testBit (k % 32)) := by
  have hd' : ∀ i < n, digitAt d i < 2 ^ 32 := fun i _ => hd i
  exact testBit_value hd' (by norm_num) k

variable {op : Bool → Bool → Bool} {f : ℕ → ℕ → ℕ}

variable (hx : x.IsNormal) (hy : y.IsNormal)
include hx hy

/-- **Digit-wise operations**: if the digits come from two numbers bit by bit, the number does. -/
theorem valueOf_eq_of_digits {r : Digits} {used : ℕ} (hr : IsDigits r)
    (hf : ∀ m n k, (f m n).testBit k = op (m.testBit k) (n.testBit k))
    (hdigit : ∀ i k, (decide (i < used) && (digitAt r i).testBit k)
      = op (decide (i < x.used) && (digitAt x.digits i).testBit k)
          (decide (i < y.used) && (digitAt y.digits i).testBit k)) :
    valueOf r used = f x.magnitude y.magnitude := by
  apply eq_of_testBit_eq
  intro k
  rw [hf, testBit_valueOf hr, magnitude, magnitude, testBit_valueOf hx.isDigits,
    testBit_valueOf hy.isDigits, hdigit]

omit hx hy in
/-- An operation on bits that maps zeros to zero keeps the range of digits. -/
theorem lt_digitBase_of_testBit {a b c : ℕ} (hop : op false false = false)
    (h : ∀ k, c.testBit k = op (a.testBit k) (b.testBit k)) (ha : a < digitBase)
    (hb : b < digitBase) : c < digitBase := by
  rw [digitBase_eq] at *
  refine lt_pow_two_of_testBit c fun k hk => ?_
  have hpow : 2 ^ 32 ≤ 2 ^ k := Nat.pow_le_pow_right (by norm_num) hk
  rw [h, testBit_lt_two_pow (ha.trans_le hpow), testBit_lt_two_pow (hb.trans_le hpow), hop]

/-- `_absAndSetSign` is the conjunction of the magnitudes. -/
theorem absAndSetSign_spec :
    Yields (absAndSetSign x y isNegative) (signed isNegative (x.magnitude &&& y.magnitude)) := by
  have hxlen := hx.used_le
  have hylen := hy.used_le
  refine (fillDigits_spec (by rw [length_newDigits]; exact le_add_right _ _)
    (fun i _ hi => ⟨load_load_eq (by omega) (by omega), lt_digitBase_of_testBit rfl
      (testBit_and _ _) (hx.isDigits i) (hy.isDigits i)⟩)).bind ?_
  rintro r ⟨hw, hr⟩
  refine (make_of_writes hw le_rfl le_rfl).of_eq (congrArg _ ?_)
  refine valueOf_eq_of_digits hx hy (hw.isDigits isDigits_newDigits) testBit_and fun i k => ?_
  by_cases hi : i < min x.used y.used
  · rw [hr i (zero_le i) hi, decide_eq_true hi, decide_eq_true (by omega : i < x.used),
      decide_eq_true (by omega : i < y.used)]
    simp
  rw [decide_eq_false hi]
  by_cases hix : i < x.used
  · rw [decide_eq_false (by omega : ¬i < y.used)]
    simp
  · rw [decide_eq_false hix]
    simp

omit hx hy in
/-- The two loops that combine the digits below `m` and copy those of `l` from there on. -/
theorem fillDigits_fillDigits_spec (op : Bool → Bool → Bool) {l : BigIntImpl} {m used : ℕ}
    (hx : x.IsNormal) (hy : y.IsNormal) (hl : l.IsNormal) (hop : op false false = false)
    (hf : ∀ m n k, (f m n).testBit k = op (m.testBit k) (n.testBit k)) (hmx : m ≤ x.used)
    (hmy : m ≤ y.used) (hm : m ≤ used) (hused : used ≤ l.used)
    (hrest : ∀ i k, m ≤ i → (decide (i < used) && (digitAt l.digits i).testBit k)
      = op (decide (i < x.used) && (digitAt x.digits i).testBit k)
          (decide (i < y.used) && (digitAt y.digits i).testBit k)) :
    Yields (do
      let r ← fillDigits 0 m (fun i => do return f (← load x.digits i) (← load y.digits i))
        (newDigits used)
      let r ← fillDigits m used (load l.digits) r
      make isNegative used r) (signed isNegative (f x.magnitude y.magnitude)) := by
  have hxlen := hx.used_le
  have hylen := hy.used_le
  have hllen := hl.used_le
  refine (fillDigits_spec (by rw [length_newDigits]; omega)
    (fun i _ hi => ⟨load_load_eq (by omega) (by omega), lt_digitBase_of_testBit hop
      (hf _ _) (hx.isDigits i) (hy.isDigits i)⟩)).bind ?_
  rintro r₁ ⟨hw1, hr1⟩
  refine (fillDigits_spec (by rw [hw1.length_eq, length_newDigits]; omega)
    (fun i _ hi => ⟨load_eq (by omega), hl.isDigits i⟩)).bind ?_
  rintro r ⟨hw, hr⟩
  have hwrites : Writes 0 used (newDigits used) r := hw1.trans hw (by omega)
  refine (make_of_writes hwrites le_rfl le_rfl).of_eq (congrArg _ ?_)
  refine valueOf_eq_of_digits hx hy (hwrites.isDigits isDigits_newDigits) hf fun i k => ?_
  by_cases him : i < m
  · rw [hw.digitAt_eq i (.inl him), hr1 i (zero_le i) him, hf,
      decide_eq_true (by omega : i < used), decide_eq_true (by omega : i < x.used),
      decide_eq_true (by omega : i < y.used)]
    simp
  · by_cases hi : i < used
    · rw [hr i (not_lt.mp him) hi]
      exact hrest i k (not_lt.mp him)
    · rw [← hrest i k (not_lt.mp him), decide_eq_false hi, Bool.false_and, Bool.false_and]

/-- `_absAndNotSetSign` clears the bits of the second magnitude in the first. -/
theorem absAndNotSetSign_spec :
    Yields (absAndNotSetSign x y isNegative)
      (signed isNegative (ldiff x.magnitude y.magnitude)) := by
  refine fillDigits_fillDigits_spec (fun a b => a && !b) hx hy hx rfl testBit_ldiff
    (min_le_left _ _) (min_le_right _ _) (min_le_left _ _) le_rfl fun i k hi => ?_
  by_cases hix : i < x.used
  · rw [decide_eq_false (by omega : ¬i < y.used)]
    simp
  · rw [decide_eq_false hix]
    simp

/-- The common pattern of `_absOrSetSign` and `_absXorSetSign`: combine digit by digit and copy the
rest of the longer operand. -/
theorem absBitwiseSetSign_spec (hop1 : ∀ b, op b false = b) (hop2 : ∀ b, op false b = b)
    (hf : ∀ m n k, (f m n).testBit k = op (m.testBit k) (n.testBit k)) :
    Yields (absBitwiseSetSign f x y isNegative)
      (signed isNegative (f x.magnitude y.magnitude)) := by
  unfold absBitwiseSetSign
  by_cases hlt : x.used < y.used
  · simp only [if_pos hlt, max_eq_right hlt.le]
    refine fillDigits_fillDigits_spec op hx hy hy (hop1 false) hf le_rfl hlt.le hlt.le le_rfl
      fun i k hi => ?_
    rw [decide_eq_false (by omega : ¬i < x.used), Bool.false_and, hop2]
  · simp only [if_neg hlt, max_eq_left (not_lt.mp hlt)]
    refine fillDigits_fillDigits_spec op hx hy hx (hop1 false) hf (not_lt.mp hlt) le_rfl
      (not_lt.mp hlt) le_rfl fun i k hi => ?_
    rw [decide_eq_false (by omega : ¬i < y.used), Bool.false_and, hop1]

/-- `_absOrSetSign` is the disjunction of the magnitudes. -/
theorem absOrSetSign_spec :
    Yields (absOrSetSign x y isNegative) (signed isNegative (x.magnitude ||| y.magnitude)) :=
  absBitwiseSetSign_spec hx hy Bool.or_false Bool.false_or testBit_or

/-- `_absXorSetSign` is the exclusive disjunction of the magnitudes. -/
theorem absXorSetSign_spec :
    Yields (absXorSetSign x y isNegative) (signed isNegative (x.magnitude ^^^ y.magnitude)) :=
  absBitwiseSetSign_spec hx hy Bool.xor_false Bool.false_xor testBit_xor

/-! ## Operators on integers -/

omit hx hy in
/-- A number without sign is its magnitude. -/
theorem toInt_of_nonneg (h : x.isNegative = false) : x.toInt = (x.magnitude : ℕ) := by
  rw [toInt, h]
  rfl

omit hy in
/-- A negative number is the complement of its absolute value less one. -/
theorem toInt_of_isNegative (h : x.isNegative = true) :
    x.toInt = Int.negSucc (x.magnitude - 1) := by
  have hpos := hx.magnitude_pos (hx.used_ne_zero h)
  rw [toInt, h, signed, if_pos rfl]
  omega

omit hy in
/-- Subtracting one from a magnitude, as the operators do for negative operands. -/
theorem absSubOne_spec (hused : x.used ≠ 0) :
    Yields (absSubSetSign x one isNegative) (signed isNegative (x.magnitude - 1)) := by
  have hle : one.magnitude ≤ x.magnitude := hx.magnitude_pos hused
  refine (absSubSetSign_spec hx IsNormal.isNormal_one hle fun h => absurd h hused).of_eq ?_
  rw [IsNormal.magnitude_one]

omit hy in
/-- Adding one to a magnitude and making it negative is the bitwise complement. -/
theorem absAddOne_spec : Yields (absAddSetSign x one true) (Int.negSucc x.magnitude) :=
  (absAddSetSign_spec hx IsNormal.isNormal_one fun _ h => absurd h (by decide)).of_eq rfl

omit hx hy in
/-- The last step of the operators with a negative result: the complement of what was computed. -/
theorem bind_absAddOne_spec {c : Option BigIntImpl} {m : ℕ} (h : Yields c (signed isNegative m)) :
    Yields (do absAddSetSign (← c) one true) (Int.negSucc m) :=
  h.bind_magnitude fun _ hr hm => (absAddOne_spec hr).of_eq (congrArg _ hm)

omit hx hy in
/-- Clearing no bits changes nothing. -/
theorem ldiff_zero (n : ℕ) : ldiff n 0 = n :=
  eq_of_testBit_eq fun k => by simp [testBit_ldiff]

omit hx hy in
/-- There is nothing to clear in zero. -/
theorem zero_ldiff (n : ℕ) : ldiff 0 n = 0 :=
  eq_of_testBit_eq fun k => by simp [testBit_ldiff]

/-- **Signs**: operands of one sign are combined as they are or as complements; otherwise the one
that is not negative comes first. -/
theorem bySign_spec (op : ℤ → ℤ → ℤ) (mixed : BigIntImpl → BigIntImpl → Option BigIntImpl)
    {negative : BigIntImpl → BigIntImpl → Option BigIntImpl} {positive : Option BigIntImpl}
    (hxz : x.used ≠ 0) (hyz : y.used ≠ 0)
    (hop : ∀ m n : ℕ, op (Int.negSucc m) n = op n (Int.negSucc m))
    (hnegative : ∀ x y : BigIntImpl, x.IsNormal → y.IsNormal →
      Yields (negative x y) (op (Int.negSucc x.magnitude) (Int.negSucc y.magnitude)))
    (hpositive : Yields positive (op x.magnitude y.magnitude))
    (hmixed : ∀ p n : BigIntImpl, p.IsNormal → n.IsNormal →
      Yields (mixed p n) (op p.magnitude (Int.negSucc n.magnitude))) :
    Yields (do
      if x.isNegative = y.isNegative then
        if x.isNegative then
          let x₁ ← absSubSetSign x one true
          let y₁ ← absSubSetSign y one true
          negative x₁ y₁
        else positive
      else
        let (p, n) := if x.isNegative then (y, x) else (x, y)
        let n₁ ← absSubSetSign n one isNegative
        mixed p n₁) (op x.toInt y.toInt) := by
  refine returns_ite (fun hsign => returns_ite (fun hneg => ?_) fun hpos => ?_) fun hsign => ?_
  · rw [toInt_of_isNegative hx hneg, toInt_of_isNegative hy (hsign ▸ hneg)]
    refine (absSubOne_spec hx hxz).bind_magnitude fun x₁ hx1 hm1 => ?_
    refine (absSubOne_spec hy hyz).bind_magnitude fun y₁ hy1 hm2 => ?_
    rw [← hm1, ← hm2]
    exact hnegative x₁ y₁ hx1 hy1
  · rw [Bool.not_eq_true] at hpos
    rw [toInt_of_nonneg hpos, toInt_of_nonneg (hsign ▸ hpos)]
    exact hpositive
  · have hflip := Bool.not_eq.mpr hsign
    cases hneg : x.isNegative <;> rw [hneg] at hflip
    · rw [toInt_of_nonneg hneg, toInt_of_isNegative hy hflip.symm]
      refine (absSubOne_spec hy hyz).bind_magnitude fun n hn hm => ?_
      rw [← hm]
      exact hmixed x n hx hn
    · rw [toInt_of_isNegative hx hneg, toInt_of_nonneg hflip.symm, hop]
      refine (absSubOne_spec hx hxz).bind_magnitude fun n hn hm => ?_
      rw [← hm]
      exact hmixed y n hy hn

/-- **`operator &`.** -/
theorem bitAnd_spec : Yields (bitAnd x y) (Int.land x.toInt y.toInt) := by
  unfold bitAnd
  refine returns_ite (fun hzero => ⟨IsNormal.isNormal_zero, ?_⟩) fun hzero => ?_
  · rw [Bool.or_eq_true, isZero_iff, isZero_iff, ← hx.toInt_eq_zero_iff,
      ← hy.toInt_eq_zero_iff] at hzero
    rcases hzero with h | h <;> rw [h, IsNormal.toInt_zero]
    · rcases y.toInt with m | m <;> simp [Int.land, zero_ldiff]
    · rcases x.toInt with m | m <;> simp [Int.land, zero_ldiff]
  rw [Bool.or_eq_true, not_or, isZero_iff, isZero_iff] at hzero
  exact bySign_spec hx hy Int.land (absAndNotSetSign · · false) hzero.1 hzero.2 (fun _ _ => rfl)
    (fun _ _ hx hy => bind_absAddOne_spec (absOrSetSign_spec hx hy)) (absAndSetSign_spec hx hy)
    fun _ _ hp hn => absAndNotSetSign_spec hp hn

/-- **`operator |`.** -/
theorem bitOr_spec : Yields (bitOr x y) (Int.lor x.toInt y.toInt) := by
  unfold bitOr
  refine hx.yields_ite_zero (fun h => ⟨hy, ?_⟩) fun hxz => ?_
  · rw [h]
    rcases y.toInt with m | m <;> simp [Int.lor, ldiff_zero]
  refine hy.yields_ite_zero (fun h => ⟨hx, ?_⟩) fun hyz => ?_
  · rw [h]
    rcases x.toInt with m | m <;> simp [Int.lor, ldiff_zero]
  exact bySign_spec hx hy Int.lor _ hxz hyz (fun _ _ => rfl)
    (fun _ _ hx hy => bind_absAddOne_spec (absAndSetSign_spec hx hy)) (absOrSetSign_spec hx hy)
    fun _ _ hp hn => bind_absAddOne_spec (absAndNotSetSign_spec hn hp)

/-- **`operator ^`.** -/
theorem bitXor_spec : Yields (bitXor x y) (Int.xor x.toInt y.toInt) := by
  unfold bitXor
  refine hx.yields_ite_zero (fun h => ⟨hy, ?_⟩) fun hxz => ?_
  · rw [h]
    rcases y.toInt with m | m <;> simp [Int.xor]
  refine hy.yields_ite_zero (fun h => ⟨hx, ?_⟩) fun hyz => ?_
  · rw [h]
    rcases x.toInt with m | m <;> simp [Int.xor]
  exact bySign_spec hx hy Int.xor _ hxz hyz (fun m n => congrArg Int.negSucc (Nat.xor_comm m n))
    (fun _ _ hx hy => absXorSetSign_spec hx hy) (absXorSetSign_spec hx hy)
    fun _ _ hp hn => bind_absAddOne_spec (absXorSetSign_spec hp hn)

omit hy in
/-- **`operator ~()`.** -/
theorem bitNot_spec : Yields (bitNot x) (Int.lnot x.toInt) := by
  unfold bitNot
  refine hx.yields_ite_zero (fun h => ⟨IsNormal.isNormal_minusOne, by rw [h]; rfl⟩) fun hxz => ?_
  refine returns_ite (fun hneg => ?_) fun hpos => ?_
  · rw [toInt_of_isNegative hx hneg]
    exact absSubOne_spec hx hxz
  · rw [toInt_of_nonneg ((Bool.not_eq_true _).mp hpos)]
    exact absAddOne_spec hx

end DartVm.BigInt
