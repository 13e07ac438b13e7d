import DartVm.BigInt.DigitSpecs

/-! # Digit pairs

On 64-bit platforms intrinsics replace some digit loops: they work on pairs of digits at even
indices, as one 64-bit word, and return 2 where the methods of `_BigIntImpl` return 1.  A `Mode`
says which are in use; both are described at once, with the digits of one step as a wide digit.

* `Carried.step_wide`: one step of a carry loop with a wide digit.
* `propagateCarryPair_spec`, `mulAddPair_spec`: the intrinsics for pairs of digits.
* `Mode.mulAdd_spec`: `_mulAdd`, whichever of the two is in use. -/

namespace DartVm.BigInt

open Postcondition CountedLoop Positional Nat

/-- Whether methods are replaced by intrinsics that process digit pairs. -/
inductive Mode
  | digit
  | digitPair
  deriving DecidableEq, Repr

/-- The number of digits that are processed in one step. -/
def Mode.step : Mode → ℕ
  | .digit => 1
  | .digitPair => 2

/-- The 64-bit word at `digits[i..i+1]`. -/
def loadPair (digits : Digits) (i : ℕ) : Option ℕ := do
  let low ← load digits i
  let high ← load digits (i + 1)
  return low + high * digitBase

/-- Writes a 64-bit word to `digits[i..i+1]`. -/
def storePair (digits : Digits) (i v : ℕ) : Option Digits := do
  let r ← store digits i (v % digitBase)
  store r (i + 1) (v / digitBase)

/-- An iteration of the loop of the intrinsic for `_mulAdd`, on the pair `k`. -/
def mulAddPairStep (x : ℕ) (multiplicandDigits : Digits) (i j : ℕ) (s : ℕ × Digits) (k : ℕ) :
    Option (ℕ × Digits) := do
  let mi ← loadPair multiplicandDigits (i + 2 * k)
  let aj ← loadPair s.2 (j + 2 * k)
  let t := x * mi + aj + s.1
  let acc ← storePair s.2 (j + 2 * k) (t % digitBase ^ 2)
  return (t / digitBase ^ 2, acc)

/-- `while (c != 0)` of the intrinsic, with the count of the pairs from `j` on. -/
def propagateCarryPair : ℕ → ℕ → ℕ → Digits → Option Digits
  | 0, _, carry, acc => if carry = 0 then some acc else none
  | count + 1, j, carry, acc =>
    if carry = 0 then some acc
    else do
      let t := (← loadPair acc j) + carry
      let acc ← storePair acc j (t % digitBase ^ 2)
      propagateCarryPair count (j + 2) (t / digitBase ^ 2) acc

/-- The intrinsic for `_mulAdd`:
`accumulatorDigits[j..] += xDigits[xIndex..xIndex+1] * multiplicandDigits[i..i+n-1]`. -/
def mulAddPair (xDigits : Digits) (xIndex : ℕ) (multiplicandDigits : Digits) (i : ℕ)
    (accumulatorDigits : Digits) (j n : ℕ) : Option Digits := do
  let x ← loadPair xDigits xIndex
  if x = 0 ∨ n = 0 then return accumulatorDigits
  let pairs := (n + 1) / 2
  let (carry, acc) ← (List.range' 0 pairs).foldlM (mulAddPairStep x multiplicandDigits i j)
    (0, accumulatorDigits)
  let j := j + 2 * pairs
  propagateCarryPair ((accumulatorDigits.length - j) / 2) j carry acc

/-- `_mulAdd`, or its intrinsic. -/
def Mode.mulAdd : Mode → Digits → ℕ → Digits → ℕ → Digits → ℕ → ℕ → Option Digits
  | .digit => BigInt.mulAdd
  | .digitPair => mulAddPair

/-! ## Specifications -/

variable {digits r r₀ r' : Digits} {i j k n v : ℕ} {mode : Mode} {xIndex l : ℕ} {x m : Digits}

/-- The digits of one step, as a number. -/
def wideAt (mode : Mode) (digits : Digits) (i : ℕ) : ℕ :=
  value digitBase (fun k => digitAt digits (i + k)) mode.step

/-- A wide digit of one digit. -/
theorem wideAt_digit : wideAt .digit digits i = digitAt digits i := by
  rw [wideAt, show Mode.digit.step = 1 from rfl, value_one, add_zero]

/-- A wide digit of two digits, low one first. -/
theorem wideAt_digitPair :
    wideAt .digitPair digits i = digitAt digits i + digitAt digits (i + 1) * digitBase := by
  rw [wideAt, show Mode.digitPair.step = 1 + 1 from rfl, value_succ, value_one, add_zero, pow_one]

/-- Wide digits are below the base of their width. -/
theorem wideAt_lt (h : IsDigits digits) : wideAt mode digits i < digitBase ^ mode.step :=
  value_lt fun _ _ => h _

/-- One more wide digit at the top of a number. -/
theorem valueOf_add_step (mode : Mode) (digits : Digits) (i : ℕ) : valueOf digits (i + mode.step)
    = valueOf digits i + wideAt mode digits i * digitBase ^ i := by
  rw [valueOf_add, wideAt, mul_comm]

/-- A pair in bounds is loaded as one wide digit. -/
theorem loadPair_eq (h : i + 1 < digits.length) :
    loadPair digits i = some (wideAt .digitPair digits i) := by
  rw [loadPair, load_eq (by omega), load_eq h, wideAt_digitPair]
  rfl

/-- A pair that fits is stored in two digits, and nothing else changes. -/
theorem storePair_spec (h : i + 1 < r.length) (hv : v < digitBase ^ 2) :
    Returns False (storePair r i v) fun r' =>
      Writes i (i + 2) r r' ∧ wideAt .digitPair r' i = v := by
  refine (store_spec (by omega)).bind ?_
  rintro r₁ ⟨hw1, hlow⟩
  refine (hw1.returns_store (by omega)).mono ?_
  rintro r₂ ⟨hw2, hhigh⟩
  refine ⟨hw1.trans hw2 (by omega), ?_⟩
  have hdiv : v / digitBase < digitBase := Nat.div_lt_of_lt_mul (by rwa [← pow_two])
  rw [wideAt_digitPair, hhigh, hw2.digitAt_eq i (.inl (lt_succ_self i)), hlow, mod_mod,
    mod_eq_of_lt hdiv]
  exact mod_add_div' v digitBase

/-- **One wide step of a carry loop.** -/
theorem Carried.step_wide (mode : Mode) {sum carry carry' t : ℤ} {wide : ℕ}
    (h : Carried r₀ sum i carry r)
    (hw : Writes i (i + mode.step) r r') (hwide : wideAt mode r' i = wide)
    (ht : (wide : ℤ) + carry' * (digitBase : ℤ) ^ mode.step = carry + t) :
    Carried r₀ (sum + t * (digitBase : ℤ) ^ i) (i + mode.step) carry' r' := by
  refine ⟨h.writes.trans hw (by omega), ?_⟩
  rw [valueOf_add_step, hw.valueOf_eq le_rfl, hwide, ← h.sum_eq]
  push_cast
  linear_combination (digitBase : ℤ) ^ i * ht

/-- Digits above the carry are still the old ones. -/
theorem Carried.wideAt_eq {sum carry : ℤ} (h : Carried r₀ sum i carry r) :
    wideAt mode r i = wideAt mode r₀ i :=
  h.writes.valueFrom_eq le_rfl

/-- One step of `_mulAdd` over pairs of digits: the product and the old pair are added at their
place, and the carry stays below the base. -/
theorem mulAddPairStep_spec {m : Digits} {x : ℕ} {s : ℕ × Digits} {sum : ℤ}
    (hx : x < digitBase ^ 2) (hm : IsDigits m) (hr : IsDigits r₀)
    (hmlen : i + 2 * k + 1 < m.length) (hlen : j + 2 * k + 1 < r₀.length)
    (hcarry : s.1 < digitBase ^ 2) (h : Carried r₀ sum (j + 2 * k) s.1 s.2) :
    Returns False (mulAddPairStep x m i j s k) fun s' => s'.1 < digitBase ^ 2 ∧
      Carried r₀ (sum + (x * wideAt .digitPair m (i + 2 * k) + wideAt .digitPair r₀ (j + 2 * k) : ℕ)
        * (digitBase : ℤ) ^ (j + 2 * k)) (j + 2 * k + 2) s'.1 s'.2 := by
  have hM : wideAt .digitPair m (i + 2 * k) < digitBase ^ 2 := wideAt_lt hm
  have hA : wideAt .digitPair r₀ (j + 2 * k) < digitBase ^ 2 := wideAt_lt hr
  unfold mulAddPairStep
  refine returns_bind_of_eq (loadPair_eq hmlen) ?_
  refine returns_bind_of_eq (loadPair_eq (by rw [h.writes.length_eq]; exact hlen)) ?_
  rw [h.wideAt_eq]
  generalize wideAt .digitPair m (i + 2 * k) = M at hM ⊢
  generalize wideAt .digitPair r₀ (j + 2 * k) = A at hA ⊢
  have hpos : 0 < digitBase ^ 2 := Nat.pow_pos digitBase_pos
  have hcarry' : (x * M + A + s.1) / digitBase ^ 2 < digitBase ^ 2 :=
    Nat.div_lt_of_lt_mul (mul_add_add_lt hx hM hA hcarry)
  refine (storePair_spec (by rw [h.writes.length_eq]; exact hlen) (mod_lt _ hpos)).bind ?_
  rintro r' ⟨hw, hwide⟩
  refine ⟨hcarry', h.step_wide .digitPair hw hwide ?_⟩
  have hparts := mod_add_div (x * M + A + s.1) (digitBase ^ 2)
  zify at hparts ⊢
  show _ + _ * (digitBase : ℤ) ^ 2 = _
  linarith

/-- **Propagating the carry** of a pair ends before `l` digits, if the result has room there. -/
theorem propagateCarryPair_spec {l carry add count : ℕ} (hr : IsDigits r₀) (hlen : l ≤ r₀.length)
    (hroom : valueOf r₀ l + add < digitBase ^ l) (hj : j ≤ l) (heven : (l - j) % 2 = 0)
    (hcount : l ≤ j + 2 * count) (hcarry : carry < digitBase ^ 2)
    (h : Carried r₀ (valueOf r₀ j + add : ℕ) j carry r) :
    Returns False (propagateCarryPair count j carry r) fun r' => Writes 0 l r₀ r' ∧
      valueOf r' l = valueOf r₀ l + add := by
  induction count generalizing j carry r with
  | zero =>
    refine returns_ite (fun hzero => ?_) fun hne => ?_
    · subst hzero
      exact h.finish hj
    · exact absurd (h.lt_of_carry_ne_zero hroom hj hne) (by omega)
  | succ count ih =>
    refine returns_ite (fun hzero => ?_) fun hne => ?_
    · subst hzero
      exact h.finish hj
    have hjl := h.lt_of_carry_ne_zero hroom hj hne
    have hpos : 0 < digitBase ^ 2 := Nat.pow_pos digitBase_pos
    have hwide : wideAt .digitPair r₀ j < digitBase ^ 2 := wideAt_lt hr
    refine returns_bind_of_eq (loadPair_eq (by rw [h.writes.length_eq]; omega)) ?_
    rw [h.wideAt_eq]
    refine (storePair_spec (by rw [h.writes.length_eq]; omega) (Nat.mod_lt _ hpos)).bind ?_
    rintro r₁ ⟨hw, hstored⟩
    have hparts : ((wideAt .digitPair r₀ j + carry) % digitBase ^ 2 : ℕ)
        + ((wideAt .digitPair r₀ j + carry) / digitBase ^ 2 : ℕ) * (digitBase : ℤ) ^ 2
        = carry + wideAt .digitPair r₀ j := by
      have := Nat.mod_add_div (wideAt .digitPair r₀ j + carry) (digitBase ^ 2)
      zify at this ⊢
      linarith
    have hnext := h.step_wide .digitPair hw hstored hparts
    have hcarry' : (wideAt .digitPair r₀ j + carry) / digitBase ^ 2 < digitBase ^ 2 := by
      refine Nat.div_lt_of_lt_mul ?_
      have hsq : 2 * digitBase ^ 2 ≤ digitBase ^ 2 * digitBase ^ 2 :=
        Nat.mul_le_mul_right _ (by decide)
      omega
    have hsum : ((valueOf r₀ (j + 2) + add : ℕ) : ℤ) = (valueOf r₀ j + add : ℕ)
        + wideAt .digitPair r₀ j * (digitBase : ℤ) ^ j := by
      rw [show j + 2 = j + Mode.digitPair.step from rfl, valueOf_add_step .digitPair]
      push_cast
      ring
    refine ih (by omega) (by omega) (by omega) hcarry' ?_
    rw [hsum]
    exact hnext

/-- A count of digits rounded up to whole steps. -/
def Mode.roundUp (mode : Mode) (n : ℕ) : ℕ := (n + mode.step - 1) / mode.step * mode.step

/-- Single digits need no rounding. -/
theorem Mode.roundUp_digit : Mode.digit.roundUp n = n := by simp [Mode.roundUp, Mode.step]

/-- Pairs cover an even number of digits. -/
theorem Mode.roundUp_digitPair : Mode.digitPair.roundUp n = n + n % 2 := by
  simp only [Mode.roundUp, Mode.step]
  omega

/-- **`_mulAdd` over pairs**: adds a multiple of a number, shifted by `j` digits, where the sum has
room. -/
theorem mulAddPair_spec (hx : IsDigits x) (hm : IsDigits m)
    (hr : IsDigits r) (hxlen : xIndex + 1 < x.length) (hmlen : i + (n + n % 2) ≤ m.length)
    (hl : j + (n + n % 2) ≤ l) (heven : (l - j) % 2 = 0) (hlen : l ≤ r.length)
    (hroom : valueOf r l + wideAt .digitPair x xIndex
      * valueFrom m i (n + n % 2) * digitBase ^ j < digitBase ^ l) :
    Returns False (mulAddPair x xIndex m i r j n) fun r' => Writes 0 l r r' ∧
      valueOf r' l = valueOf r l
      + wideAt .digitPair x xIndex * valueFrom m i (n + n % 2)
        * digitBase ^ j := by
  unfold mulAddPair
  refine returns_bind_of_eq (loadPair_eq hxlen) ?_
  have hX : wideAt .digitPair x xIndex < digitBase ^ 2 := wideAt_lt hx
  generalize wideAt .digitPair x xIndex = d at hroom hX ⊢
  refine returns_ite (fun hzero => ⟨Writes.refl, ?_⟩) fun _ => ?_
  · rcases hzero with rfl | rfl <;> simp
  have hpairs : n + n % 2 = 2 * ((n + 1) / 2) := by omega
  rw [hpairs] at hmlen hl hroom ⊢
  -- Invariant: the sum over the first `k` pairs is in the array and the carry.
  refine (returns_up (fun k s => s.1 < digitBase ^ 2 ∧ Carried r (valueOf r (j + 2 * k)
    + d * valueFrom m i (2 * k) * digitBase ^ j : ℕ)
    (j + 2 * k) s.1 s.2) ?_ ?_).bind ?_
  · exact ⟨Nat.pow_pos digitBase_pos, Writes.refl, by simp⟩
  · rintro k s - hk ⟨hcarry, hs⟩
    refine (mulAddPairStep_spec hX hm hr (by omega) (by omega) hcarry hs).mono ?_
    rintro s' ⟨hcarry', hs'⟩
    refine ⟨hcarry', ?_⟩
    have hwide : valueFrom m i (2 * k + 2)
        = valueFrom m i (2 * k)
          + wideAt .digitPair m (i + 2 * k) * digitBase ^ (2 * k) := by
      rw [valueFrom, value_add, mul_comm (digitBase ^ (2 * k))]
      rfl
    have hvalue : valueOf r (j + 2 * k + 2)
        = valueOf r (j + 2 * k) + wideAt .digitPair r (j + 2 * k) * digitBase ^ (j + 2 * k) :=
      valueOf_add_step .digitPair r _
    have hsum : ((valueOf r (j + 2 * k + 2) + d * valueFrom m i
        (2 * k + 2) * digitBase ^ j : ℕ) : ℤ) = (valueOf r (j + 2 * k)
          + d * valueFrom m i (2 * k) * digitBase ^ j : ℕ)
        + (d * wideAt .digitPair m (i + 2 * k) + wideAt .digitPair r (j + 2 * k) : ℕ)
          * (digitBase : ℤ) ^ (j + 2 * k) := by
      rw [hwide, hvalue]
      push_cast
      ring
    rw [show 2 * (k + 1) = 2 * k + 2 by ring, ← add_assoc, hsum]
    exact hs'
  · rintro ⟨carry, acc⟩ ⟨hcarry, hs⟩
    rw [zero_add] at hs
    exact propagateCarryPair_spec hr hlen hroom hl (by omega) (by omega) hcarry hs

/-- **`_mulAdd`**, by digits or pairs, adds a multiple within the `l` digits that have room for the
sum. -/
theorem Mode.mulAdd_spec (mode : Mode) (hx : IsDigits x)
    (hm : IsDigits m) (hr : IsDigits r) (hxlen : xIndex + mode.step ≤ x.length)
    (hmlen : i + mode.roundUp n ≤ m.length) (hl : j + mode.roundUp n ≤ l)
    (hstep : (l - j) % mode.step = 0) (hlen : l ≤ r.length)
    (hroom : valueOf r l + wideAt mode x xIndex
      * valueFrom m i (mode.roundUp n) * digitBase ^ j
      < digitBase ^ l) :
    Returns False (mode.mulAdd x xIndex m i r j n) fun r' => Writes 0 l r r' ∧
      valueOf r' l = valueOf r l + wideAt mode x xIndex
        * valueFrom m i (mode.roundUp n) * digitBase ^ j := by
  cases mode with
  | digit =>
    rw [Mode.roundUp_digit] at *
    rw [wideAt_digit] at *
    exact BigInt.mulAdd_spec hx hm hr hxlen hmlen hl hlen hroom
  | digitPair =>
    rw [Mode.roundUp_digitPair] at *
    exact mulAddPair_spec hx hm hr hxlen hmlen hl hstep hlen hroom

end DartVm.BigInt
